import ModelText.Source.Files
import ModelText.Proofs.NameMap
import Mathlib.Data.List.Nodup

/-!
# Ways through a tree of files

A way is the list of the names that lead from a directory down to a file. In a
tree as it can be stored, each file has one way (`mem_fileWays_iff`,
`nodup_fileWays`), and sorting the directories changes neither the ways nor what
is at their ends.
-/

namespace ModelText

/-- What can name an entry of a directory. -/
structure Path.IsName (name : String) : Prop where
  no_slash : '/' ∉ name.toList
  no_zero : '\x00' ∉ name.toList
  not_stay : Path.isStay name = false
  ne_up : name ≠ ".."

theorem Path.IsName.ne_empty {name : String} (h : Path.IsName name) :
    name ≠ "" := by
  rintro rfl
  exact absurd h.not_stay (by decide)

/-- A text without the characters that no name has is a name, if it has no empty
part between dots. -/
theorem Path.isName_of_splitOn {name : String} (hs : '/' ∉ name.toList)
    (hz : '\x00' ∉ name.toList) (h : "" ∉ Text.splitOn '.' name) :
    Path.IsName name where
  no_slash := hs
  no_zero := hz
  not_stay := by
    rw [← Bool.not_eq_true, isStay, Bool.or_eq_true, decide_eq_true_eq,
      decide_eq_true_eq]
    rintro (rfl | rfl)
    · exact h (by decide)
    · exact h (by decide)
  ne_up := by
    rintro rfl
    exact h (by decide)

namespace FileTree

/-- A tree as it can be stored: in each directory the entries have different
names, which are fit to be names. -/
inductive WellFormed : FileTree → Prop
  | file (content : ByteArray) : WellFormed (.file content)
  | directory {entries : List (String × FileTree)}
      (nodup : (entries.map Prod.fst).Nodup)
      (names : ∀ entry ∈ entries, Path.IsName entry.1)
      (short : ∀ entry ∈ entries, Path.isPartTooLong entry.1 = false)
      (inner : ∀ entry ∈ entries, WellFormed entry.2) :
      WellFormed (.directory entries)

/-- A tree that can be read as a whole when it is found at a path: no path in
it is too long, and every file holds a text. -/
inductive Readable : String → FileTree → Prop
  | file {path : String} {content : ByteArray}
      (short : Path.isTooLong path = false)
      (text : ∃ text, String.fromUTF8? content = some text) :
      Readable path (.file content)
  | directory {path : String} {entries : List (String × FileTree)}
      (short : Path.isTooLong path = false)
      (inner : ∀ entry ∈ entries, Readable (Path.join path entry.1) entry.2) :
      Readable path (.directory entries)

/-- The tree at the end of a way. -/
def at? : FileTree → List String → Option FileTree
  | tree, [] => some tree
  | .file _, _ :: _ => none
  | .directory entries, name :: rest =>
    (entries.lookup name).bind fun inner => inner.at? rest

mutual

/-- The ways to all files. -/
def fileWays : FileTree → List (List String)
  | .file _ => [[]]
  | .directory entries => entryWays entries

/-- The ways to all files in a directory. -/
def entryWays : List (String × FileTree) → List (List String)
  | [] => []
  | (name, tree) :: rest => tree.fileWays.map (name :: ·) ++ entryWays rest

end

theorem entryWays_eq (entries : List (String × FileTree)) :
    entryWays entries =
      entries.flatMap fun entry => entry.2.fileWays.map (entry.1 :: ·) := by
  induction entries with
  | nil => rfl
  | cons entry rest ih => rw [entryWays, ih, List.flatMap_cons]

theorem lookup_eq_some_iff {α : Type} {entries : List (String × α)}
    (h : (entries.map Prod.fst).Nodup) {name : String} {value : α} :
    entries.lookup name = some value ↔ (name, value) ∈ entries :=
  NameMap.get?_eq_some_iff (m := ⟨entries, h⟩)

theorem wellFormed_outside : outside.WellFormed := by
  refine .directory List.nodup_nil ?_ ?_ ?_ <;> exact fun _ h => by cases h

/-! ### Going down -/

theorem WellFormed.inner {entries : List (String × FileTree)}
    (h : WellFormed (.directory entries)) :
    ∀ entry ∈ entries, entry.2.WellFormed := by
  cases h with
  | directory nodup names short inner => exact inner

theorem WellFormed.at? {t u : FileTree} {way : List String}
    (h : t.WellFormed) (hu : t.at? way = some u) :
    u.WellFormed ∧ ∀ name ∈ way, Path.IsName name := by
  induction way generalizing t with
  | nil =>
    cases hu
    exact ⟨h, fun _ hm => by cases hm⟩
  | cons name rest ih =>
    cases h with
    | file content => cases hu
    | directory nodup names short inner =>
      obtain ⟨v, hv, hu⟩ := Option.bind_eq_some_iff.1 hu
      have hm := Files.mem_of_lookup hv
      obtain ⟨hw, hr⟩ := ih (inner _ hm) hu
      exact ⟨hw, List.forall_mem_cons.2 ⟨names _ hm, hr⟩⟩

theorem Readable.at? {t u : FileTree} {path : String} {way : List String}
    (h : t.Readable path) (hu : t.at? way = some u) :
    u.Readable (way.foldl Path.join path) := by
  induction way generalizing t path with
  | nil =>
    cases hu
    exact h
  | cons name rest ih =>
    cases h with
    | file short text => cases hu
    | directory short inner =>
      obtain ⟨v, hv, hu⟩ := Option.bind_eq_some_iff.1 hu
      exact ih (inner _ (Files.mem_of_lookup hv)) hu

theorem mem_fileWays_iff {t : FileTree} (h : t.WellFormed) {way : List String} :
    way ∈ t.fileWays ↔ ∃ content, t.at? way = some (.file content) := by
  induction h generalizing way with
  | file content => cases way <;> simp [fileWays, at?]
  | directory nodup names short inner ih =>
    rw [fileWays, entryWays_eq, List.mem_flatMap]
    constructor
    · rintro ⟨⟨name, tree⟩, hm, hw⟩
      obtain ⟨rest, hr, rfl⟩ := List.mem_map.1 hw
      obtain ⟨content, hc⟩ := (ih _ hm).1 hr
      refine ⟨content, ?_⟩
      rw [at?, (lookup_eq_some_iff nodup).2 hm]
      exact hc
    · rintro ⟨content, hc⟩
      cases way with
      | nil => cases hc
      | cons name rest =>
        obtain ⟨tree, ht, hc⟩ := Option.bind_eq_some_iff.1 hc
        have hm := Files.mem_of_lookup ht
        exact ⟨_, hm, List.mem_map_of_mem ((ih _ hm).2 ⟨content, hc⟩)⟩

theorem nodup_fileWays {t : FileTree} (h : t.WellFormed) :
    t.fileWays.Nodup := by
  induction h with
  | file content => exact List.nodup_singleton _
  | directory nodup names short inner ih =>
    rw [fileWays, entryWays_eq, List.nodup_flatMap]
    constructor
    · exact fun entry hm => (ih entry hm).map (List.cons_injective)
    · refine (List.pairwise_map.1 nodup).imp fun hne => ?_
      intro way h₁ h₂
      obtain ⟨rest, -, rfl⟩ := List.mem_map.1 h₁
      obtain ⟨_, -, he⟩ := List.mem_map.1 h₂
      exact hne (List.cons.inj he).1.symm

/-! ### Sorting -/

theorem sorted_directory (entries : List (String × FileTree)) :
    (directory entries).sorted = .directory
      ((entries.map fun entry => (entry.1, entry.2.sorted)).mergeSort
        fun a b => a.1 ≤ b.1) := by
  have h : sortedEntries entries =
      entries.map fun entry => (entry.1, entry.2.sorted) := by
    induction entries with
    | nil => rfl
    | cons entry rest ih => rw [sortedEntries, ih, List.map_cons]
  rw [sorted, h]

/-- The entries of a sorted directory are those of the directory, sorted. -/
theorem perm_sorted (entries : List (String × FileTree)) :
    ∃ other, (directory entries).sorted = .directory other ∧
      other.Perm (entries.map fun entry => (entry.1, entry.2.sorted)) :=
  ⟨_, sorted_directory entries, List.mergeSort_perm _ _⟩

theorem WellFormed.sorted {t : FileTree} (h : t.WellFormed) :
    t.sorted.WellFormed := by
  induction h with
  | file content => exact .file content
  | @directory entries nodup names short inner ih =>
    obtain ⟨other, hs, hp⟩ := perm_sorted entries
    have hmem {P : String × FileTree → Prop}
        (h : ∀ entry ∈ entries, P (entry.1, entry.2.sorted)) :
        ∀ entry ∈ other, P entry := fun entry hm => by
      obtain ⟨e, he, rfl⟩ := List.mem_map.1 (hp.mem_iff.1 hm)
      exact h e he
    rw [hs]
    refine .directory ?_ (hmem names) (hmem short) (hmem ih)
    rw [(hp.map Prod.fst).nodup_iff, List.map_map]
    exact nodup

theorem Readable.sorted {t : FileTree} {path : String} (h : t.Readable path) :
    t.sorted.Readable path := by
  induction h with
  | file short text => exact .file short text
  | @directory path entries short inner ih =>
    obtain ⟨other, hs, hp⟩ := perm_sorted entries
    rw [hs]
    refine .directory short fun entry hm => ?_
    obtain ⟨e, he, rfl⟩ := List.mem_map.1 (hp.mem_iff.1 hm)
    exact ih e he

theorem lookup_sorted {entries other : List (String × FileTree)}
    (h : (entries.map Prod.fst).Nodup)
    (hp : other.Perm (entries.map fun entry => (entry.1, entry.2.sorted)))
    (name : String) :
    other.lookup name = (entries.lookup name).map FileTree.sorted := by
  have hn : (other.map Prod.fst).Nodup := by
    rw [(hp.map Prod.fst).nodup_iff, List.map_map]
    exact h
  refine Option.ext fun tree => ?_
  rw [lookup_eq_some_iff hn, hp.mem_iff, List.mem_map, Option.map_eq_some_iff]
  constructor
  · rintro ⟨⟨_, inner⟩, hm, he⟩
    cases he
    exact ⟨inner, (lookup_eq_some_iff h).2 hm, rfl⟩
  · rintro ⟨inner, hl, rfl⟩
    exact ⟨_, Files.mem_of_lookup hl, rfl⟩

theorem at?_sorted {t : FileTree} (h : t.WellFormed) (way : List String) :
    t.sorted.at? way = (t.at? way).map FileTree.sorted := by
  induction way generalizing t with
  | nil => rfl
  | cons name rest ih =>
    cases h with
    | file content => rfl
    | @directory entries nodup names short inner =>
      obtain ⟨other, hs, hp⟩ := perm_sorted entries
      rw [hs, FileTree.at?, FileTree.at?, lookup_sorted nodup hp]
      cases hl : entries.lookup name with
      | none => rfl
      | some tree => exact ih (inner _ (Files.mem_of_lookup hl))

theorem mem_fileWays_sorted {t : FileTree} (h : t.WellFormed)
    {way : List String} : way ∈ t.sorted.fileWays ↔ way ∈ t.fileWays := by
  rw [mem_fileWays_iff h.sorted, mem_fileWays_iff h, at?_sorted h]
  refine exists_congr fun content => ?_
  rw [Option.map_eq_some_iff]
  constructor
  · rintro ⟨u, hu, hs⟩
    cases u with
    | file c => rwa [← hs]
    | directory entries => cases hs
  · exact fun hu => ⟨_, hu, rfl⟩

end FileTree

end ModelText
