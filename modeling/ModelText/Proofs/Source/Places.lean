import ModelText.Source.Directory
import ModelText.Proofs.Source.Paths
import ModelText.Proofs.Source.Trees

/-!
# Following paths

A path is followed part by part, and on the way one is at a place: at a tree
with the directories around it. A step goes up, goes down or stays
(`Place.step_cases`), and following a path comes to the tree at the place where
the walk ends (`Place.follow_eq`). Along names a walk goes down the way that they
are (`Place.walk_names_iff`), so a path to a directory can be led on along any
way from there (`find_foldl_join_iff`).
-/

namespace ModelText

namespace FileTree

/-- A tree with the directories around it, the nearest first. -/
structure Place where
  above : List FileTree
  here : FileTree

namespace Place

/-- The place with nothing around it. -/
def top (t : FileTree) : Place := ⟨[], t⟩

/-- The place one directory up. -/
def up (place : Place) : Place :=
  match place.above with
  | [] => top outside
  | outer :: further => ⟨further, outer⟩

/-- The place that one part of a path leads to. -/
def step (place : Place) (part : String) : Except FileFault Place :=
  match place.here with
  | .file _ => .error .notDirectory
  | .directory entries =>
    if Path.isStay part then .ok place
    else if part = ".." then .ok place.up
    else if Path.isPartTooLong part then .error .nameTooLong
    else
      match entries.lookup part with
      | none => .error .missing
      | some inner => .ok ⟨place.here :: place.above, inner⟩

/-- What a step can do: it stays, goes up, or goes down to an entry. -/
theorem step_cases {place next : Place} {part : String}
    (h : place.step part = .ok next) : ∃ entries,
      place.here = .directory entries ∧
        (Path.isStay part = true ∧ next = place ∨
          Path.isStay part = false ∧ part = ".." ∧ next = place.up ∨
          Path.isStay part = false ∧ part ≠ ".." ∧ ∃ inner,
            entries.lookup part = some inner ∧
              next = ⟨place.here :: place.above, inner⟩) := by
  unfold step at h
  split at h
  · cases h
  rename_i entries hd
  refine ⟨entries, hd, ?_⟩
  split at h
  · rename_i hstay
    cases h
    exact .inl ⟨hstay, rfl⟩
  rename_i hstay
  rw [Bool.not_eq_true] at hstay
  split at h
  · rename_i hup
    cases h
    exact .inr (.inl ⟨hstay, hup, rfl⟩)
  rename_i hup
  split at h
  · cases h
  split at h
  · cases h
  · rename_i inner hl
    cases h
    exact .inr (.inr ⟨hstay, hup, inner, hl, rfl⟩)

/-- The place that the parts of a path lead to. -/
def walk (place : Place) : List String → Except FileFault Place
  | [] => .ok place
  | part :: rest => (place.step part).bind fun next => next.walk rest

theorem walk_cons_eq_ok_iff {place last : Place} {part : String}
    {rest : List String} : place.walk (part :: rest) = .ok last ↔
      ∃ next, place.step part = .ok next ∧ next.walk rest = .ok last := by
  rw [walk]
  cases place.step part <;> simp [Except.bind]

theorem walk_append_eq_ok_iff {place last : Place} {parts others : List String} :
    place.walk (parts ++ others) = .ok last ↔
      ∃ mid, place.walk parts = .ok mid ∧ mid.walk others = .ok last := by
  induction parts generalizing place with
  | nil => simp [walk]
  | cons part rest ih =>
    rw [List.cons_append, walk_cons_eq_ok_iff]
    constructor
    · rintro ⟨next, hs, hw⟩
      obtain ⟨mid, hm, hl⟩ := ih.1 hw
      exact ⟨mid, walk_cons_eq_ok_iff.2 ⟨next, hs, hm⟩, hl⟩
    · rintro ⟨mid, hm, hl⟩
      obtain ⟨next, hs, hm⟩ := walk_cons_eq_ok_iff.1 hm
      exact ⟨next, hs, ih.2 ⟨mid, hm, hl⟩⟩

/-- Following a path comes to the tree at the place where the walk ends. -/
theorem follow_eq (place : Place) (parts : List String) :
    place.here.follow place.above parts = (place.walk parts).map here := by
  induction parts generalizing place with
  | nil => rfl
  | cons part rest ih =>
    obtain ⟨above, here⟩ := place
    unfold follow walk step
    cases here with
    | file content => rfl
    | directory entries =>
      simp only
      split
      · exact ih ⟨above, .directory entries⟩
      split
      · cases above with
        | nil => exact ih (top outside)
        | cons outer further => exact ih ⟨further, outer⟩
      split
      · rfl
      cases entries.lookup part with
      | none => rfl
      | some inner => exact ih ⟨.directory entries :: above, inner⟩

/-- What holds of every tree at a place. -/
def All (P : FileTree → Prop) (place : Place) : Prop :=
  P place.here ∧ ∀ t ∈ place.above, P t

theorem All.top {P : FileTree → Prop} {t : FileTree} (h : P t) :
    (top t).All P := ⟨h, fun _ hm => by cases hm⟩

section All

variable {P : FileTree → Prop} (hout : P outside)
  (hin : ∀ {entries}, P (.directory entries) → ∀ entry ∈ entries, P entry.2)
include hout

theorem All.up {place : Place} (h : place.All P) : place.up.All P := by
  obtain ⟨above, here⟩ := place
  cases above with
  | nil => exact .top hout
  | cons outer further => exact List.forall_mem_cons.1 h.2

include hin

theorem All.step {place next : Place} {part : String} (h : place.All P)
    (hs : place.step part = .ok next) : next.All P := by
  obtain ⟨entries, hd, ⟨-, rfl⟩ | ⟨-, -, rfl⟩ | ⟨-, -, inner, hl, rfl⟩⟩ :=
    step_cases hs
  · exact h
  · exact h.up hout
  · refine ⟨?_, List.forall_mem_cons.2 h⟩
    exact hin (hd ▸ h.1) _ (Files.mem_of_lookup hl)

/-- What holds outside, and of the entries of each directory of which it holds,
is true wherever a path leads. -/
theorem All.walk {place last : Place} {parts : List String} (h : place.All P)
    (hw : place.walk parts = .ok last) : last.All P := by
  induction parts generalizing place with
  | nil =>
    cases hw
    exact h
  | cons part rest ih =>
    obtain ⟨next, hs, hw⟩ := walk_cons_eq_ok_iff.1 hw
    exact ih (h.step hout hin hs) hw

end All

/-- A walk that never goes up comes to the tree at the end of a way. -/
theorem at?_of_walk {place last : Place} {parts : List String}
    (hup : ".." ∉ parts) (hw : place.walk parts = .ok last) :
    place.here.at? (parts.filter (!Path.isStay ·)) = some last.here := by
  induction parts generalizing place with
  | nil =>
    cases hw
    rfl
  | cons part rest ih =>
    rw [List.mem_cons, not_or] at hup
    obtain ⟨next, hs, hw⟩ := walk_cons_eq_ok_iff.1 hw
    have hnext := ih hup.2 hw
    obtain ⟨entries, hd, ⟨hstay, rfl⟩ | ⟨-, rfl, -⟩ |
      ⟨hstay, -, inner, hl, rfl⟩⟩ := step_cases hs
    · rwa [List.filter_cons_of_neg (by simp [hstay])]
    · exact absurd rfl hup.1
    · rw [List.filter_cons_of_pos (by simp [hstay]), hd, FileTree.at?, hl]
      exact hnext

/-- A walk goes down each way that there is. -/
theorem exists_walk_of_at? {place : Place} {found : FileTree}
    {way : List String} (h : place.here.WellFormed)
    (hat : place.here.at? way = some found) :
    ∃ last, place.walk way = .ok last ∧ last.here = found := by
  induction way generalizing place with
  | nil => exact ⟨place, rfl, Option.some.inj hat⟩
  | cons name rest ih =>
    obtain ⟨above, here⟩ := place
    cases h with
    | file content => cases hat
    | @directory entries nodup names short inner =>
      obtain ⟨tree, hl, hat⟩ := Option.bind_eq_some_iff.1 hat
      have hm := Files.mem_of_lookup hl
      have hname : Path.IsName name := names _ hm
      let next : Place := ⟨.directory entries :: above, tree⟩
      have hs : step ⟨above, .directory entries⟩ name = .ok next := by
        rw [step]
        simp only [hname.not_stay, hname.ne_up, short _ hm, hl, if_false,
          Bool.false_eq_true]
        rfl
      have hnext : next.here.WellFormed := inner _ hm
      obtain ⟨last, hw, hf⟩ := ih hnext hat
      exact ⟨last, walk_cons_eq_ok_iff.2 ⟨next, hs, hw⟩, hf⟩

/-- Along names, a walk comes to the tree at the end of the way. -/
theorem walk_names_iff {place : Place} {found : FileTree}
    (h : place.here.WellFormed) {way : List String}
    (hw : ∀ name ∈ way, Path.IsName name) :
    (∃ last, place.walk way = .ok last ∧ last.here = found) ↔
      place.here.at? way = some found := by
  refine ⟨?_, exists_walk_of_at? h⟩
  rintro ⟨last, hl, rfl⟩
  have hat := at?_of_walk (fun hm => (hw _ hm).ne_up rfl) hl
  rwa [List.filter_eq_self.2 fun name hm => by simp [(hw name hm).not_stay]]
    at hat

/-- Whether the trees around a place are directories. -/
def IsInside (place : Place) : Prop :=
  ∀ t ∈ place.above, ∃ entries, t = .directory entries

theorem isInside_top (t : FileTree) : (top t).IsInside := nofun

theorem IsInside.step {place next : Place} {part : String}
    (h : place.IsInside) (hs : place.step part = .ok next) :
    next.IsInside := by
  obtain ⟨entries, hd, ⟨-, rfl⟩ | ⟨-, -, rfl⟩ | ⟨-, -, inner, -, rfl⟩⟩ :=
    step_cases hs
  · exact h
  · obtain ⟨above, here⟩ := place
    cases above with
    | nil => exact nofun
    | cons outer further => exact (List.forall_mem_cons.1 h).2
  · exact List.forall_mem_cons.2 ⟨⟨entries, hd⟩, h⟩

theorem IsInside.walk {place last : Place} {parts : List String}
    (h : place.IsInside) (hw : place.walk parts = .ok last) :
    last.IsInside := by
  induction parts generalizing place with
  | nil =>
    cases hw
    exact h
  | cons part rest ih =>
    obtain ⟨next, hs, hw⟩ := walk_cons_eq_ok_iff.1 hw
    exact ih (h.step hs) hw

/-- One comes to a file by going down to it. -/
theorem last_of_walk {place last : Place} {front : List String} {part : String}
    {content : ByteArray} (h : place.IsInside)
    (hw : place.walk (front ++ [part]) = .ok last)
    (hlast : last.here = .file content) :
    Path.isStay part = false ∧ part ≠ ".." := by
  obtain ⟨mid, hm, hs⟩ := walk_append_eq_ok_iff.1 hw
  obtain ⟨next, hs, hn⟩ := walk_cons_eq_ok_iff.1 hs
  cases hn
  obtain ⟨entries, hd, ⟨-, rfl⟩ | ⟨-, -, rfl⟩ | ⟨hstay, hup, -⟩⟩ :=
    step_cases hs
  · cases hd.symm.trans hlast
  · have hinside := h.walk hm
    obtain ⟨above, here⟩ := mid
    cases above with
    | nil => cases hlast
    | cons outer further =>
      obtain ⟨_, ho⟩ := hinside outer List.mem_cons_self
      cases ho.symm.trans hlast
  · exact ⟨hstay, hup⟩

/-! ### Places in a sorted tree -/

/-- The place with each directory sorted. -/
def sorted (place : Place) : Place :=
  ⟨place.above.map FileTree.sorted, place.here.sorted⟩

theorem sorted_outside : outside.sorted = outside := by
  obtain ⟨other, hs, hp⟩ := perm_sorted []
  rw [List.perm_nil.1 hp] at hs
  exact hs

theorem up_sorted (place : Place) : place.sorted.up = place.up.sorted := by
  obtain ⟨above, here⟩ := place
  cases above with
  | nil => exact congrArg top sorted_outside.symm
  | cons outer further => rfl

theorem step_sorted {place : Place} (h : place.here.WellFormed)
    (part : String) :
    place.sorted.step part = (place.step part).map sorted := by
  obtain ⟨above, here⟩ := place
  cases h with
  | file content => rfl
  | @directory entries nodup names short inner =>
    obtain ⟨other, hs, hp⟩ := perm_sorted entries
    have hsorted : sorted ⟨above, .directory entries⟩ =
        ⟨above.map FileTree.sorted, .directory other⟩ := by
      rw [← hs]
      rfl
    rw [hsorted]
    unfold step
    simp only [lookup_sorted nodup hp, ← hsorted, up_sorted]
    split
    · rfl
    split
    · rfl
    split
    · rfl
    cases entries.lookup part with
    | none => rfl
    | some tree => simp [Except.map, sorted, hs]

theorem walk_sorted {place : Place} (h : place.All WellFormed)
    (parts : List String) :
    place.sorted.walk parts = (place.walk parts).map sorted := by
  induction parts generalizing place with
  | nil => rfl
  | cons part rest ih =>
    rw [walk, walk, step_sorted h.1]
    cases hs : place.step part with
    | error e => rfl
    | ok next => exact ih (h.step wellFormed_outside WellFormed.inner hs)

end Place

/-! ### Paths -/

/-- Where a path starts. -/
def start (t : FileTree) (path : String) : Place :=
  .top (if Path.isAbsolute path then outside else t)

theorem subtree_eq_ok_iff {t u : FileTree} {path : String} :
    t.subtree path = .ok u ↔ '\x00' ∉ path.toList ∧
      Path.isTooLong path = false ∧ path ≠ "" ∧
      ∃ place, (t.start path).walk (Text.splitOn '/' path) = .ok place ∧
        place.here = u := by
  have hfollow (here : FileTree) :
      here.follow [] (Text.splitOn '/' path) = .ok u ↔
        ∃ place, (Place.top here).walk (Text.splitOn '/' path) = .ok place ∧
          place.here = u := by
    rw [show here.follow [] _ = _ from Place.follow_eq (.top here) _]
    cases (Place.top here).walk (Text.splitOn '/' path) <;> simp [Except.map]
  unfold subtree start
  split
  · simp_all
  split
  · simp_all
  split
  · simp_all
  split <;> simp_all

theorem find_eq_ok_iff {t : FileTree} {path : String} {content : ByteArray} :
    t.find path = .ok content ↔ t.subtree path = .ok (.file content) := by
  unfold find
  cases t.subtree path with
  | error e => exact iff_of_false nofun nofun
  | ok u =>
    cases u with
    | file c => constructor <;> (intro h; cases h; rfl)
    | directory entries => exact iff_of_false nofun nofun

theorem all_start {P : FileTree → Prop} (hout : P outside) {t : FileTree}
    (h : P t) (path : String) : (t.start path).All P := by
  unfold start
  split
  · exact .top hout
  · exact .top h

theorem WellFormed.subtree {t u : FileTree} {path : String}
    (h : t.WellFormed) (hu : t.subtree path = .ok u) : u.WellFormed := by
  obtain ⟨-, -, -, place, hw, rfl⟩ := subtree_eq_ok_iff.1 hu
  exact ((all_start wellFormed_outside h path).walk wellFormed_outside
    WellFormed.inner hw).1

theorem subtree_sorted {t u : FileTree} (h : t.WellFormed) {path : String}
    (hu : t.subtree path = .ok u) : t.sorted.subtree path = .ok u.sorted := by
  obtain ⟨hz, hl, he, place, hw, rfl⟩ := subtree_eq_ok_iff.1 hu
  have hstart : t.sorted.start path = (t.start path).sorted := by
    unfold start
    split
    · exact congrArg Place.top Place.sorted_outside.symm
    · rfl
  refine subtree_eq_ok_iff.2 ⟨hz, hl, he, place.sorted, ?_, rfl⟩
  rw [hstart, Place.walk_sorted (all_start wellFormed_outside h path), hw]
  rfl

/-- A path that leads to a tree leads there also without the empty part behind
a slash at its end. -/
theorem exists_walk_lead {t u : FileTree} {path : String}
    (h : t.subtree path = .ok u) : ∃ place,
      (t.start path).walk (Path.lead path) = .ok place ∧ place.here = u := by
  obtain ⟨-, -, -, place, hw, rfl⟩ := subtree_eq_ok_iff.1 h
  rcases Path.splitOn_eq_lead path with hl | hl
  · exact ⟨place, hl ▸ hw, rfl⟩
  · obtain ⟨mid, hm, hs⟩ := Place.walk_append_eq_ok_iff.1 (hl ▸ hw)
    obtain ⟨next, hs, hn⟩ := Place.walk_cons_eq_ok_iff.1 hs
    cases hn
    obtain ⟨-, -, ⟨-, rfl⟩ | ⟨hstay, -⟩ | ⟨hstay, -⟩⟩ := Place.step_cases hs
    · exact ⟨place, hm, rfl⟩
    · exact absurd hstay (by decide)
    · exact absurd hstay (by decide)

/-- A walk to a directory may end with a slash. -/
theorem walk_splitOn_of_lead {place last : Place} {path : String}
    {entries : List (String × FileTree)}
    (h : place.walk (Path.lead path) = .ok last)
    (hd : last.here = .directory entries) :
    place.walk (Text.splitOn '/' path) = .ok last := by
  rcases Path.splitOn_eq_lead path with hl | hl
  · rwa [hl]
  · rw [hl]
    refine Place.walk_append_eq_ok_iff.2 ⟨last, h, ?_⟩
    refine Place.walk_cons_eq_ok_iff.2 ⟨last, ?_, rfl⟩
    rw [Place.step, hd]
    rfl

/-- A path to a tree, led on along a way, leads where the way does from the
tree. -/
theorem subtree_foldl_join_iff {t dir found : FileTree} {root : String}
    (ht : t.WellFormed) (hd : t.subtree root = .ok dir) {way : List String}
    (hne : way ≠ []) (hw : ∀ name ∈ way, Path.IsName name)
    (hshort : Path.isTooLong (way.foldl Path.join root) = false) :
    t.subtree (way.foldl Path.join root) = .ok found ↔
      dir.at? way = some found := by
  obtain ⟨hz, -, he, -⟩ := subtree_eq_ok_iff.1 hd
  obtain ⟨place, hp, rfl⟩ := exists_walk_lead hd
  obtain ⟨back, hb, hc⟩ :=
    Path.exists_foldl_join_eq (fun name hm => (hw name hm).no_slash) root
  have hstart : t.start (way.foldl Path.join root) = t.start root := by
    rw [start, hb, Path.isAbsolute_append he]
    rfl
  have hzero : '\x00' ∉ (way.foldl Path.join root).toList := by
    rw [hb, String.toList_append, List.mem_append]
    rintro (hm | hm)
    · exact hz hm
    · rcases hc _ hm with hm | ⟨name, hn, hm⟩
      · exact absurd hm (by decide)
      · exact (hw name hn).no_zero hm
  have hempty : way.foldl Path.join root ≠ "" := by
    rw [hb]
    intro h
    exact he (String.append_eq_empty_iff.1 h).1
  have hplace := ((all_start wellFormed_outside ht root).walk
    wellFormed_outside WellFormed.inner hp).1
  rw [subtree_eq_ok_iff, hstart, Path.splitOn_foldl_join
    (fun name hm => ⟨(hw name hm).no_slash, (hw name hm).ne_empty⟩) hne,
    ← Place.walk_names_iff hplace hw]
  constructor
  · rintro ⟨-, -, -, last, hl, rfl⟩
    obtain ⟨mid, hm, hl⟩ := Place.walk_append_eq_ok_iff.1 hl
    obtain rfl : place = mid := Except.ok.inj (hp.symm.trans hm)
    exact ⟨last, hl, rfl⟩
  · rintro ⟨last, hl, rfl⟩
    exact ⟨hzero, hshort, hempty, last,
      Place.walk_append_eq_ok_iff.2 ⟨place, hp, hl⟩, rfl⟩

/-- In a readable directory, the file at the end of a way is found. -/
theorem find_foldl_join_iff {t dir : FileTree} {root : String}
    {content : ByteArray} (ht : t.WellFormed) (hd : t.subtree root = .ok dir)
    (hr : dir.Readable root) {way : List String} (hne : way ≠ [])
    (hw : ∀ name ∈ way, Path.IsName name) :
    t.find (way.foldl Path.join root) = .ok content ↔
      dir.at? way = some (.file content) := by
  rw [find_eq_ok_iff]
  constructor
  · intro h
    obtain ⟨-, hshort, -⟩ := subtree_eq_ok_iff.1 h
    exact (subtree_foldl_join_iff ht hd hne hw hshort).1 h
  · intro h
    cases hr.at? h with
    | file hshort text => exact (subtree_foldl_join_iff ht hd hne hw hshort).2 h

end FileTree

namespace Files

theorem isFile_iff {f : Files} {path : String} :
    f.isFile path = true ↔ ∃ content, f.find path = .ok content := by
  unfold isFile
  cases f.find path <;> simp

theorem readText_eq_ok_iff {f : Files} {path text : String} :
    f.readText path = .ok text ↔ ∃ content,
      f.find path = .ok content ∧ String.fromUTF8? content = some text := by
  unfold readText
  cases f.find path with
  | error e => exact iff_of_false nofun (by simp)
  | ok content =>
    simp only [bind, Except.bind, Except.ok.injEq, exists_eq_left']
    cases String.fromUTF8? content with
    | none => exact iff_of_false nofun nofun
    | some found => exact Except.ok.injEq found text ▸ Option.some_inj.symm

end Files

theorem UnitDirectory.fetch_eq_some_iff {d : UnitDirectory} {files : Files}
    {name text : String} : d.fetch files name = some text ↔ ∃ content,
      files.find (d.path files name) = .ok content ∧
        String.fromUTF8? content = some text := by
  rw [fetch, ← Files.readText_eq_ok_iff]
  cases files.readText (d.path files name) <;> simp [Except.toOption]

end ModelText
