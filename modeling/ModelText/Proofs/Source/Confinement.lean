import ModelText.Proofs.Source.Places

/-!
# Which names keep to the directory

The name of a unit is put behind the path of the directory, as a whole or part
by part, so the path it is given need not stay below the directory. It does so
just for the names that have no slash in front or directly behind a dot, and
that do not consist of dots. By such a name only the text of a file in the
directory is fetched.
-/

namespace ModelText

namespace Path

/-- Where a path leads when its dots are resolved: whether it starts at the top,
how many directories it goes up, and along which names it then goes down. -/
structure Spot where
  absolute : Bool
  up : Nat
  down : List String
  deriving DecidableEq

/-- The spot that one more part leads to. Above the top there is nothing. -/
def Spot.step (spot : Spot) (part : String) : Spot :=
  if isStay part then spot
  else if part = ".." then
    if spot.down ≠ [] then { spot with down := spot.down.dropLast }
    else if spot.absolute then spot
    else { spot with up := spot.up + 1 }
  else { spot with down := spot.down ++ [part] }

/-- The spot that a path leads to. -/
def resolve (path : String) : Spot :=
  (Text.splitOn '/' path).foldl Spot.step ⟨isAbsolute path, 0, []⟩

/-- Whether a path leads below the directory at `root`. -/
def LiesUnder (root path : String) : Prop :=
  (resolve path).absolute = (resolve root).absolute ∧
    (resolve path).up = (resolve root).up ∧
    (resolve root).down <+: (resolve path).down ∧
    (resolve path).down ≠ (resolve root).down

instance (root path : String) : Decidable (LiesUnder root path) :=
  inferInstanceAs (Decidable (_ ∧ _ ∧ _ ∧ _))

/-- Whether a path goes on behind `root` with parts that only lead down. -/
def GoesDown (root path : String) : Prop :=
  ∃ rest, Text.splitOn '/' path = lead root ++ rest ∧
    rest.head? ≠ some "" ∧ ".." ∉ rest ∧ ∃ part ∈ rest, isStay part = false

/-! ### Going down -/

theorem foldl_step {rest : List String} (h : ".." ∉ rest) (spot : Spot) :
    rest.foldl Spot.step spot =
      { spot with down := spot.down ++ rest.filter (!isStay ·) } := by
  induction rest generalizing spot with
  | nil => simp
  | cons part rest ih =>
    rw [List.mem_cons, not_or] at h
    rw [List.foldl_cons, ih h.2, Spot.step]
    by_cases hs : isStay part
    · simp [hs]
    · simp [hs, Ne.symm h.1]

theorem resolve_eq_lead (root : String) :
    resolve root = (lead root).foldl Spot.step ⟨isAbsolute root, 0, []⟩ := by
  unfold resolve
  rcases splitOn_eq_lead root with h | h
  · rw [h]
  · rw [h, List.foldl_append]
    rfl

theorem absolute_resolve (path : String) :
    (resolve path).absolute = isAbsolute path := by
  have h (parts : List String) (spot : Spot) :
      (parts.foldl Spot.step spot).absolute = spot.absolute := by
    induction parts generalizing spot with
    | nil => rfl
    | cons part rest ih =>
      rw [List.foldl_cons, ih, Spot.step]
      grind
  exact h _ _

theorem GoesDown.isAbsolute_eq {root path : String} (h : GoesDown root path) :
    isAbsolute path = isAbsolute root := by
  obtain ⟨rest, hs, hhead, -, part, hm, -⟩ := h
  exact Path.isAbsolute_eq hs (List.ne_nil_of_mem hm) hhead

theorem GoesDown.liesUnder {root path : String} (h : GoesDown root path) :
    LiesUnder root path := by
  have ha := h.isAbsolute_eq
  obtain ⟨rest, hs, -, hup, part, hm, hp⟩ := h
  have hr : resolve path = { resolve root with
      down := (resolve root).down ++ rest.filter (!isStay ·) } := by
    rw [resolve, hs, List.foldl_append, ha, ← resolve_eq_lead, foldl_step hup]
  have hne : rest.filter (!isStay ·) ≠ [] :=
    List.ne_nil_of_mem (List.mem_filter.2 ⟨hm, by simp [hp]⟩)
  rw [LiesUnder, hr]
  exact ⟨rfl, rfl, List.prefix_append _ _, by simpa using hne⟩

end Path

/-- Whether a content is that of a file below the directory at `root`. -/
def FileTree.HoldsUnder (t : FileTree) (root : String) (content : ByteArray) :
    Prop :=
  ∃ place, (t.start root).walk (Text.splitOn '/' root) = .ok place ∧
    ∃ way ≠ [], place.here.at? way = some (.file content)

/-- What is found at a path that goes down from a directory is in it. -/
theorem FileTree.holdsUnder_of_goesDown {t : FileTree} {root path : String}
    {content : ByteArray} (h : Path.GoesDown root path)
    (hf : t.find path = .ok content) : t.HoldsUnder root content := by
  have hstart : t.start path = t.start root := by
    rw [start, start, h.isAbsolute_eq]
  obtain ⟨rest, hs, -, hup, part, hm, hp⟩ := h
  obtain ⟨-, -, -, last, hw, hl⟩ := subtree_eq_ok_iff.1 (find_eq_ok_iff.1 hf)
  rw [hs, hstart] at hw
  obtain ⟨place, hplace, hw⟩ := Place.walk_append_eq_ok_iff.1 hw
  have hat := Place.at?_of_walk hup hw
  have hne : rest.filter (!Path.isStay ·) ≠ [] :=
    List.ne_nil_of_mem (List.mem_filter.2 ⟨hm, by simp [hp]⟩)
  rw [hl] at hat
  cases hd : place.here with
  | file other =>
    rw [hd] at hat
    cases hw : rest.filter (!Path.isStay ·) with
    | nil => exact absurd hw hne
    | cons name way => rw [hw] at hat; cases hat
  | directory entries =>
    exact ⟨place, walk_splitOn_of_lead hplace hd, _, hne, hat⟩

namespace UnitDirectory

/-- Whether a name has no slash in front or directly behind a dot, and does not
consist of dots. -/
structure Confined (name : String) : Prop where
  relative : ∀ part ∈ Text.splitOn '.' name, Path.isAbsolute part = false
  not_dots : ∃ part ∈ Text.splitOn '.' name, part ≠ ""

/-! ### Names as a whole -/

theorem exists_absolute {text : String} (h : Path.isAbsolute text = true) :
    ∃ part ∈ Text.splitOn '.' text, Path.isAbsolute part = true := by
  obtain ⟨rest, hr⟩ := List.head?_eq_some_iff.1 (eq_of_beq h)
  rw [Text.splitOn_eq, hr]
  exact ⟨_, List.mem_cons_self, by simp [Text.parts, Path.isAbsolute]⟩

theorem Confined.ne_empty {name : String} (h : Confined name) : name ≠ "" := by
  rintro rfl
  obtain ⟨part, hm, hne⟩ := h.not_dots
  exact hne (List.mem_singleton.1 hm)

theorem Confined.isAbsolute_eq {name : String} (h : Confined name) :
    Path.isAbsolute name = false := by
  refine Bool.eq_false_iff.2 fun ha => ?_
  obtain ⟨part, hm, hp⟩ := exists_absolute ha
  exact absurd hp (by simp [h.relative part hm])

/-- Behind a dot in a confined name there is no slash. -/
theorem Confined.not_dot_slash {name : String} (h : Confined name)
    (front back : String) :
    name ≠ front ++ String.singleton '.' ++ (String.singleton '/' ++ back) := by
  rintro rfl
  have ha : Path.isAbsolute (String.singleton '/' ++ back) = true := by
    simp [Path.isAbsolute]
  obtain ⟨part, hm, hp⟩ := exists_absolute ha
  have hr := h.relative part
  rw [Text.splitOn_append] at hr
  exact absurd hp (by simp [hr (List.mem_append_right _ hm)])

/-- A confined name that is the path of a file leads down to it. -/
theorem Confined.goesDown_join {name root : String} (h : Confined name)
    {tree : FileTree} {content : ByteArray}
    (hf : tree.find (Path.join root name) = .ok content) :
    Path.GoesDown root (Path.join root name) := by
  have hs := Path.splitOn_join h.isAbsolute_eq root
  obtain ⟨-, -, -, place, hw, hl⟩ :=
    FileTree.subtree_eq_ok_iff.1 (FileTree.find_eq_ok_iff.1 hf)
  obtain ⟨front, last, hparts⟩ : ∃ front last,
      Text.splitOn '/' name = front ++ [last] :=
    ⟨_, _, (List.dropLast_concat_getLast (Text.splitOn_ne_nil '/' name)).symm⟩
  rw [hs, hparts, ← List.append_assoc] at hw
  obtain ⟨hstay, hup⟩ :=
    FileTree.Place.last_of_walk (FileTree.Place.isInside_top _) hw hl
  have hfront : ".." ∉ front := by
    intro hm
    obtain ⟨before, behind, rfl⟩ := List.append_of_mem hm
    obtain ⟨next, back, hback⟩ : ∃ next back,
        behind ++ [last] = next :: back := by
      cases behind with
      | nil => exact ⟨_, _, rfl⟩
      | cons next back => exact ⟨_, _, rfl⟩
    rw [List.append_assoc, List.cons_append, hback] at hparts
    obtain ⟨before, behind, hname⟩ := Text.exists_of_splitOn_eq hparts
    refine h.not_dot_slash (before ++ ".") (next ++ behind) ?_
    rw [hname]
    simp only [String.append_assoc]
    rfl
  refine ⟨_, hs, ?_, ?_, last, ?_, hstay⟩
  · rw [Ne, Path.head?_splitOn, h.isAbsolute_eq]
    exact not_or.2 ⟨h.ne_empty, Bool.false_ne_true⟩
  · rw [hparts, List.mem_append, List.mem_singleton]
    exact not_or.2 ⟨hfront, Ne.symm hup⟩
  · rw [hparts]
    exact List.mem_append_right _ List.mem_cons_self

/-! ### Names part by part -/

/-- A text that begins with one that has no dot leads down. -/
theorem leadsDown_append {part : String} (hd : '.' ∉ part.toList)
    (hne : part ≠ "") (back : String) :
    Path.isStay (part ++ back) = false ∧ part ++ back ≠ ".." := by
  cases hp : part.toList with
  | nil => exact absurd (String.toList_eq_nil_iff.1 hp) hne
  | cons c rest =>
    have hc : '.' ≠ c := by
      rintro rfl
      exact hd (hp ▸ List.mem_cons_self)
    have hhead : (part ++ back).toList.head? = some c := by
      rw [String.toList_append, hp]
      rfl
    have hother (other : String) (ho : other.toList.head? ≠ some c) :
        part ++ back ≠ other := fun h => ho (h ▸ hhead)
    refine ⟨?_, hother ".." (by simpa using hc)⟩
    rw [Path.isStay, decide_eq_false (hother "" (by simp)),
      decide_eq_false (hother "." (by simpa using hc))]
    rfl

/-- Whether parts lead down from wherever they stand behind: they have no dots,
and the first one is not empty. -/
structure LeadDown (parts : List String) : Prop where
  no_dot : ∀ part ∈ parts, '.' ∉ part.toList
  head?_ne : parts.head? ≠ some ""
  exists_ne : ∃ part ∈ parts, part ≠ ""

theorem head?_flatMap_lead {names : List String}
    (h : ∀ name ∈ names, Path.isAbsolute name = false) :
    (names.flatMap Path.lead).head? ≠ some "" := by
  induction names with
  | nil => exact nofun
  | cons name rest ih =>
    obtain ⟨hn, hr⟩ := List.forall_mem_cons.1 h
    rw [List.flatMap_cons]
    cases hl : Path.lead name with
    | nil => exact ih hr
    | cons first others =>
      have hf := Path.head?_lead name
      rw [hl, hn] at hf
      exact fun he => Bool.false_ne_true (hf.1 he)

theorem Confined.leadDown {name : String} (h : Confined name) :
    LeadDown ((Text.splitOn '.' name).flatMap Path.lead) where
  no_dot part hm hd := by
    obtain ⟨outer, ho, hm⟩ := List.mem_flatMap.1 hm
    exact Text.mark_not_mem_splitOn ho
      (Text.mem_of_mem_splitOn (Path.mem_splitOn_of_mem_lead hm) hd)
  head?_ne := head?_flatMap_lead h.relative
  exists_ne := by
    obtain ⟨outer, ho, hne⟩ := h.not_dots
    obtain ⟨first, others, hl⟩ :=
      List.exists_cons_of_ne_nil (Path.lead_ne_nil hne)
    have hf := Path.head?_lead outer
    rw [hl, h.relative outer ho] at hf
    refine ⟨first, List.mem_flatMap.2 ⟨outer, ho, hl ▸ List.mem_cons_self⟩, ?_⟩
    rintro rfl
    exact Bool.false_ne_true (hf.1 rfl)

/-- A confined name, taken part by part, leads down. -/
theorem Confined.goesDown_dottedPath {name : String} (h : Confined name)
    {d : UnitDirectory} (he : '/' ∉ d.extension.toList) :
    Path.GoesDown d.root (d.dottedPath name) := by
  have hparts := h.leadDown
  have hlead := Path.lead_foldl_join h.relative d.root
  generalize (Text.splitOn '.' name).flatMap Path.lead = parts at hparts hlead
  have hlast : ∃ part ∈ parts, Path.isStay part = false := by
    obtain ⟨part, hm, hne⟩ := hparts.exists_ne
    have := (leadsDown_append (hparts.no_dot part hm) hne "").1
    exact ⟨part, hm, by rwa [String.append_empty] at this⟩
  obtain ⟨front, last, stays, rfl, hl, hstays⟩ := Path.exists_last_part hlast
  have hmem : last ∈ front ++ last :: stays :=
    List.mem_append_right _ List.mem_cons_self
  have hdot := hparts.no_dot last hmem
  have hne : last ≠ "" := by
    rintro rfl
    exact absurd hl (by decide)
  have hdown (back : String) := leadsDown_append hdot hne back
  have hup : last ≠ ".." := by
    have := (hdown "").2
    rwa [String.append_empty] at this
  -- behind the directory stand the parts, with the extension at the last one
  have hsplit : Text.splitOn '/' (d.dottedPath name) =
      Path.lead d.root ++ (front ++ [last ++ Path.ending d.extension]) := by
    rw [← List.append_assoc] at hlead
    rw [dottedPath, Path.splitOn_withExtension hlead hstays hl hup he,
      Path.stem_of_no_dot hdot, List.append_assoc]
  refine ⟨_, hsplit, ?_, ?_, _,
    List.mem_append_right _ List.mem_cons_self, (hdown _).1⟩
  · cases front with
    | nil =>
      intro hhead
      have := (hdown (Path.ending d.extension)).1
      rw [Option.some_inj.1 hhead] at this
      exact absurd this (by decide)
    | cons first front => exact hparts.head?_ne
  · rw [List.mem_append, List.mem_singleton]
    refine not_or.2 ⟨fun hm => ?_, Ne.symm (hdown _).2⟩
    exact hparts.no_dot ".." (List.mem_append_left _ hm) (by decide)

/-! ### Names that leave -/

theorem not_liesUnder_of_isAbsolute {root path : String}
    (hr : Path.isAbsolute root = false) (hp : Path.isAbsolute path = true) :
    ¬ Path.LiesUnder root path := by
  rintro ⟨ha, -⟩
  rw [Path.absolute_resolve, Path.absolute_resolve, hr, hp] at ha
  exact absurd ha (by decide)

/-- A name that is not confined leaves a directory without files. -/
theorem not_liesUnder_of_not_confined {name : String} (h : ¬ Confined name) :
    ¬ Path.LiesUnder "a" (dottedPath ⟨"a", "simon"⟩ name) := by
  by_cases hr : ∃ part ∈ Text.splitOn '.' name, Path.isAbsolute part = true
  · exact not_liesUnder_of_isAbsolute rfl (Path.isAbsolute_withExtension
      (Path.isAbsolute_foldl_join (.inr hr)) "simon")
  · have hdots : ∀ part ∈ Text.splitOn '.' name, part = "" := by
      intro part hm
      by_contra hne
      refine h ⟨fun other ho => ?_, part, hm, hne⟩
      exact Bool.eq_false_iff.2 fun ha => hr ⟨other, ho, ha⟩
    have hstay {parts : List String} (hp : ∀ part ∈ parts, part = "") :
        parts.foldl Path.join "a/" = "a/" := by
      induction parts with
      | nil => rfl
      | cons part rest ih =>
        obtain ⟨rfl, hrest⟩ := List.forall_mem_cons.1 hp
        exact ih hrest
    have hpath : (Text.splitOn '.' name).foldl Path.join "a" = "a/" := by
      obtain ⟨first, rest, hs⟩ :=
        List.exists_cons_of_ne_nil (Text.splitOn_ne_nil '.' name)
      rw [hs] at hdots ⊢
      obtain ⟨rfl, hrest⟩ := List.forall_mem_cons.1 hdots
      exact hstay hrest
    rw [dottedPath, hpath]
    decide

/-- The names that keep to the directory are the confined ones: whatever there
is in the directory, a confined name leads to a path below it and gives only
the text of a file in it. -/
theorem confined_iff (name : String) : Confined name ↔
    ∀ (d : UnitDirectory) (tree : FileTree), '/' ∉ d.extension.toList →
      Path.LiesUnder d.root (d.path tree.files name) ∧
        ∀ text, d.fetch tree.files name = some text →
          ∃ content, String.fromUTF8? content = some text ∧
            tree.HoldsUnder d.root content := by
  constructor
  · intro h d tree he
    have hdown : Path.GoesDown d.root (d.path tree.files name) := by
      unfold path
      simp only
      split
      · rename_i hfile
        obtain ⟨content, hf⟩ := Files.isFile_iff.1 hfile
        exact h.goesDown_join hf
      · exact h.goesDown_dottedPath he
    refine ⟨hdown.liesUnder, fun text ht => ?_⟩
    obtain ⟨content, hf, hc⟩ := fetch_eq_some_iff.1 ht
    exact ⟨content, hc, FileTree.holdsUnder_of_goesDown hdown hf⟩
  · intro h
    by_contra hn
    obtain ⟨hunder, -⟩ := h ⟨"a", "simon"⟩ .empty (by decide)
    have hpath : path ⟨"a", "simon"⟩ FileTree.empty.files name =
        dottedPath ⟨"a", "simon"⟩ name := by
      refine if_neg fun hfile => ?_
      obtain ⟨content, hf⟩ := Files.isFile_iff.1 hfile
      exact List.not_mem_nil (FileTree.find_mem_contents hf)
    exact not_liesUnder_of_not_confined hn (hpath ▸ hunder)

/-- A directory of units with files beside it. -/
def neighbours : FileTree :=
  .directory [("src", .directory [("main.simon", .file "1".toUTF8)]),
    ("src.simon", .file "2".toUTF8), ("secret.simon", .file "3".toUTF8)]

/-- By the empty name, and by a path that goes up, files beside the directory
are fetched. -/
theorem names_leave_directory :
    fetch ⟨"src", "simon"⟩ neighbours.files "" = some "2" ∧
      ¬ Path.LiesUnder "src" (path ⟨"src", "simon"⟩ neighbours.files "") ∧
    fetch ⟨"src", "simon"⟩ neighbours.files "../secret.simon" = some "3" ∧
      ¬ Path.LiesUnder "src"
        (path ⟨"src", "simon"⟩ neighbours.files "../secret.simon") := by
  decide +kernel

end UnitDirectory

end ModelText
