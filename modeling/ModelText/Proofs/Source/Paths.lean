import ModelText.Source.Path
import ModelText.Proofs.Text.Split
import Mathlib.Data.List.Basic

/-!
# Paths as lists of parts

Paths are put together as texts, but followed part by part. Here the texts are
told in parts: leading on along a name puts the parts of the name behind those
of the path (`splitOn_join`), and another extension changes the last part only
(`withExtension_eq`).
-/

namespace ModelText.Path

open Text

/-! ### Stems and extensions -/

theorem cutAtLastDot_eq_none_iff {cs : List Char} :
    cutAtLastDot cs = none ↔ '.' ∉ cs := by
  induction cs with
  | nil => simp [cutAtLastDot]
  | cons c rest ih =>
    unfold cutAtLastDot
    cases h : cutAtLastDot rest with
    | some cut =>
      have hm : '.' ∈ rest := not_not.1 fun hn => by simp [ih.2 hn] at h
      simp [hm]
    | none => by_cases hc : c = '.' <;> simp [hc, ih.1 h, eq_comm]

theorem stem_of_no_dot {name : String} (h : '.' ∉ name.toList) :
    stem name = name := by
  rw [stem, stemAndExtension, cutAtLastDot_eq_none_iff.2 h]

/-- A name is its stem or goes on behind a dot with its extension. -/
theorem stem_cases (name : String) :
    stem name = name ∧ extension? name = none ∨
      ∃ ending, extension? name = some ending ∧ stem name ≠ "" ∧
        name = stem name ++ "." ++ ending := by
  unfold stem extension? stemAndExtension
  split
  · rename_i b before after hc
    refine .inr ⟨_, rfl, ?_, ?_⟩
    · simp
    · rw [← String.toList_inj, (cutAtLastDot_eq_some hc).1]
      simp
  · exact .inl ⟨rfl, rfl⟩

theorem eq_of_extension? {name ending : String}
    (h : extension? name = some ending) :
    name = stem name ++ "." ++ ending := by
  rcases stem_cases name with ⟨-, hn⟩ | ⟨other, ho, -, hname⟩
  · cases hn.symm.trans h
  · cases ho.symm.trans h
    exact hname

theorem stem_ne_empty {name : String} (h : name ≠ "") : stem name ≠ "" := by
  rcases stem_cases name with ⟨hs, -⟩ | ⟨_, -, hs, -⟩
  · rwa [hs]
  · exact hs

theorem mem_of_mem_stem {name : String} {c : Char}
    (h : c ∈ (stem name).toList) : c ∈ name.toList := by
  rcases stem_cases name with ⟨hs, -⟩ | ⟨ending, -, -, hname⟩
  · rwa [hs] at h
  · rw [hname, String.toList_append, String.toList_append]
    exact List.mem_append_left _ (List.mem_append_left _ h)

/-! ### Leading on -/

/-- The parts of a path that stand in front of what it is led on along: all of
them, but for the empty one behind a slash at the end. -/
def lead (path : String) : List String :=
  if path.toList.getLast?.all (· == '/') then (splitOn '/' path).dropLast
  else splitOn '/' path

theorem lead_slash (path : String) :
    lead (path ++ String.singleton '/') = splitOn '/' path := by
  have h := splitOn_append '/' path ""
  rw [String.append_empty] at h
  rw [lead, if_pos (by simp), h]
  exact List.dropLast_concat

theorem lead_cases (path : String) :
    path = "" ∨ (∃ front, path = front ++ String.singleton '/') ∨
      path.toList.getLast?.all (· == '/') = false := by
  cases hl : path.toList.getLast? with
  | none => exact .inl (by simpa using hl)
  | some c =>
    by_cases hc : c = '/'
    · obtain ⟨front, hf⟩ := List.getLast?_eq_some_iff.1 hl
      refine .inr (.inl ⟨String.ofList front, ?_⟩)
      rw [← String.toList_inj, hf, hc]
      simp
    · exact .inr (.inr (by simpa using hc))

/-- The parts of a path are those that stand in front, and then perhaps an empty
one. -/
theorem splitOn_eq_lead (path : String) : splitOn '/' path = lead path ∨
    splitOn '/' path = lead path ++ [""] := by
  rcases lead_cases path with rfl | ⟨front, rfl⟩ | hl
  · exact .inr rfl
  · rw [lead_slash]
    have h := splitOn_append '/' front ""
    rw [String.append_empty] at h
    exact .inr h
  · rw [lead, hl]
    exact .inl rfl

theorem isAbsolute_of_no_slash {name : String} (h : '/' ∉ name.toList) :
    isAbsolute name = false := by
  unfold isAbsolute
  cases hn : name.toList with
  | nil => rfl
  | cons c rest =>
    rw [hn] at h
    simpa using fun hc : c = '/' => h (hc ▸ List.mem_cons_self)

theorem lead_ne_nil {path : String} (h : path ≠ "") : lead path ≠ [] := by
  intro hl
  rcases splitOn_eq_lead path with hs | hs
  · exact splitOn_ne_nil '/' path (hs.trans hl)
  · rw [hl] at hs
    exact h ((eq_intercalate_of_splitOn hs).trans String.intercalate_singleton)

theorem isAbsolute_append {front : String} (h : front ≠ "") (back : String) :
    isAbsolute (front ++ back) = isAbsolute front := by
  unfold isAbsolute
  rw [String.toList_append, List.head?_append]
  cases hf : front.toList with
  | nil => exact absurd (String.toList_eq_nil_iff.1 hf) h
  | cons c rest => rfl

/-- A path that is led on along a name goes on with its characters, and perhaps
a slash. -/
theorem exists_join_eq {name : String} (h : isAbsolute name = false)
    (path : String) : ∃ back, join path name = path ++ back ∧
      ∀ c ∈ back.toList, c = '/' ∨ c ∈ name.toList := by
  rw [join, if_neg (by simp [h])]
  split
  · exact ⟨name, rfl, fun c hc => .inr hc⟩
  · refine ⟨"/" ++ name, String.append_assoc, fun c hc => ?_⟩
    simpa using hc

theorem exists_foldl_join_eq {names : List String}
    (h : ∀ name ∈ names, '/' ∉ name.toList) (root : String) :
    ∃ back, names.foldl join root = root ++ back ∧
      ∀ c ∈ back.toList, c = '/' ∨ ∃ name ∈ names, c ∈ name.toList := by
  induction names generalizing root with
  | nil => exact ⟨"", String.append_empty.symm, fun c hc => by simp at hc⟩
  | cons name rest ih =>
    obtain ⟨hs, hrest⟩ := List.forall_mem_cons.1 h
    obtain ⟨first, hf, hcf⟩ := exists_join_eq (isAbsolute_of_no_slash hs) root
    obtain ⟨back, hb, hcb⟩ := ih hrest (join root name)
    refine ⟨first ++ back, ?_, fun c hc => ?_⟩
    · rw [List.foldl_cons, hb, hf, String.append_assoc]
    · rw [String.toList_append, List.mem_append] at hc
      rcases hc with hc | hc
      · exact (hcf c hc).imp_right fun hc => ⟨name, List.mem_cons_self, hc⟩
      · exact (hcb c hc).imp_right fun ⟨other, hm, hc⟩ =>
          ⟨other, List.mem_cons_of_mem _ hm, hc⟩

/-- Leading on along a name puts its parts behind those of the path. -/
theorem splitOn_join {name : String} (h : isAbsolute name = false)
    (path : String) :
    splitOn '/' (join path name) = lead path ++ splitOn '/' name := by
  rw [join, if_neg (by simp [h])]
  rcases lead_cases path with rfl | ⟨front, rfl⟩ | hl
  · rw [if_pos (by simp)]
    simp [lead, splitOn_of_not_mem]
  · rw [if_pos (by simp), lead_slash]
    exact splitOn_append '/' front name
  · rw [if_neg (by simp [hl]), lead, hl]
    exact splitOn_append '/' path name

theorem lead_of_not_mem {name : String} (hs : '/' ∉ name.toList)
    (hn : name ≠ "") : lead name = [name] := by
  have hlast : name.toList.getLast?.all (· == '/') = false := by
    rcases lead_cases name with he | ⟨front, rfl⟩ | hl
    · exact absurd he hn
    · exact absurd (by simp) hs
    · exact hl
  rw [lead, hlast, if_neg Bool.false_ne_true, splitOn_of_not_mem hs]

theorem mem_splitOn_of_mem_lead {path part : String} (h : part ∈ lead path) :
    part ∈ splitOn '/' path := by
  rcases splitOn_eq_lead path with hs | hs
  · rwa [hs]
  · rw [hs]
    exact List.mem_append_left _ h

/-- Leading on along a name puts what stands in front in it behind what stands
in front in the path. -/
theorem lead_join {name : String} (h : isAbsolute name = false)
    (path : String) : lead (join path name) = lead path ++ lead name := by
  by_cases hn : name = ""
  · subst hn
    rw [join, h, if_neg Bool.false_ne_true, show lead "" = [] from rfl,
      List.append_nil]
    rcases lead_cases path with rfl | ⟨front, rfl⟩ | hp
    · rfl
    · rw [if_pos (by simp), String.append_empty]
    · rw [if_neg (by simp [hp]), String.append_empty]
      exact (lead_slash path).trans (by rw [lead, hp]; rfl)
  · have hlast : (join path name).toList.getLast? = name.toList.getLast? := by
      have hend : ∃ front, join path name = front ++ name := by
        rw [join, if_neg (by simp [h])]
        split <;> exact ⟨_, rfl⟩
      obtain ⟨front, hf⟩ := hend
      rw [hf, String.toList_append, List.getLast?_append]
      exact Option.or_of_isSome (List.getLast?_isSome.2 (by simpa using hn))
    rw [lead, hlast, splitOn_join h, lead.eq_def name]
    split
    · exact List.dropLast_append_of_ne_nil (splitOn_ne_nil _ _)
    · rfl

theorem lead_foldl_join {names : List String}
    (h : ∀ name ∈ names, isAbsolute name = false) (root : String) :
    lead (names.foldl join root) = lead root ++ names.flatMap lead := by
  induction names generalizing root with
  | nil => exact (List.append_nil _).symm
  | cons name rest ih =>
    obtain ⟨hn, hr⟩ := List.forall_mem_cons.1 h
    rw [List.foldl_cons, ih hr, lead_join hn, List.flatMap_cons,
      List.append_assoc]

/-- The parts of a path that was led on along names without a slash. -/
theorem splitOn_foldl_join {names : List String}
    (h : ∀ name ∈ names, '/' ∉ name.toList ∧ name ≠ "") (hne : names ≠ [])
    (root : String) :
    splitOn '/' (names.foldl join root) = lead root ++ names := by
  obtain ⟨front, last, rfl⟩ : ∃ front last, names = front ++ [last] :=
    ⟨_, _, (List.dropLast_concat_getLast hne).symm⟩
  obtain ⟨hfront, hlast⟩ := List.forall_mem_append.1 h
  have hs := (hlast last List.mem_cons_self).1
  have hlead : front.flatMap lead = front := by
    rw [List.flatMap_congr fun name hm =>
      lead_of_not_mem (hfront name hm).1 (hfront name hm).2,
      List.flatMap_singleton']
  rw [List.foldl_append, List.foldl_cons, List.foldl_nil,
    splitOn_join (isAbsolute_of_no_slash hs), splitOn_of_not_mem hs,
    lead_foldl_join fun name hm => isAbsolute_of_no_slash (hfront name hm).1,
    hlead, List.append_assoc]

/-! ### Absolute paths -/

/-- A path is absolute if it has an empty part in front of others. -/
theorem isAbsolute_iff {path : String} : isAbsolute path = true ↔
    ∃ rest, rest ≠ [] ∧ splitOn '/' path = "" :: rest := by
  unfold isAbsolute
  rw [splitOn_eq]
  cases path.toList with
  | nil => simp [parts]
  | cons c rest =>
    by_cases hc : c = '/'
    · simp [parts, hc]
    · simp [parts, hc, ← String.toList_inj]

theorem head?_splitOn {path : String} : (splitOn '/' path).head? = some "" ↔
    path = "" ∨ isAbsolute path = true := by
  rw [isAbsolute_iff]
  constructor
  · intro h
    obtain ⟨rest, hs⟩ := List.head?_eq_some_iff.1 h
    by_cases hr : rest = []
    · rw [hr] at hs
      rw [eq_intercalate_of_splitOn hs]
      exact .inl String.intercalate_singleton
    · exact .inr ⟨rest, hr, hs⟩
  · rintro (rfl | ⟨rest, -, hs⟩)
    · rfl
    · rw [hs, List.head?_cons]

theorem head?_lead (path : String) :
    (lead path).head? = some "" ↔ isAbsolute path = true := by
  rcases lead_cases path with rfl | ⟨front, rfl⟩ | hl
  · exact iff_of_false nofun Bool.false_ne_true
  · rw [lead_slash, head?_splitOn]
    by_cases hf : front = ""
    · rw [hf]
      exact iff_of_true (.inl rfl) rfl
    · rw [isAbsolute_append hf, or_iff_right hf]
  · have hne : path ≠ "" := by
      rintro rfl
      exact Bool.false_ne_true hl.symm
    rw [lead, hl, if_neg Bool.false_ne_true, head?_splitOn, or_iff_right hne]

theorem isAbsolute_join {path name : String}
    (h : isAbsolute path = true ∨ isAbsolute name = true) :
    isAbsolute (join path name) = true := by
  by_cases hn : isAbsolute name = true
  · rw [join, if_pos hn]
    exact hn
  · obtain ⟨back, hb, -⟩ := exists_join_eq (Bool.not_eq_true _ ▸ hn) path
    have hp := h.resolve_right hn
    have hne : path ≠ "" := by
      rintro rfl
      exact absurd hp (by decide)
    rw [hb, isAbsolute_append hne, hp]

/-- Nothing leads away from an absolute path but another one. -/
theorem isAbsolute_foldl_join {names : List String} {root : String}
    (h : isAbsolute root = true ∨ ∃ name ∈ names, isAbsolute name = true) :
    isAbsolute (names.foldl join root) = true := by
  induction names generalizing root with
  | nil => exact h.resolve_right (by simp)
  | cons name rest ih =>
    simp only [List.mem_cons, exists_eq_or_imp, ← or_assoc] at h
    exact ih (h.imp_left isAbsolute_join)

/-- A path that goes on behind another one is absolute if the other one is. -/
theorem isAbsolute_eq {root path : String} {rest : List String}
    (h : splitOn '/' path = lead root ++ rest) (hne : rest ≠ [])
    (hr : rest.head? ≠ some "") : isAbsolute path = isAbsolute root := by
  rw [Bool.eq_iff_iff, isAbsolute_iff, ← head?_lead, h]
  cases lead root with
  | nil =>
    refine iff_of_false ?_ nofun
    rintro ⟨others, -, hs⟩
    exact hr (by rw [← List.nil_append rest, hs, List.head?_cons])
  | cons first front =>
    rw [List.head?_cons, Option.some_inj]
    constructor
    · rintro ⟨others, -, hs⟩
      exact (List.cons.inj hs).1
    · rintro rfl
      exact ⟨front ++ rest, by simp [hne], rfl⟩

/-! ### Another extension -/

/-- What stands behind the stem of a name with an extension. -/
def ending (extension : String) : String :=
  if extension = "" then "" else "." ++ extension

theorem slash_not_mem_ending {extension : String}
    (h : '/' ∉ extension.toList) : '/' ∉ (ending extension).toList := by
  unfold ending
  split
  · simp
  · simpa using h

/-- Of the parts that lead on, there is a last one. -/
theorem exists_last_part {all : List String}
    (h : ∃ part ∈ all, isStay part = false) : ∃ front last stays,
      all = front ++ last :: stays ∧ isStay last = false ∧
        ∀ part ∈ stays, isStay part = true := by
  induction all with
  | nil => simp at h
  | cons first rest ih =>
    by_cases hr : ∃ part ∈ rest, isStay part = false
    · obtain ⟨front, last, stays, rfl, hl, hs⟩ := ih hr
      exact ⟨first :: front, last, stays, rfl, hl, hs⟩
    · simp only [List.mem_cons, exists_eq_or_imp] at h
      refine ⟨[], first, rest, rfl, h.resolve_right hr, fun part hm => ?_⟩
      exact Bool.of_not_eq_false fun hf => hr ⟨part, hm, hf⟩

/-- Another extension changes the last part that leads on. -/
theorem withExtension_eq {path last : String} {front stays : List String}
    (h : splitOn '/' path = front ++ last :: stays)
    (hs : ∀ part ∈ stays, isStay part = true) (hl : isStay last = false)
    (ha : last ≠ "..") (extension : String) :
    withExtension path extension = (String.singleton '/').intercalate
      (front ++ [stem last ++ ending extension]) := by
  have hdrop : (splitOn '/' path).reverse.dropWhile isStay =
      last :: front.reverse := by
    rw [h, List.reverse_append, List.reverse_cons, List.append_assoc,
      List.dropWhile_append_of_pos fun part hm => hs part (List.mem_reverse.1 hm)]
    exact List.dropWhile_cons_of_neg (by simp [hl])
  rw [withExtension, hdrop]
  simp only [if_neg ha, List.reverse_reverse]
  rfl

/-- The parts of a path with another extension, where those that lead on have
names. -/
theorem splitOn_withExtension {path last extension : String}
    {front stays : List String} (h : lead path = front ++ last :: stays)
    (hs : ∀ part ∈ stays, isStay part = true) (hl : isStay last = false)
    (ha : last ≠ "..") (he : '/' ∉ extension.toList) :
    splitOn '/' (withExtension path extension) =
      front ++ [stem last ++ ending extension] := by
  have hsplit : ∃ others, splitOn '/' path = front ++ last :: others ∧
      ∀ part ∈ others, isStay part = true := by
    rcases splitOn_eq_lead path with hp | hp
    · exact ⟨stays, hp.trans h, hs⟩
    · refine ⟨stays ++ [""], ?_, List.forall_mem_append.2 ⟨hs, ?_⟩⟩
      · rw [hp, h, List.append_assoc, List.cons_append]
      · exact List.forall_mem_singleton.2 (by decide)
  obtain ⟨others, hp, hothers⟩ := hsplit
  rw [withExtension_eq hp hothers hl ha]
  refine splitOn_intercalate (by simp) fun part hm => ?_
  have hslash {part : String} (hm : part ∈ front ++ last :: stays) :
      '/' ∉ part.toList :=
    mark_not_mem_splitOn (mem_splitOn_of_mem_lead (h ▸ hm))
  rcases List.mem_append.1 hm with hm | hm
  · exact hslash (List.mem_append_left _ hm)
  · have hlast := hslash (List.mem_append_right front List.mem_cons_self)
    rw [List.mem_singleton.1 hm, String.toList_append, List.mem_append]
    exact not_or.2 ⟨fun hc => hlast (mem_of_mem_stem hc),
      slash_not_mem_ending he⟩

/-- A path keeps its form or has another last part. -/
theorem withExtension_cases (path extension : String) :
    withExtension path extension = path ∨ ∃ front last stays,
      splitOn '/' path = front ++ last :: stays ∧ isStay last = false ∧
        withExtension path extension = (String.singleton '/').intercalate
          (front ++ [stem last ++ ending extension]) := by
  unfold withExtension
  cases hd : (splitOn '/' path).reverse.dropWhile isStay with
  | nil => exact .inl rfl
  | cons last before =>
    by_cases hup : last = ".."
    · exact .inl (if_pos hup)
    · have hs : (splitOn '/' path).reverse =
          (splitOn '/' path).reverse.takeWhile isStay ++ last :: before := by
        rw [← hd, List.takeWhile_append_dropWhile]
      rw [List.reverse_eq_append_iff, List.reverse_cons,
        List.append_assoc] at hs
      have hl := List.head?_dropWhile_not isStay (splitOn '/' path).reverse
      rw [hd] at hl
      exact .inr ⟨before.reverse, last, _, hs, hl, if_neg hup⟩

theorem isAbsolute_withExtension {path : String} (h : isAbsolute path = true)
    (extension : String) :
    isAbsolute (withExtension path extension) = true := by
  obtain ⟨rest, -, hs⟩ := isAbsolute_iff.1 h
  rcases withExtension_cases path extension with he |
    ⟨front, last, stays, hf, hl, he⟩
  · rwa [he]
  · rw [hs] at hf
    cases front with
    | nil =>
      rw [← (List.cons.inj hf).1] at hl
      exact absurd hl (by decide)
    | cons first front =>
      rw [← (List.cons.inj hf).1] at he
      rw [he, List.cons_append, String.intercalate_cons_of_ne_nil (by simp),
        String.empty_append, isAbsolute_append (by decide)]
      rfl

end ModelText.Path
