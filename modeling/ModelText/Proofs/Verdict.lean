import Mathlib.Data.List.Basic

/-!
# What comes of checks

A check ends with a result or with an error, and often both are to be told: what
holds of the result, and what the error means. `Verdict P E` says that a result
has `P` and an error has `E`. The lemmas follow the ways in which checks are put
together, so that a chain of checks is gone through once for both endings.
-/

namespace ModelText

section

variable {α β ε : Type}

/-- A result has `P`, and an error has `E`. -/
def Verdict (P : α → Prop) (E : ε → Prop) : Except ε α → Prop
  | .ok a => P a
  | .error e => E e

namespace Verdict

variable {P P' : α → Prop} {Q : β → Prop} {E : ε → Prop} {x : Except ε α}

theorem of_ok (h : Verdict P E x) {a : α} (hx : x = .ok a) : P a := by
  rw [hx] at h
  exact h

theorem of_error (h : Verdict P E x) {e : ε} (hx : x = .error e) : E e := by
  rw [hx] at h
  exact h

/-- Nothing is said but what came out. -/
theorem of_eq (x : Except ε α) : Verdict (fun a => x = .ok a) (fun _ => True) x := by
  cases x with
  | ok a => exact rfl
  | error e => trivial

theorem mono (h : Verdict P E x) (hp : ∀ a, P a → P' a) : Verdict P' E x := by
  cases x with
  | ok a => exact hp a h
  | error e => exact h

theorem bind (h : Verdict P E x) {f : α → Except ε β}
    (hf : ∀ a, P a → Verdict Q E (f a)) : Verdict Q E (x >>= f) := by
  cases x with
  | ok a => exact hf a h
  | error e => exact h

theorem map (h : Verdict P E x) {f : α → β} (hf : ∀ a, P a → Q (f a)) :
    Verdict Q E (x.map f) := by
  cases x with
  | ok a => exact hf a h
  | error e => exact h

/-- The rounds of a loop, `P` telling what holds behind the items that were gone
through. -/
theorem foldlM {P : List α → β → Prop} {f : β → α → Except ε β} {list : List α}
    (hf : ∀ done a rest, list = done ++ a :: rest → ∀ b, P done b →
      Verdict (P (done ++ [a])) E (f b a))
    {b : β} (hb : P [] b) : Verdict (P list) E (list.foldlM f b) := by
  have go : ∀ rest done b, list = done ++ rest → P done b →
      Verdict (P list) E (rest.foldlM f b) := by
    intro rest
    induction rest with
    | nil =>
      intro done b hl hb
      rw [List.append_nil] at hl
      exact hl ▸ hb
    | cons a rest ih =>
      intro done b hl hb
      rw [List.foldlM_cons]
      apply bind (hf done a rest hl b hb)
      intro b' hb'
      exact ih (done ++ [a]) b' (by rw [hl, List.append_assoc]; rfl) hb'
  exact go list [] b rfl hb

/-- All items are checked, or one of them has the error. -/
theorem mapM {P : α → Prop} {f : α → Except ε β} {list : List α}
    (hf : ∀ a ∈ list, Verdict (fun _ => P a) E (f a)) :
    Verdict (fun _ => ∀ a ∈ list, P a) E (list.mapM f) := by
  induction list with
  | nil => exact fun a ha => absurd ha List.not_mem_nil
  | cons a rest ih =>
    rw [List.mapM_cons]
    apply bind (hf a List.mem_cons_self)
    intro _ ha
    apply bind (ih fun a' h => hf a' (List.mem_cons_of_mem a h))
    intro _ hr a' h
    rcases List.mem_cons.1 h with rfl | h
    · exact ha
    · exact hr a' h

end Verdict

end

end ModelText
