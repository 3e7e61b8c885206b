import Mathlib.Tactic.Common

/-! Facts about each element of a list together with what stands before it: "every use comes
after a definition", "nothing comes after the end". -/

namespace NativeLib.Collections

variable {α : Type}

/-- `R` holds of every element and the elements before it. -/
def AtEach (R : List α → α → Prop) (l : List α) : Prop :=
  ∀ pre x post, l = pre ++ x :: post → R pre x

@[simp] theorem atEach_nil (R : List α → α → Prop) : AtEach R [] := by
  intro pre x post h
  simp at h

theorem atEach_cons {R : List α → α → Prop} {x : α} {l : List α} :
    AtEach R (x :: l) ↔ R [] x ∧ AtEach (fun pre => R (x :: pre)) l := by
  refine ⟨?_, ?_⟩
  · intro h
    refine ⟨h [] x l rfl, ?_⟩
    intro pre y post hl
    exact h (x :: pre) y post (by rw [hl, List.cons_append])
  · intro h pre y post hl
    cases pre with
    | nil =>
      obtain ⟨rfl, rfl⟩ := List.cons.inj hl
      exact h.1
    | cons z pre =>
      obtain ⟨rfl, rfl⟩ := List.cons.inj hl
      exact h.2 pre y post rfl

theorem atEach_append {R : List α → α → Prop} {l l' : List α} :
    AtEach R (l ++ l') ↔ AtEach R l ∧ AtEach (fun pre => R (l ++ pre)) l' := by
  induction l generalizing R with
  | nil => simp
  | cons x l ih => simp only [List.cons_append, atEach_cons, ih, and_assoc]

theorem atEach_singleton {R : List α → α → Prop} {x : α} : AtEach R [x] ↔ R [] x := by
  simp [atEach_cons]

theorem atEach_snoc {R : List α → α → Prop} {l : List α} {x : α} :
    AtEach R (l ++ [x]) ↔ AtEach R l ∧ R l x := by
  rw [atEach_append, atEach_singleton, List.append_nil]

instance atEachDecidable : {R : List α → α → Prop} → [∀ pre x, Decidable (R pre x)] →
    (l : List α) → Decidable (AtEach R l)
  | R, _, [] => isTrue (atEach_nil R)
  | R, _, x :: l =>
    have := atEachDecidable (R := fun pre => R (x :: pre)) l
    decidable_of_iff _ atEach_cons.symm

end NativeLib.Collections
