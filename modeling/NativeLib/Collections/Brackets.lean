import Mathlib.Data.List.Basic

/-! Sequences of opening and closing brackets, each with a label. -/

namespace NativeLib.Collections

variable {α : Type} [DecidableEq α]

inductive Bracket (α : Type) where
  | opening (a : α)
  | closing (a : α)
  deriving DecidableEq, Repr

/-- Read brackets with `st` still open, the most recent one first. A closing bracket has to
close the most recent one, of the same label; what is left open is the result. -/
def unmatched : List α → List (Bracket α) → Option (List α)
  | st, [] => some st
  | st, .opening a :: l => unmatched (a :: st) l
  | a :: st, .closing b :: l => if a = b then unmatched st l else none
  | [], .closing _ :: _ => none

/-- Every closing bracket closes the most recent open one, and none is left open. -/
def ProperlyNested (l : List (Bracket α)) : Prop := unmatched [] l = some []

@[simp] theorem unmatched_nil (st : List α) : unmatched st [] = some st := by
  cases st <;> rfl

@[simp] theorem unmatched_opening (st : List α) (a : α) (l : List (Bracket α)) :
    unmatched st (.opening a :: l) = unmatched (a :: st) l := by
  cases st <;> rfl

@[simp] theorem unmatched_closing (st : List α) (a : α) (l : List (Bracket α)) :
    unmatched (a :: st) (.closing a :: l) = unmatched st l := if_pos rfl

theorem unmatched_append (st : List α) (l l' : List (Bracket α)) :
    unmatched st (l ++ l') = (unmatched st l).bind fun st' => unmatched st' l' := by
  induction st, l using unmatched.induct with
  | case1 st => simp
  | case2 st a l ih => simp [ih]
  | case3 st b l ih => simp [ih]
  | case4 a st b l hne => simp [unmatched, hne]
  | case5 b l => rfl

/-- What is open from before stays open below. -/
theorem unmatched_frame {st out : List α} {l : List (Bracket α)} (below : List α)
    (h : unmatched st l = some out) : unmatched (st ++ below) l = some (out ++ below) := by
  induction st, l using unmatched.induct with
  | case1 st =>
    obtain rfl := Option.some_inj.mp ((unmatched_nil st).symm.trans h)
    simp
  | case2 st a l ih =>
    rw [unmatched_opening] at h ⊢
    exact ih h
  | case3 st b l ih =>
    rw [List.cons_append, unmatched_closing]
    rw [unmatched_closing] at h
    exact ih h
  | case4 a st b l hne => simp [unmatched, hne] at h
  | case5 b l => simp [unmatched] at h

theorem ProperlyNested.keeps {l : List (Bracket α)} (h : ProperlyNested l) (st : List α) :
    unmatched st l = some st := unmatched_frame st h

theorem properlyNested_nil : ProperlyNested ([] : List (Bracket α)) := unmatched_nil []

/-- A bracket opened several times and closed as often. -/
theorem properlyNested_replicate (a : α) (n : ℕ) :
    ProperlyNested (List.replicate n (.opening a) ++ List.replicate n (.closing a)) := by
  have hopen : ∀ (n : ℕ) (st : List α),
      unmatched st (List.replicate n (.opening a)) = some (List.replicate n a ++ st) := by
    intro n
    induction n with
    | zero => simp
    | succ n ih =>
      intro st
      rw [List.replicate_succ, unmatched_opening, ih, List.replicate_succ']
      simp
  have hclose : ∀ n : ℕ,
      unmatched (List.replicate n a) (List.replicate n (.closing a)) = some [] := by
    intro n
    induction n with
    | zero => simp
    | succ n ih => rw [List.replicate_succ, List.replicate_succ, unmatched_closing, ih]
  rw [ProperlyNested, unmatched_append, hopen, Option.bind_some, List.append_nil, hclose]

end NativeLib.Collections
