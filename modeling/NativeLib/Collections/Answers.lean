import Mathlib.Data.List.Induction
import NativeLib.Collections.Positions

/-! Elements brought one after another to someone who says each time whether to go on. The
answer may depend on everything brought so far: `go` is asked with the whole list. -/

namespace NativeLib.Collections

variable {α : Type} (go : List α → Bool)

/-- What is brought, after `before`, of a list: up to and including the first refusal. -/
def brought : List α → List α → List α
  | _, [] => []
  | before, x :: l => x :: if go (before ++ [x]) then brought (before ++ [x]) l else []

@[simp] theorem brought_eq_nil_iff {before l : List α} : brought go before l = [] ↔ l = [] := by
  cases l <;> simp [brought]

/-- Nothing of the list is refused after `before`. -/
def GoesOn : List α → List α → Bool
  | _, [] => true
  | before, x :: l => go (before ++ [x]) && GoesOn (before ++ [x]) l

variable {go} {before l l' : List α}

@[simp] theorem goesOn_nil : GoesOn go before [] = true := rfl

theorem goesOn_append :
    GoesOn go before (l ++ l') = (GoesOn go before l && GoesOn go (before ++ l) l') := by
  induction l generalizing before with
  | nil => simp
  | cons x l ih => simp [GoesOn, ih, Bool.and_assoc]

theorem goesOn_snoc {x : α} :
    GoesOn go before (l ++ [x]) = (GoesOn go before l && go (before ++ l ++ [x])) := by
  simp [goesOn_append, GoesOn]

theorem brought_of_goesOn (h : GoesOn go before l = true) : brought go before l = l := by
  induction l generalizing before with
  | nil => rfl
  | cons x l ih =>
    obtain ⟨hx, hl⟩ := Bool.and_eq_true_iff.mp h
    rw [brought, if_pos hx, ih hl]

/-- Behind a refusal nothing matters. -/
theorem brought_append : brought go before (l ++ l') =
    if GoesOn go before l then l ++ brought go (before ++ l) l' else brought go before l := by
  induction l generalizing before with
  | nil => simp
  | cons x l ih =>
    rw [List.cons_append, brought, GoesOn, brought, ih]
    cases go (before ++ [x]) with
    | false => simp
    | true =>
      simp only [if_true, Bool.true_and, List.append_assoc, List.cons_append]
      split_ifs <;> rfl

/-- A list with a refusal has a first one. -/
theorem exists_first_refusal (h : GoesOn go before l = false) :
    ∃ pre x post, l = pre ++ x :: post ∧ GoesOn go before pre = true ∧
      go (before ++ pre ++ [x]) = false := by
  induction l generalizing before with
  | nil => simp at h
  | cons x l ih =>
    cases hx : go (before ++ [x]) with
    | false => exact ⟨[], x, l, rfl, rfl, by simpa using hx⟩
    | true =>
      rw [GoesOn, hx, Bool.true_and] at h
      obtain ⟨pre, y, post, rfl, hpre, hy⟩ := ih h
      exact ⟨x :: pre, y, post, rfl, by simp [GoesOn, hx, hpre], by simpa using hy⟩

theorem brought_refusal {pre post : List α} {x : α} (hpre : GoesOn go before pre = true)
    (hx : go (before ++ pre ++ [x]) = false) :
    brought go before (pre ++ x :: post) = pre ++ [x] := by
  rw [brought_append, if_pos hpre, brought, hx, if_neg Bool.false_ne_true]

/-- One element more makes a difference unless there was a refusal before. -/
theorem brought_snoc_eq_iff {x : α} :
    brought go before l = brought go before (l ++ [x]) ↔ GoesOn go before l = false := by
  rw [brought_append]
  cases h : GoesOn go before l with
  | false => simp
  | true => simp [brought_of_goesOn h, brought]

/-- Nothing is brought after a refusal. -/
def NothingAfterRefusal (go : List α → Bool) (l : List α) : Prop :=
  AtEach (fun before _ => before = [] ∨ go before = true) l

theorem nothingAfterRefusal_iff : NothingAfterRefusal go l ↔
    ∀ pre x post, l = pre ++ x :: post → GoesOn go [] pre = true → go (pre ++ [x]) = false →
      post = [] := by
  refine ⟨?_, ?_⟩
  · rintro h pre x post rfl - hx
    cases post with
    | nil => rfl
    | cons y post =>
      have hy := h (pre ++ [x]) y post (by simp)
      simp [hx] at hy
  · intro h before y post hl
    cases hgo : GoesOn go [] before with
    | true =>
      cases before using List.reverseRecOn with
      | nil => exact .inl rfl
      | append_singleton before x =>
        rw [goesOn_snoc, Bool.and_eq_true_iff] at hgo
        exact .inr hgo.2
    | false =>
      obtain ⟨pre, x, mid, rfl, hpre, hx⟩ := exists_first_refusal hgo
      have hnone := h pre x (mid ++ y :: post) (by simp [hl]) hpre hx
      simp at hnone

/-- Who refuses every element of a kind lets none of it pass. -/
theorem filter_eq_nil_of_goesOn {kind : α → Bool}
    (hkind : ∀ before x, kind x = true → go (before ++ [x]) = false)
    (h : GoesOn go before l = true) : l.filter kind = [] := by
  refine List.filter_eq_nil_iff.mpr fun x hx hk => ?_
  obtain ⟨pre, post, rfl⟩ := List.append_of_mem hx
  rw [goesOn_append, GoesOn, hkind (before ++ pre) x hk] at h
  simp at h

/-- Who refuses with every element of a kind gets at most one of that kind. -/
theorem NothingAfterRefusal.length_filter_le (h : NothingAfterRefusal go l) {kind : α → Bool}
    (hkind : ∀ before x, kind x = true → go (before ++ [x]) = false) :
    (l.filter kind).length ≤ 1 := by
  cases hgo : GoesOn go [] l with
  | true => simp [filter_eq_nil_of_goesOn hkind hgo]
  | false =>
    obtain ⟨pre, x, post, rfl, hpre, hx⟩ := exists_first_refusal hgo
    obtain rfl := nothingAfterRefusal_iff.mp h pre x post rfl hpre hx
    rw [List.filter_append, filter_eq_nil_of_goesOn hkind hpre, List.nil_append]
    exact List.length_filter_le _ _

end NativeLib.Collections
