import Mathlib.Data.List.Basic
import Mathlib.Tactic.Common

/-! Variable arguments. The caller puts each one in the next register of its class, and on the
stack once there is none left; the callee takes them out one after the other. -/

namespace NativeLib.Calls

/-- The registers that arguments of a type are passed in. -/
inductive RegClass where
  | general
  | vector
  deriving DecidableEq, Repr

/-- What is left of the two register save areas and of the stack. -/
structure VaList (α : Type) where
  general : List α
  vector : List α
  stack : ℕ → α

namespace VaList

variable {α β κ : Type}

/-- The save area of a class. -/
def regs (va : VaList α) : RegClass → List α
  | .general => va.general
  | .vector => va.vector

/-- Take out the next argument of a class. -/
def fetch (va : VaList α) : RegClass → α × VaList α
  | .general =>
    match va.general with
    | x :: general => (x, { va with general })
    | [] => (va.stack 0, { va with stack := fun i => va.stack (i + 1) })
  | .vector =>
    match va.vector with
    | x :: vector => (x, { va with vector })
    | [] => (va.stack 0, { va with stack := fun i => va.stack (i + 1) })

/-- Take out arguments of these classes. -/
def fetchAll (va : VaList α) : List RegClass → List α
  | [] => []
  | c :: cs => (va.fetch c).1 :: fetchAll (va.fetch c).2 cs

theorem length_fetchAll (cs : List RegClass) (va : VaList α) :
    (va.fetchAll cs).length = cs.length := by
  induction cs generalizing va with
  | nil => rfl
  | cons c cs ih => exact congrArg Nat.succ (ih _)

/-- Put `x` before what is left of the save area of `c`. -/
def inRegister (va : VaList α) (c : RegClass) (x : α) : VaList α :=
  match c with
  | .general => { va with general := x :: va.general }
  | .vector => { va with vector := x :: va.vector }

/-- Put `x` before what is left of the stack. -/
def onStack (va : VaList α) (x : α) : VaList α :=
  { va with stack := fun i => i.casesOn x va.stack }

/-- Pass these arguments: what was in the areas before stays in what they do not take up. -/
def pass : List (RegClass × α) → VaList α → VaList α
  | [], va => va
  | (c, x) :: args, va =>
    if va.regs c = [] then (pass args (va.fetch c).2).onStack x
    else (pass args (va.fetch c).2).inRegister c x

theorem regs_fetch (va : VaList α) (c d : RegClass) :
    ((va.fetch c).2.regs d).length = (va.regs d).length - if c = d then 1 else 0 := by
  obtain ⟨general, vector, stack⟩ := va
  cases c <;> cases d <;> cases general <;> cases vector <;> rfl

@[simp] theorem regs_onStack (va : VaList α) (x : α) (d : RegClass) :
    (va.onStack x).regs d = va.regs d := by
  cases d <;> rfl

@[simp] theorem regs_inRegister (va : VaList α) (c d : RegClass) (x : α) :
    (va.inRegister c x).regs d = if c = d then x :: va.regs d else va.regs d := by
  cases c <;> cases d <;> rfl

/-- Passing arguments makes no registers and uses none up. -/
theorem regs_pass (args : List (RegClass × α)) (va : VaList α) (d : RegClass) :
    ((pass args va).regs d).length = (va.regs d).length := by
  induction args generalizing va with
  | nil => rfl
  | cons arg args ih =>
    obtain ⟨c, x⟩ := arg
    have hrest := ih (va.fetch c).2
    rw [regs_fetch] at hrest
    rw [pass]
    by_cases hnone : va.regs c = []
    · rw [if_pos hnone, regs_onStack, hrest]
      split
      · next heq => rw [← heq, hnone]; rfl
      · rfl
    · rw [if_neg hnone, regs_inRegister]
      have hpos := List.length_pos_iff.mpr hnone
      split
      · next heq =>
        rw [← heq] at hrest ⊢
        rw [if_pos rfl] at hrest
        rw [List.length_cons]
        omega
      · next heq => simpa [heq] using hrest

theorem regs_pass_nil {args : List (RegClass × α)} {va : VaList α} {d : RegClass} :
    (pass args va).regs d = [] ↔ va.regs d = [] := by
  rw [← List.length_eq_zero_iff, ← List.length_eq_zero_iff, regs_pass]

theorem fetch_inRegister (va : VaList α) (c : RegClass) (x : α) :
    (va.inRegister c x).fetch c = (x, va) := by
  cases c <;> rfl

theorem fetch_onStack {va : VaList α} {c : RegClass} (h : va.regs c = []) (x : α) :
    (va.onStack x).fetch c = (x, va) := by
  obtain ⟨general, vector, stack⟩ := va
  cases c
  · obtain rfl : general = [] := h
    rfl
  · obtain rfl : vector = [] := h
    rfl

theorem regs_fetch_nil {va : VaList α} {c d : RegClass} (h : va.regs d = []) :
    (va.fetch c).2.regs d = [] := by
  have hlen := regs_fetch va c d
  rw [h] at hlen
  exact List.length_eq_zero_iff.mp (hlen.trans (Nat.zero_sub _))

/-- An argument is taken out of where it was passed. -/
theorem fetch_pass (c : RegClass) (x : α) (args : List (RegClass × α)) (va : VaList α) :
    (pass ((c, x) :: args) va).fetch c = (x, pass args (va.fetch c).2) := by
  rw [pass]
  split
  · next hnone => exact fetch_onStack (regs_pass_nil.mpr (regs_fetch_nil hnone)) x
  · exact fetch_inRegister _ c x

/-- On the stack the class makes no difference. -/
theorem fetch_pass_stack {c d : RegClass} {va : VaList α} (hc : va.regs c = [])
    (hd : va.regs d = []) (x : α) (args : List (RegClass × α)) :
    (pass ((c, x) :: args) va).fetch d = (x, pass args (va.fetch c).2) := by
  rw [pass, if_pos hc]
  exact fetch_onStack (regs_pass_nil.mpr (regs_fetch_nil hd)) x

/-- As long as there are registers, what is taken out of those of one class does not depend on
what was passed in those of the other. -/
theorem fetch_pass_other {c d : RegClass} (hne : c ≠ d) {va : VaList α}
    (h : ¬ (va.regs c = [] ∧ va.regs d = [])) (x y : α) (args : List (RegClass × α)) :
    ((pass ((c, x) :: args) va).fetch d).1 = ((pass ((c, y) :: args) va).fetch d).1 := by
  rw [pass, pass]
  split
  · next hc =>
    have hd : va.regs d ≠ [] := fun hd => h ⟨hc, hd⟩
    have hlen := regs_fetch va c d
    rw [if_neg hne, Nat.sub_zero] at hlen
    have hrest : (pass args (va.fetch c).2).regs d ≠ [] := by
      rw [← List.length_pos_iff, regs_pass, hlen]
      exact List.length_pos_iff.mpr hd
    revert hrest
    generalize pass args (va.fetch c).2 = va'
    obtain ⟨general, vector, stack⟩ := va'
    intro hrest
    cases d
    · cases general with
      | nil => exact absurd rfl hrest
      | cons => rfl
    · cases vector with
      | nil => exact absurd rfl hrest
      | cons => rfl
  · generalize pass args (va.fetch c).2 = va'
    obtain ⟨general, vector, stack⟩ := va'
    cases c
    · cases d
      · exact absurd rfl hne
      · cases vector <;> rfl
    · cases d
      · cases general <;> rfl
      · exact absurd rfl hne

section Decoding

variable {regClass : κ → RegClass} {value : κ → α → β}

/-- A callee that takes all arguments for general ones finds, for parameters `ts`, what was
passed. -/
def Decoded (regClass : κ → RegClass) (value : κ → α → β) (ts : List κ) (va : VaList α) : Prop :=
  ∀ xs : List α, xs.length = ts.length →
    List.zipWith value ts ((pass ((ts.map regClass).zip xs) va).fetchAll
      (List.replicate ts.length .general)) = List.zipWith value ts xs

variable {t : κ} {ts : List κ} {va : VaList α}

/-- A general argument is found, and one on the stack when that is where one looks. -/
theorem fetch_pass_found (h : regClass t = .general ∨ va.vector = [] ∧ va.general = []) (x : α)
    (args : List (RegClass × α)) :
    (pass ((regClass t, x) :: args) va).fetch .general =
      (x, pass args (va.fetch (regClass t)).2) := by
  rcases h with hclass | ⟨hv, hg⟩
  · rw [hclass]
    exact fetch_pass _ _ _ _
  · have hnone : va.regs (regClass t) = [] := by
      cases regClass t
      · exact hg
      · exact hv
    exact fetch_pass_stack hnone (show va.regs .general = [] from hg) x args

/-- Where the first argument is found, the rest is as if it had not been there. -/
theorem decoded_cons (h : regClass t = .general ∨ va.vector = [] ∧ va.general = []) :
    Decoded regClass value (t :: ts) va ↔ Decoded regClass value ts (va.fetch (regClass t)).2 := by
  have hstep : ∀ x xs, List.zipWith value (t :: ts)
      ((pass (((t :: ts).map regClass).zip (x :: xs)) va).fetchAll
        (List.replicate (t :: ts).length .general)) =
      value t x :: List.zipWith value ts ((pass ((ts.map regClass).zip xs)
        (va.fetch (regClass t)).2).fetchAll (List.replicate ts.length .general)) := by
    intro x xs
    rw [List.map_cons, List.zip_cons_cons, List.length_cons, List.replicate_succ, fetchAll,
      fetch_pass_found h]
    rfl
  refine ⟨?_, ?_⟩
  · intro hdecoded xs hxs
    have hall := hdecoded (va.stack 0 :: xs) (congrArg Nat.succ hxs)
    rw [hstep] at hall
    exact (List.cons.inj hall).2
  · intro hdecoded xs hxs
    cases xs with
    | nil => simp at hxs
    | cons x xs =>
      rw [hstep, hdecoded xs (Nat.succ.inj hxs)]
      rfl

/-- Where it was passed in a register of the other class, it is not found. -/
theorem not_decoded_cons (hvalue : ∀ x, ∃ y, value t y ≠ value t x) (hne : regClass t ≠ .general)
    (h : ¬ (va.regs (regClass t) = [] ∧ va.regs .general = [])) :
    ¬ Decoded regClass value (t :: ts) va := by
  intro hdecoded
  let args := (ts.map regClass).zip (List.replicate ts.length (va.stack 0))
  have hfirst : ∀ x, value t ((pass ((regClass t, x) :: args) va).fetch .general).1 =
      value t x := by
    intro x
    have hall := hdecoded (x :: List.replicate ts.length (va.stack 0)) (by simp)
    exact (List.cons.inj hall).1
  obtain ⟨y, hy⟩ := hvalue (va.stack 0)
  apply hy
  rw [← hfirst y, ← hfirst (va.stack 0), fetch_pass_other hne h y (va.stack 0)]

/-- It finds them exactly if every argument of the other class comes when no registers of either
class are left. -/
theorem decoded_iff (hvalue : ∀ t, regClass t = .vector → ∀ x, ∃ y, value t y ≠ value t x)
    (ts : List κ) (va : VaList α) :
    Decoded regClass value ts va ↔ ∀ i t, ts[i]? = some t → regClass t = .vector →
      va.vector = [] ∧ va.general.length ≤ i := by
  induction ts generalizing va with
  | nil => simp [Decoded]
  | cons t ts ih =>
    have hvector := regs_fetch va (regClass t) .vector
    have hgeneral := regs_fetch va (regClass t) .general
    simp only [regs] at hvector hgeneral
    rw [← Nat.and_forall_add_one]
    simp only [List.getElem?_cons_zero, List.getElem?_cons_succ, Option.some.injEq]
    by_cases hclass : regClass t = .general
    · rw [decoded_cons (.inl hclass), ih]
      simp only [hclass, if_true, reduceCtorEq, if_false, Nat.sub_zero] at hvector hgeneral ⊢
      simp only [← List.length_eq_zero_iff, hvector, hgeneral, Nat.sub_le_iff_le_add]
      simp [hclass]
    · have hother : regClass t = .vector := by
        cases h : regClass t
        · exact absurd h hclass
        · rfl
      by_cases hstack : va.vector = [] ∧ va.general = []
      · rw [decoded_cons (.inr hstack), ih]
        obtain ⟨hv, hg⟩ := hstack
        rw [hv, List.length_nil, Nat.zero_sub, List.length_eq_zero_iff] at hvector
        rw [hg, List.length_nil, Nat.zero_sub] at hgeneral
        simp [hvector, hgeneral, hv, hg]
      · have hnot : ¬ (va.regs (regClass t) = [] ∧ va.regs .general = []) := by
          rw [hother]
          exact hstack
        refine iff_of_false (not_decoded_cons (hvalue t hother) hclass hnot) ?_
        rintro ⟨hfirst, -⟩
        obtain ⟨hv, hg⟩ := hfirst t rfl hother
        exact hstack ⟨hv, List.length_eq_zero_iff.mp (Nat.le_zero.mp hg)⟩

end Decoding

end VaList

end NativeLib.Calls
