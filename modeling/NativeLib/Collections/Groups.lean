import Mathlib.Data.Nat.Find
import Mathlib.Data.Nat.Notation

/-! A range of indices in which those with equal keys stand together. -/

namespace NativeLib.Collections

variable {β : Type} {key : ℕ → β} {lo hi i j k : ℕ}

/-- Indices with equal keys have no other one between them. -/
def Grouped (key : ℕ → β) (lo hi : ℕ) : Prop :=
  ∀ i j k, lo ≤ i → i ≤ j → j ≤ k → k < hi → key i = key k → key j = key k

/-- The group does not go on behind `i`. -/
def LastOfGroup (key : ℕ → β) (hi i : ℕ) : Prop := i + 1 < hi → key (i + 1) ≠ key i

instance [DecidableEq β] : Decidable (LastOfGroup key hi i) := inferInstanceAs (Decidable (_ → _))

/-- The group does not begin before `i`. -/
structure FirstOfGroup (key : ℕ → β) (lo hi i : ℕ) : Prop where
  ge : lo ≤ i
  lt : i < hi
  first : ∀ j, lo ≤ j → j < hi → key j = key i → i ≤ j

/-- Behind the last one of a group there is no other one of it. -/
theorem Grouped.le_of_last (h : Grouped key lo hi) (hlast : LastOfGroup key hi i) (hlo : lo ≤ i)
    (hk : k < hi) (hkey : key k = key i) : k ≤ i := by
  by_contra hlt
  have hnext := h i (i + 1) k hlo (Nat.le_succ i) (by omega) hk hkey.symm
  exact hlast (by omega) (hnext.trans hkey)

/-- A key that occurs has a first index. -/
theorem exists_first (hlo : lo ≤ i) (hhi : i < hi) :
    ∃ f, FirstOfGroup key lo hi f ∧ key f = key i ∧ f ≤ i := by
  classical
  have hex : ∃ f, lo ≤ f ∧ f < hi ∧ key f = key i := ⟨i, hlo, hhi, rfl⟩
  obtain ⟨hflo, hfhi, hkey⟩ := Nat.find_spec hex
  refine ⟨Nat.find hex, ⟨hflo, hfhi, ?_⟩, hkey, Nat.find_min' hex ⟨hlo, hhi, rfl⟩⟩
  intro j hj hjhi hjkey
  exact Nat.find_min' hex ⟨hj, hjhi, hjkey.trans hkey⟩

end NativeLib.Collections
