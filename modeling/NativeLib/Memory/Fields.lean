import Mathlib.Tactic.Common

/-! Words as rows of bit fields, the highest first. -/

namespace NativeLib.Memory

variable {m n : ℕ}

theorem append_inj {a a' : BitVec m} {b b' : BitVec n} : a ++ b = a' ++ b' ↔ a = a' ∧ b = b' := by
  refine ⟨fun h => ⟨?_, ?_⟩, fun h => by rw [h.1, h.2]⟩
  · rw [← BitVec.extractLsb'_append_eq_left (a := a) (b := b), h,
      BitVec.extractLsb'_append_eq_left]
  · rw [← BitVec.extractLsb'_append_eq_right (a := a) (b := b), h,
      BitVec.extractLsb'_append_eq_right]

/-- A word is its two halves. -/
theorem exists_append (x : BitVec (m + n)) : ∃ (a : BitVec m) (b : BitVec n), x = a ++ b :=
  ⟨x.extractLsb' n m, x.extractLsb' 0 n, by
    rw [BitVec.extractLsb'_append_extractLsb'_eq_extractLsb' (by omega)]
    simp⟩

/-- A field taken out by a shift that extends the sign and a mask. -/
theorem sshiftRight_and_mask {w : ℕ} (x : BitVec w) {k n : ℕ} (h : k + n ≤ w) :
    x.sshiftRight k &&& (BitVec.allOnes n).setWidth w = (x.extractLsb' k n).setWidth w := by
  ext i hi
  rw [BitVec.getElem_and, BitVec.getElem_sshiftRight, BitVec.getElem_setWidth,
    BitVec.getElem_setWidth, BitVec.getLsbD_extractLsb', BitVec.getLsbD_allOnes]
  by_cases hin : i < n
  · have hlt : k + i < w := by omega
    simp [hin, hlt]
  · simp [hin]

/-- What a mask shows, a mask with less in it shows as well. -/
theorem and_of_and {w : ℕ} {x mask val mask' val' : BitVec w} (h : x &&& mask = val)
    (hmask : mask &&& mask' = mask') (hval : val &&& mask' = val') : x &&& mask' = val' := by
  rw [← hmask, ← BitVec.and_assoc, h, hval]

end NativeLib.Memory
