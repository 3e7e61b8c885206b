import NativeLib.ShadowHook.Blocks

/-! The jumps that are written over the head of a function. -/

namespace NativeLib.ShadowHook

open Arm64 Interaction

variable {other : BitVec 32 → Cpu → Cpu} {s : Cpu} {addr pc : BitVec 64}

/-- A branch of 26 bits gets from `pc` to the address. -/
def InReach (pc addr : BitVec 64) : Prop :=
  -134217728 ≤ (addr - pc).toInt ∧ (addr - pc).toInt ≤ 134217724 ∧ (addr - pc).toNat % 4 = 0

/-- A number of 28 bits in 64. -/
theorem signExtend_setWidth_of_toInt {d : BitVec 64} (hlow : -134217728 ≤ d.toInt)
    (hhigh : d.toInt ≤ 134217724) : (d.setWidth 28).signExtend 64 = d := by
  apply BitVec.eq_of_toInt_eq
  have hbmod : (Int.bmod d.toInt (2 ^ 28)) = d.toInt :=
    Int.bmod_eq_of_le (by omega) (by omega)
  have hdvd : Int.bmod d.toInt (2 ^ 28) = Int.bmod d.toNat (2 ^ 28) := by
    rw [BitVec.toInt_eq_toNat_bmod, Int.bmod_bmod_of_dvd (Nat.pow_dvd_pow 2 (by omega))]
  rw [BitVec.toInt_signExtend_of_le (by omega), BitVec.toInt_setWidth, ← hdvd, hbmod]

/-- The field of the jump is its offset in words. -/
theorem relativeField (d : BitVec 64) :
    ((d &&& 0x0FFFFFFF) >>> 2).setWidth 32 = (d.extractLsb' 2 26).setWidth 32 := by
  have hmask : (0x0FFFFFFF : BitVec 64) = (BitVec.allOnes 28).setWidth 64 := by decide
  rw [hmask]
  apply BitVec.eq_of_getLsbD_eq
  intro i hi
  simp only [BitVec.getLsbD_setWidth, BitVec.getLsbD_ushiftRight, BitVec.getLsbD_and,
    BitVec.getLsbD_allOnes, BitVec.getLsbD_extractLsb']
  by_cases hin : i < 26
  · simp [hin, hi, show 2 + i < 28 by omega, show 2 + i < 64 by omega]
  · simp [hin, show ¬ 2 + i < 28 by omega]

/-- The relative jump leads to whatever is in its reach. -/
theorem decode_relativeJump (h : InReach pc addr) :
    ∃ word, (a64RelativeJump addr pc).1 = [word] ∧ decode word = .b false (addr - pc) := by
  obtain ⟨d, hd⟩ : ∃ d, d = addr - pc := ⟨_, rfl⟩
  obtain ⟨hlow, hhigh, halign⟩ := h
  rw [← hd] at hlow hhigh halign ⊢
  have hword : 0x14000000#32 ||| ((d &&& 0x0FFFFFFF) >>> 2).setWidth 32 =
      0b000101#6 ++ d.extractLsb' 2 26 := by
    rw [relativeField, BitVec.setWidth_eq_append (by omega : 26 ≤ 32),
      show 0x14000000#32 = 0b000101#6 ++ 0#26 by decide]
    exact (BitVec.or_append ..).trans (congrArg₂ _ (BitVec.or_zero ..) (BitVec.zero_or ..))
  have hmask : (0b000101#6 ++ d.extractLsb' 2 26) &&& 0xFC000000#32 = 0x14000000 := by
    rw [show 0xFC000000#32 = BitVec.allOnes 6 ++ 0#26 by decide, BitVec.and_append,
      BitVec.and_allOnes, BitVec.and_zero]
    decide
  have hfield : d.extractLsb' 2 26 ++ 0#2 = d.setWidth 28 := by
    have hlow2 : d.extractLsb' 0 2 = 0#2 := by
      apply BitVec.eq_of_toNat_eq
      rw [BitVec.extractLsb'_toNat]
      exact halign
    rw [← hlow2, BitVec.extractLsb'_append_extractLsb'_eq_extractLsb' (by omega)]
    exact (BitVec.setWidth_eq_extractLsb' (by omega)).symm
  refine ⟨_, rfl, ?_⟩
  rw [← hd, hword, decode_b hmask, imm26, BitVec.extractLsb'_append_eq_right, hfield,
    signExtend_setWidth_of_toInt hlow hhigh]

end NativeLib.ShadowHook
