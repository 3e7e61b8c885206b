import NativeLib.Arm64.Machine

/-! Which words stand for which instruction, and a branch with another offset. -/

namespace NativeLib.Arm64

variable {word x : BitVec 32}

/-- A word that shows `val` under a mask does not show a different one under another. -/
theorem mask_ne {mask val mask' val' : BitVec 32} (h : x &&& mask = val)
    (hne : val &&& mask' ≠ val' &&& mask) : x &&& mask' ≠ val' := by
  rintro rfl
  apply hne
  rw [← h, BitVec.and_assoc, BitVec.and_assoc, BitVec.and_comm mask]

/-- What a mask shows is still there when the rest has been replaced. -/
theorem and_or_mask (x keep new : BitVec 32) {mask : BitVec 32} (hkeep : keep &&& mask = mask)
    (hnew : new &&& mask = 0#32) : (x &&& keep ||| new) &&& mask = x &&& mask := by
  rw [BitVec.and_or_distrib_right, BitVec.and_assoc, hkeep, hnew, BitVec.or_zero]

theorem decode_b (h : word &&& 0xFC000000 = 0x14000000) :
    decode word = .b false (imm26 word) := by
  rw [decode, if_pos h]

theorem decode_bl (h : word &&& 0xFC000000 = 0x94000000) :
    decode word = .b true (imm26 word) := by
  rw [decode, if_neg (mask_ne h (by decide)), if_pos h]

theorem decode_bCond (h : word &&& 0xFF000010 = 0x54000000) :
    decode word = .bCond (word.extractLsb' 0 4) (imm19 word) := by
  rw [decode]
  repeat rw [if_neg (mask_ne h (by decide))]
  rw [if_pos h]

theorem decode_cb (h : word &&& 0x7E000000 = 0x34000000) :
    decode word = .cb (word.getLsbD 31) (word.getLsbD 24) (rt word) (imm19 word) := by
  rw [decode]
  repeat rw [if_neg (mask_ne h (by decide))]
  rw [if_pos h]

theorem decode_tb (h : word &&& 0x7E000000 = 0x36000000) :
    decode word = .tb (word.getLsbD 24) (word.extractLsb' 31 1 ++ word.extractLsb' 19 5)
      (rt word) (imm14 word) := by
  rw [decode]
  repeat rw [if_neg (mask_ne h (by decide))]
  rw [if_pos h]

theorem decode_adr (h : word &&& 0x9F000000 = 0x10000000) :
    decode word = .adr (rt word) ((imm21 word).signExtend 64) := by
  rw [decode]
  repeat rw [if_neg (mask_ne h (by decide))]
  rw [if_pos h]

theorem decode_adrp (h : word &&& 0x9F000000 = 0x90000000) :
    decode word = .adrp (rt word) ((imm21 word ++ 0#12).signExtend 64) := by
  rw [decode]
  repeat rw [if_neg (mask_ne h (by decide))]
  rw [if_pos h]

/-- The first byte of a load from an address next to the code. -/
def Load.opcode : Load → BitVec 32
  | .w => 0x18000000
  | .x => 0x58000000
  | .sw => 0x98000000
  | .prefetch => 0xD8000000
  | .s => 0x1C000000
  | .d => 0x5C000000
  | .q => 0x9C000000

theorem decode_ldrLit {kind : Load} (h : word &&& 0xFF000000 = kind.opcode) :
    decode word = .ldrLit kind (rt word) (imm19 word) := by
  cases kind <;>
    · simp only [Load.opcode] at h
      rw [decode]
      repeat rw [if_neg (mask_ne h (by decide))]
      rw [if_pos h]

/-- The instruction reads its own address. -/
def Instr.PcRelative : Instr → Prop
  | .b .. | .bCond .. | .cb .. | .tb .. | .adr .. | .adrp .. | .ldrLit .. => True
  | .ldr .. | .stp .. | .br .. | .other .. => False

/-- A conditional branch that skips the next word. -/
theorem decode_bCond_skip (h : word &&& 0xFF000010 = 0x54000000) :
    decode (word &&& 0xFF00001F ||| 0x40) = .bCond (word.extractLsb' 0 4) 8 := by
  have hmask := (and_or_mask word 0xFF00001F 0x40 (by decide) (by decide)).trans h
  have hcond : (word &&& 0xFF00001F ||| 0x40).extractLsb' 0 4 = word.extractLsb' 0 4 := by
    rw [BitVec.extractLsb'_or, BitVec.extractLsb'_and]
    exact (BitVec.or_zero ..).trans (BitVec.and_allOnes ..)
  have himm : (word &&& 0xFF00001F ||| 0x40).extractLsb' 5 19 = 2 := by
    rw [BitVec.extractLsb'_or, BitVec.extractLsb'_and]
    exact (congrArg (· ||| 2) (BitVec.and_zero ..)).trans (BitVec.zero_or ..)
  rw [decode_bCond hmask, hcond, imm19, himm]
  rfl

theorem decode_cb_skip (h : word &&& 0x7E000000 = 0x34000000) :
    decode (word &&& 0xFF00001F ||| 0x40) =
      .cb (word.getLsbD 31) (word.getLsbD 24) (rt word) 8 := by
  have hmask := (and_or_mask word 0xFF00001F 0x40 (by decide) (by decide)).trans h
  have hrt : rt (word &&& 0xFF00001F ||| 0x40) = rt word := by
    rw [rt, BitVec.extractLsb'_or, BitVec.extractLsb'_and]
    exact (BitVec.or_zero ..).trans (BitVec.and_allOnes ..)
  have himm : (word &&& 0xFF00001F ||| 0x40).extractLsb' 5 19 = 2 := by
    rw [BitVec.extractLsb'_or, BitVec.extractLsb'_and]
    exact (congrArg (· ||| 2) (BitVec.and_zero ..)).trans (BitVec.zero_or ..)
  rw [decode_cb hmask, hrt, imm19, himm]
  simp

theorem decode_tb_skip (h : word &&& 0x7E000000 = 0x36000000) :
    decode (word &&& 0xFFF8001F ||| 0x40) =
      .tb (word.getLsbD 24) (word.extractLsb' 31 1 ++ word.extractLsb' 19 5) (rt word) 8 := by
  have hmask := (and_or_mask word 0xFFF8001F 0x40 (by decide) (by decide)).trans h
  have hrt : rt (word &&& 0xFFF8001F ||| 0x40) = rt word := by
    rw [rt, BitVec.extractLsb'_or, BitVec.extractLsb'_and]
    exact (BitVec.or_zero ..).trans (BitVec.and_allOnes ..)
  have himm : (word &&& 0xFFF8001F ||| 0x40).extractLsb' 5 14 = 2 := by
    rw [BitVec.extractLsb'_or, BitVec.extractLsb'_and]
    exact (congrArg (· ||| 2) (BitVec.and_zero ..)).trans (BitVec.zero_or ..)
  have hlow : (word &&& 0xFFF8001F ||| 0x40).extractLsb' 19 5 = word.extractLsb' 19 5 := by
    rw [BitVec.extractLsb'_or, BitVec.extractLsb'_and]
    exact (BitVec.or_zero ..).trans (BitVec.and_allOnes ..)
  have hhigh : (word &&& 0xFFF8001F ||| 0x40).extractLsb' 31 1 = word.extractLsb' 31 1 := by
    rw [BitVec.extractLsb'_or, BitVec.extractLsb'_and]
    exact (BitVec.or_zero ..).trans (BitVec.and_allOnes ..)
  rw [decode_tb hmask, hrt, imm14, himm, hlow, hhigh]
  simp

end NativeLib.Arm64
