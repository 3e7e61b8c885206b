import NativeLib.FindSyscall.Scans
import NativeLib.Memory.Fields

/-! The instructions that make a system call, as the processors encode them, and what the tests
of `search_memory_syscall` let through. -/

namespace NativeLib.FindSyscall

open Memory

/-! Aarch64. -/

/-- `movz x<rd>, #imm16`, without a shift. -/
def movz (rd : BitVec 5) (imm16 : BitVec 16) : BitVec 32 :=
  0b110100101#9 ++ 0b00#2 ++ imm16 ++ rd

/-- `svc #imm16`. -/
def svc (imm16 : BitVec 16) : BitVec 32 := 0b11010100000#11 ++ imm16 ++ 0b00001#5

theorem aarch64Svc0_eq : aarch64Svc0 = svc 0 := by decide

theorem aarch64IsMov_iff (insn : BitVec 32) :
    aarch64IsMov insn = true ↔ ∃ imm16, insn = movz 8 imm16 := by
  obtain ⟨hi, rd, rfl⟩ := exists_append (m := 27) (n := 5) insn
  obtain ⟨op, imm16, rfl⟩ := exists_append (m := 11) (n := 16) hi
  have hmask : 0xFFE0001F#32 = BitVec.allOnes 11 ++ 0#16 ++ BitVec.allOnes 5 := by decide
  have hval : 0xD2800008#32 = (0b110100101#9 ++ 0b00#2) ++ 0#16 ++ 8#5 := by decide
  have htest : aarch64IsMov (op ++ imm16 ++ rd) = true ↔
      op ++ imm16 ++ rd &&& 0xFFE0001F#32 = 0xD2800008#32 := beq_iff_eq
  rw [htest, hmask, hval, BitVec.and_append, BitVec.and_append, append_inj, append_inj]
  simp only [BitVec.and_allOnes, BitVec.and_zero, and_true, movz]
  refine ⟨?_, ?_⟩
  · rintro ⟨rfl, rfl⟩
    exact ⟨imm16, rfl⟩
  · rintro ⟨imm16', h⟩
    obtain ⟨hhi, rfl⟩ := append_inj.mp h
    exact ⟨(append_inj.mp hhi).1, rfl⟩

theorem aarch64Num_movz (imm16 : BitVec 16) : aarch64Num (movz 8 imm16) = imm16.setWidth 32 := by
  have hfield : (movz 8 imm16).extractLsb' 5 16 = imm16 := by
    rw [movz, BitVec.extractLsb'_append_eq_of_le (by omega)]
    exact BitVec.extractLsb'_append_eq_right
  exact (sshiftRight_and_mask (movz 8 imm16) (k := 5) (n := 16) (by omega)).trans
    (congrArg _ hfield)

/-- `movz x8, #imm16; svc #0` at an address. -/
def Syscall64 (mem : BitVec 64 → BitVec 8) (p : BitVec 64) (imm16 : BitVec 16) : Prop :=
  wordAt mem p = movz 8 imm16 ∧ wordAt mem (p + 4) = svc 0

theorem aarch64Site_eq_some {mem : BitVec 64 → BitVec 8} {path : List Char} {p : BitVec 64}
    {x : Found 64} :
    aarch64Site mem path p = some x ↔
      ∃ imm16, Syscall64 mem p imm16 ∧ x = ⟨path, imm16.setWidth 32, p⟩ := by
  rw [aarch64Site, Option.ite_none_right_eq_some, aarch64IsMov_iff, aarch64Svc0_eq, Option.some_inj]
  refine ⟨?_, ?_⟩
  · rintro ⟨⟨hsvc, imm16, hmov⟩, rfl⟩
    exact ⟨imm16, ⟨hmov, hsvc⟩, by rw [hmov, aarch64Num_movz]⟩
  · rintro ⟨imm16, ⟨hmov, hsvc⟩, rfl⟩
    exact ⟨⟨hsvc, imm16, hmov⟩, by rw [hmov, aarch64Num_movz]⟩

/-! Arm. -/

/-- A modified immediate: eight bits, rotated right by twice the other four. -/
def armExpandImm (imm12 : BitVec 12) : BitVec 32 :=
  ((imm12.extractLsb' 0 8).setWidth 32).rotateRight (2 * (imm12.extractLsb' 8 4).toNat)

/-- The value an instruction leaves in `r7`, if it loads an immediate there: `movw`, `mov(s)` and
`mvn(s)`. `movt` replaces the upper half only and leaves what was in the lower. -/
def loadsR7 (insn : BitVec 32) : Option (BitVec 32) :=
  let imm12 := insn.extractLsb' 0 12
  if insn &&& 0xFFF0F000 = 0xE3007000 then some ((insn.extractLsb' 16 4 ++ imm12).setWidth 32)
  else if insn &&& 0xFFEFF000 = 0xE3A07000 then some (armExpandImm imm12)
  else if insn &&& 0xFFEFF000 = 0xE3E07000 then some (~~~ armExpandImm imm12)
  else none

/-- Every load of an immediate into `r7` passes the test. -/
theorem armIsMovR7Imm_of_loads {insn value : BitVec 32} (h : loadsR7 insn = some value) :
    armIsMovR7Imm insn = true := by
  refine beq_iff_eq.mpr ?_
  simp only [loadsR7] at h
  split_ifs at h with hmovw hmov hmvn
  · exact and_of_and hmovw (by decide) (by decide)
  · exact and_of_and hmov (by decide) (by decide)
  · exact and_of_and hmvn (by decide) (by decide)

/-- The number that is read: two fields side by side. -/
theorem armNum_eq (insn : BitVec 32) :
    armNum insn = (insn.extractLsb' 16 4 ++ insn.extractLsb' 0 12).setWidth 32 := by
  obtain ⟨hi, imm12, rfl⟩ := exists_append (m := 20) (n := 12) insn
  obtain ⟨hi, rd, rfl⟩ := exists_append (m := 16) (n := 4) hi
  obtain ⟨op, imm4, rfl⟩ := exists_append (m := 12) (n := 4) hi
  have hand4 : op ++ imm4 ++ rd ++ imm12 &&& 0xF0000#32 = 0#12 ++ imm4 ++ 0#4 ++ 0#12 := by
    rw [show 0xF0000#32 = 0#12 ++ BitVec.allOnes 4 ++ 0#4 ++ 0#12 by decide, BitVec.and_append,
      BitVec.and_append, BitVec.and_append]
    simp only [BitVec.and_zero, BitVec.and_allOnes]
  have hand12 : op ++ imm4 ++ rd ++ imm12 &&& 0x00FFF#32 = 0#12 ++ 0#4 ++ 0#4 ++ imm12 := by
    rw [show 0x00FFF#32 = 0#12 ++ 0#4 ++ 0#4 ++ BitVec.allOnes 12 by decide, BitVec.and_append,
      BitVec.and_append, BitVec.and_append]
    simp only [BitVec.and_zero, BitVec.and_allOnes]
  have hshift : ∀ b : BitVec 4,
      (0#12 ++ b ++ 0#4 ++ 0#12 : BitVec 32).sshiftRight 4 = 0#12 ++ 0#4 ++ b ++ 0#12 := by decide
  have hor : 0#12 ++ 0#4 ++ imm4 ++ 0#12 ||| 0#12 ++ 0#4 ++ 0#4 ++ imm12 =
      0#12 ++ 0#4 ++ imm4 ++ imm12 := by
    rw [BitVec.or_append, BitVec.or_append, BitVec.or_zero, BitVec.zero_or, BitVec.or_self]
  have h4 : (op ++ imm4 ++ rd ++ imm12).extractLsb' 16 4 = imm4 := by
    rw [BitVec.extractLsb'_append_eq_of_le (by omega),
      BitVec.extractLsb'_append_eq_of_le (by omega)]
    exact BitVec.extractLsb'_append_eq_right
  have h12 : (op ++ imm4 ++ rd ++ imm12).extractLsb' 0 12 = imm12 :=
    BitVec.extractLsb'_append_eq_right
  rw [h4, h12]
  calc armNum (op ++ imm4 ++ rd ++ imm12)
      = (op ++ imm4 ++ rd ++ imm12 &&& 0xF0000#32).sshiftRight 4 |||
          op ++ imm4 ++ rd ++ imm12 &&& 0x00FFF#32 := rfl
    _ = 0#12 ++ 0#4 ++ imm4 ++ imm12 := by rw [hand4, hand12, hshift, hor]
    _ = 0#16 ++ (imm4 ++ imm12) := by
        rw [show (0#16 : BitVec 16) = 0#12 ++ 0#4 by decide]
        exact BitVec.append_assoc
    _ = (imm4 ++ imm12).setWidth 32 := (BitVec.setWidth_eq_append (by omega)).symm

/-- Of a `movw` the right number is read. -/
theorem armNum_movw {insn : BitVec 32} (h : insn &&& 0xFFF0F000 = 0xE3007000) :
    loadsR7 insn = some (armNum insn) := by
  rw [loadsR7, if_pos h, armNum_eq]

end NativeLib.FindSyscall
