import Mathlib.Data.Set.Insert
import NativeLib.Arm64.Fragments

/-! Cores that agree on some registers and, off some addresses, on the memory. Where they stand
in the code is left open. -/

namespace NativeLib.Arm64

/-- The two agree on the registers of `regs`, on the vectors and the flags, and on the bytes that
are not in `dirty`. -/
structure Agree (regs : Set (BitVec 5)) (dirty : Set (BitVec 64)) (s s' : Cpu) : Prop where
  x : ∀ r ∈ regs, s'.x r = s.x r
  v : s'.v = s.v
  nzcv : s'.nzcv = s.nzcv
  mem : ∀ a ∉ dirty, s'.mem a = s.mem a

namespace Agree

variable {regs regs' : Set (BitVec 5)} {dirty : Set (BitVec 64)} {s s' : Cpu} {r : BitVec 5}

theorem refl (regs : Set (BitVec 5)) (dirty : Set (BitVec 64)) (s : Cpu) : Agree regs dirty s s :=
  ⟨fun _ _ => rfl, rfl, rfl, fun _ _ => rfl⟩

theorem mono (h : Agree regs dirty s s') (hregs : ∀ r ∈ regs', r ∈ regs) :
    Agree regs' dirty s s' :=
  ⟨fun r hr => h.x r (hregs r hr), h.v, h.nzcv, h.mem⟩

theorem jump (h : Agree regs dirty s s') (a b : BitVec 64) :
    Agree regs dirty (s.jump a) (s'.jump b) := ⟨h.x, h.v, h.nzcv, h.mem⟩

/-- The register as an operand. -/
theorem reg (h : Agree regs dirty s s') (hr : r ∈ regs ∨ r = 31) : s'.reg r = s.reg r := by
  unfold Cpu.reg
  split_ifs with h31
  · rfl
  · exact h.x r (hr.resolve_right h31)

theorem setReg (h : Agree regs dirty s s') (r : BitVec 5) (val : BitVec 64) :
    Agree regs dirty (s.setReg r val) (s'.setReg r val) := by
  unfold Cpu.setReg
  split_ifs
  · exact h
  · refine ⟨fun r' hr' => ?_, h.v, h.nzcv, h.mem⟩
    simp only [Function.update_apply]
    split_ifs
    · rfl
    · exact h.x r' hr'

theorem setVec (h : Agree regs dirty s s') (r : BitVec 5) (val : BitVec 128) :
    Agree regs dirty (s.setVec r val) (s'.setVec r val) :=
  ⟨h.x, by simp only [Cpu.setVec, h.v], h.nzcv, h.mem⟩

/-- A register that nobody looks at. -/
theorem setReg_right (h : Agree regs dirty s s') (hr : r ∉ regs) (val : BitVec 64) :
    Agree regs dirty s (s'.setReg r val) := by
  refine ⟨fun r' hr' => ?_, ?_, ?_, ?_⟩
  · rw [Cpu.x_setReg_of_ne s' r val (fun he => hr (he ▸ hr')), h.x r' hr']
  · rw [Cpu.v_setReg, h.v]
  · rw [Cpu.nzcv_setReg, h.nzcv]
  · rw [Cpu.mem_setReg]
    exact h.mem

theorem setReg_left (h : Agree regs dirty s s') (hr : r ∉ regs) (val : BitVec 64) :
    Agree regs dirty (s.setReg r val) s' := by
  refine ⟨fun r' hr' => ?_, ?_, ?_, ?_⟩
  · rw [Cpu.x_setReg_of_ne s r val (fun he => hr (he ▸ hr')), h.x r' hr']
  · rw [Cpu.v_setReg, h.v]
  · rw [Cpu.nzcv_setReg, h.nzcv]
  · rw [Cpu.mem_setReg]
    exact h.mem

/-- Bytes that do not count. -/
theorem mem_right (h : Agree regs dirty s s') {mem : BitVec 64 → BitVec 8}
    (hmem : ∀ a ∉ dirty, mem a = s'.mem a) : Agree regs dirty s { s' with mem := mem } :=
  ⟨h.x, h.v, h.nzcv, fun a ha => (hmem a ha).trans (h.mem a ha)⟩

theorem load_eq (h : Agree regs dirty s s') {n : ℕ} {a : BitVec 64}
    (hclean : ∀ b, Spans a n b → b ∉ dirty) : load n s'.mem a = load n s.mem a :=
  load_congr fun b hb => h.mem b (hclean b hb)

/-- A load of bytes that count. -/
theorem run (h : Agree regs dirty s s') (kind : Load) (t : BitVec 5) {a : BitVec 64}
    (hclean : ∀ b, Spans a kind.size b → b ∉ dirty) :
    Agree regs dirty (kind.run t a s) (kind.run t a s') := by
  have hload : load kind.size s'.mem a = load kind.size s.mem a := h.load_eq hclean
  cases kind <;> unfold Load.run <;> simp only [Load.size] at hload
  case prefetch => exact h
  all_goals rw [hload]
  case w | x | sw => exact h.setReg t _
  case s | d | q => exact h.setVec t _

end Agree

end NativeLib.Arm64
