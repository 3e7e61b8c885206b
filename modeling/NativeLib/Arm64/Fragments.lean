import NativeLib.Arm64.Machine
import NativeLib.Interaction.Simulation

/-! Short pieces of code that carry an address along, and what a core makes of them. -/

namespace NativeLib.Arm64

open Interaction

namespace Cpu

variable (s : Cpu) (r : BitVec 5) (val a : BitVec 64)

@[simp] theorem mem_setReg : (s.setReg r val).mem = s.mem := by
  unfold setReg; split_ifs <;> rfl

@[simp] theorem pc_setReg : (s.setReg r val).pc = s.pc := by
  unfold setReg; split_ifs <;> rfl

@[simp] theorem v_setReg : (s.setReg r val).v = s.v := by
  unfold setReg; split_ifs <;> rfl

@[simp] theorem nzcv_setReg : (s.setReg r val).nzcv = s.nzcv := by
  unfold setReg; split_ifs <;> rfl

@[simp] theorem mem_jump : (s.jump a).mem = s.mem := rfl

@[simp] theorem pc_jump : (s.jump a).pc = a := rfl

@[simp] theorem x_jump : (s.jump a).x = s.x := rfl

@[simp] theorem v_jump : (s.jump a).v = s.v := rfl

@[simp] theorem nzcv_jump : (s.jump a).nzcv = s.nzcv := rfl

@[simp] theorem reg_jump : (s.jump a).reg r = s.reg r := rfl

@[simp] theorem jump_jump (b : BitVec 64) : (s.jump a).jump b = s.jump b := rfl

theorem next_eq : s.next = s.jump (s.pc + 4) := rfl

theorem x_setReg_self (h : r ≠ 31) : (s.setReg r val).x r = val := by
  rw [setReg, if_neg h]
  exact Function.update_self ..

theorem x_setReg_of_ne {r' : BitVec 5} (h : r' ≠ r) : (s.setReg r val).x r' = s.x r' := by
  unfold setReg
  split_ifs
  · rfl
  · exact Function.update_of_ne h ..

theorem reg_setReg_self (h : r ≠ 31) : (s.setReg r val).reg r = val := by
  rw [reg, if_neg h, x_setReg_self s r val h]

/-- The zero register keeps nothing. -/
theorem setReg_zero : s.setReg 31 val = s := if_pos rfl

theorem setReg_jump : (s.jump a).setReg r val = (s.setReg r val).jump a := by
  unfold setReg; split_ifs <;> rfl

theorem setReg_setReg (val' : BitVec 64) : (s.setReg r val).setReg r val' = s.setReg r val' := by
  unfold setReg
  split_ifs
  · rfl
  · exact congrArg (fun x => { s with x := x }) (Function.update_idem ..)

/-- What is in a register already changes nothing. -/
theorem setReg_eq_self (h : s.reg r = val) : s.setReg r val = s := by
  unfold reg at h
  unfold setReg
  split_ifs at h ⊢
  · rfl
  · subst h
    exact congrArg (fun x => { s with x := x }) (Function.update_eq_self ..)

end Cpu

namespace Load

variable (kind : Load) (t : BitVec 5) (a b : BitVec 64) (s : Cpu)

@[simp] theorem pc_run : (kind.run t a s).pc = s.pc := by
  cases kind <;> first | exact Cpu.pc_setReg .. | rfl

@[simp] theorem mem_run : (kind.run t a s).mem = s.mem := by
  cases kind <;> first | exact Cpu.mem_setReg .. | rfl

theorem run_jump : kind.run t a (s.jump b) = (kind.run t a s).jump b := by
  cases kind <;> first | exact Cpu.setReg_jump .. | rfl

end Load

section

variable {other : BitVec 32 → Cpu → Cpu} {s t : Cpu} {word lo hi : BitVec 32} {a b : BitVec 64}

/-! What a core that stands at an address does next. -/

variable (other t a) in
theorem exec_b (offset : BitVec 64) :
    exec other (.b false offset) (t.jump a) = t.jump (a + offset) := rfl

variable (other t a) in
theorem exec_br (n : BitVec 5) : exec other (.br false n) (t.jump a) = t.jump (t.reg n) := rfl

variable (other t a) in
theorem exec_blr (n : BitVec 5) :
    exec other (.br true n) (t.jump a) = (t.setReg 30 (a + 4)).jump (t.reg n) := by
  rw [exec, if_pos rfl, Cpu.setReg_jump]
  rfl

variable (other t a) in
theorem exec_ldrLit (kind : Load) (r : BitVec 5) (offset : BitVec 64) :
    exec other (.ldrLit kind r offset) (t.jump a) =
      (kind.run r (a + offset) t).jump (a + 4) := by
  rw [exec, Load.run_jump]
  rfl

variable (other t a) in
theorem exec_ldr (kind : Load) (r n : BitVec 5) (offset : BitVec 64) :
    exec other (.ldr kind r n offset) (t.jump a) =
      (kind.run r (t.x n + offset) t).jump (a + 4) := by
  rw [exec, Load.run_jump]
  rfl

/-- One instruction of a run. -/
theorem reaches_word (word : BitVec 32) (h : load 4 s.mem a = word)
    (ht : Reaches (step other) (exec other (decode word) (s.jump a)) t) :
    Reaches (step other) (s.jump a) t := by
  have hstep : step other (s.jump a) = exec other (decode word) (s.jump a) :=
    congrArg (fun w => exec other (decode w) (s.jump a)) h
  exact .head (hstep ▸ ht)

/-- `ldr r, <offset>`, with the address next to the code. -/
theorem reaches_ldrLit (r : BitVec 5) (offset : BitVec 64) (h : load 4 s.mem a = word)
    (hdecode : decode word = .ldrLit .x r offset) (hlo : load 4 s.mem (a + offset) = lo)
    (hhi : load 4 s.mem (a + offset + 4) = hi)
    (ht : Reaches (step other) ((s.setReg r (hi ++ lo)).jump (a + 4)) t) :
    Reaches (step other) (s.jump a) t := by
  have hval : load 8 s.mem (a + offset) = hi ++ lo := by
    rw [load_words, hlo, hhi]
  refine reaches_word word h ?_
  rw [hdecode, exec_ldrLit, Load.run, hval]
  exact ht

variable (other) in
/-- `ldr x17, #8; br x17; <address>`. -/
theorem reaches_br_address (hbr : decode word = .br false 17)
    (h : CodeAt s.mem a [0x58000051, word, lo, hi]) :
    Reaches (step other) (s.jump a) ((s.setReg 17 (hi ++ lo)).jump (hi ++ lo)) := by
  simp only [CodeAt, BitVec.add_assoc, BitVec.reduceAdd] at h
  obtain ⟨hldr, hword, hlo, hhi, -⟩ := h
  rw [show a + 12#64 = a + 8 + 4 from (BitVec.add_assoc a 8 4).symm] at hhi
  have hword' : load 4 (s.setReg 17 (hi ++ lo)).mem (a + 4) = word := by
    rw [Cpu.mem_setReg, hword]
  refine reaches_ldrLit 17 8 hldr (by decide) hlo hhi ?_
  refine reaches_word word hword' ?_
  rw [hbr, exec_br, Cpu.reg_setReg_self _ _ _ (by decide)]
  exact .refl _ _

end

end NativeLib.Arm64
