import NativeLib.Arm64.Agreement
import NativeLib.ShadowHook.Layout

/-! The first instructions of a function do from where they have been moved to what they did
where they stood. -/

namespace NativeLib.ShadowHook

open Arm64 Interaction

/-- Instructions that have been moved, and the way back behind them. -/
structure Moved where
  insts : List (BitVec 32)
  rinfo : RewriteInfo
  isFor : rinfo.For insts
  movable : Movable rinfo rinfo.startAddr insts

namespace Moved

variable (other : BitVec 32 → Cpu → Cpu) (m : Moved) (regs : Set (BitVec 5))
  (dirty : Set (BitVec 64))

/-- What the block of code at the new place is. -/
def code : List (BitVec 32) :=
  blocks m.rinfo m.rinfo.startAddr m.insts ++ (a64AbsoluteJumpWithRet m.rinfo.endAddr).1

/-- Where an instruction stood. -/
def oldAddr (i : ℕ) : BitVec 64 := m.rinfo.startAddr + BitVec.ofNat 64 (4 * i)

/-- Where it is now. -/
def newAddr (i : ℕ) : BitVec 64 := m.rinfo.buf + BitVec.ofNat 64 (blockOffset m.insts i)

/-- One core has the function as it was, the other has the moved code. -/
structure Sim (s s' : Cpu) : Prop where
  agree : Agree regs dirty s s'
  old : CodeAt s.mem m.rinfo.startAddr m.insts
  new : CodeAt s'.mem m.rinfo.buf m.code

/-- The two are about to execute the same instruction. -/
structure At (i : ℕ) (s s' : Cpu) : Prop extends m.Sim regs dirty s s' where
  lt : i < m.insts.length
  pc : s.pc = m.oldAddr i
  pc' : s'.pc = m.newAddr i

/-- The two have left the moved code for the same address. `x17` is lost, and after a call the
way back is where the code is now. -/
structure Out (s s' : Cpu) : Prop where
  pc : s'.pc = s.pc
  agree : Agree (regs \ {17, 30}) dirty s s'
  link : (30 ∈ regs → s'.x 30 = s.x 30) ∨
    ∃ i ≤ m.insts.length, s.x 30 = m.oldAddr i ∧ s'.x 30 = m.newAddr i

/-- What is asked of the core that is about to execute one of the instructions: it reads registers
that count, a branch inside the code is no call and `x17` does not count there, a literal has not
been written over, and what is not moved in a special way does not look at where it is. -/
def Fine (s : Cpu) : Prop :=
  match decode s.word with
  | .b link offset => m.rinfo.Inside (s.pc + offset) → link = false ∧ 17 ∉ regs
  | .bCond _ offset => m.rinfo.Inside (s.pc + offset) → 17 ∉ regs
  | .cb _ _ t offset | .tb _ _ t offset =>
    (t ∈ regs ∨ t = 31) ∧ (m.rinfo.Inside (s.pc + offset) → 17 ∉ regs)
  | .adr .. | .adrp .. => True
  | .ldrLit kind _ offset =>
    (∀ b, Spans (s.pc + offset) kind.size b → b ∉ dirty) ∧
      (ThroughX17 kind → 31 ∈ regs ∧
        ∀ b, Spans (s.x 31 - 16) 16 b → b ∈ dirty ∧ ¬ Spans m.rinfo.buf (4 * m.code.length) b)
  | .br _ n => (n ∈ regs ∨ n = 31) ∧ ¬ m.rinfo.Inside (s.reg n)
  | instr => ∀ s', m.Sim regs dirty s s' →
    m.Sim regs dirty (exec other instr s) (exec other instr s') ∧
      (exec other instr s).pc = s.pc + 4 ∧ (exec other instr s').pc = s'.pc + 4

/-- The moved code comes to where `t` is. -/
def Follows (s' t : Cpu) : Prop :=
  ∃ u, Reaches (step other) s' u ∧ (m.rinfo.Inside t.pc → ∃ i, m.At regs dirty i t u) ∧
    (¬ m.rinfo.Inside t.pc → m.Out regs dirty t u)

variable {other m regs dirty} {s s' t u : Cpu} {i : ℕ} {inst : BitVec 32}

theorem Sim.jump (h : m.Sim regs dirty s s') (a b : BitVec 64) :
    m.Sim regs dirty (s.jump a) (s'.jump b) := ⟨h.agree.jump a b, h.old, h.new⟩

theorem Sim.setReg (h : m.Sim regs dirty s s') (r : BitVec 5) (val : BitVec 64) :
    m.Sim regs dirty (s.setReg r val) (s'.setReg r val) :=
  ⟨h.agree.setReg r val, by rw [Cpu.mem_setReg]; exact h.old,
    by rw [Cpu.mem_setReg]; exact h.new⟩

theorem Sim.setReg_right (h : m.Sim regs dirty s s') {r : BitVec 5} (hr : r ∉ regs)
    (val : BitVec 64) : m.Sim regs dirty s (s'.setReg r val) :=
  ⟨h.agree.setReg_right hr val, h.old, by rw [Cpu.mem_setReg]; exact h.new⟩

/-- The block of an instruction, and that it has one. -/
theorem At.block (h : m.At regs dirty i s s') (hi : m.insts[i]? = some inst) :
    (a64Rewrite inst s.pc m.rinfo).2 ≠ 0 ∧
      CodeAt s'.mem s'.pc (a64Rewrite inst s.pc m.rinfo).1 := by
  have hblocks := (codeAt_append.mp h.new).1
  rw [h.pc, h.pc']
  exact codeAt_block m.movable hblocks hi

/-- The word at the program counter is the instruction. -/
theorem At.word (h : m.At regs dirty i s s') (hi : m.insts[i]? = some inst) : s.word = inst := by
  rw [Cpu.word, h.pc]
  exact codeAt_iff.mp h.old i inst hi

theorem oldAddr_succ (i : ℕ) : m.oldAddr i + 4 = m.oldAddr (i + 1) := by
  rw [oldAddr, oldAddr, Nat.mul_add, ← add_ofNat_add]
  rfl

theorem newAddr_succ (hi : m.insts[i]? = some inst) :
    m.newAddr i + BitVec.ofNat 64 (a64GetRewriteInstLen inst) = m.newAddr (i + 1) := by
  rw [newAddr, newAddr, add_ofNat_add, ← blockOffset_succ hi]

theorem oldAddr_length : m.oldAddr m.insts.length = m.rinfo.endAddr := m.isFor.end.symm

theorem newAddr_length (mem : BitVec 64 → BitVec 8) (h : CodeAt mem m.rinfo.buf m.code) :
    CodeAt mem (m.newAddr m.insts.length) (a64AbsoluteJumpWithRet m.rinfo.endAddr).1 := by
  rw [newAddr, ← four_mul_length_blocks m.movable]
  exact (codeAt_append.mp h).2

/-- The cores leave for an address through `x17`. -/
theorem Sim.leaves (h : m.Sim regs dirty s s') (addr : BitVec 64) :
    m.Out regs dirty (s.jump addr) ((s'.setReg 17 addr).jump addr) := by
  have hregs : Agree (regs \ {17, 30}) dirty s s' := h.agree.mono fun r hr => hr.1
  refine ⟨rfl, (hregs.setReg_right (fun hr => hr.2 (.inl rfl)) addr).jump _ _, .inl ?_⟩
  intro h30
  exact (Cpu.x_setReg_of_ne s' 17 addr (by decide)).trans (h.agree.x 30 h30)

/-- A branch is made to where its target is now. -/
theorem Sim.follows_jump (h : m.Sim regs dirty s s') {addr : BitVec 64}
    (halign : (addr - m.rinfo.startAddr).toNat % 4 = 0) (hin : m.rinfo.Inside addr → 17 ∉ regs)
    (hreach : Reaches (step other) s'
      ((s'.setReg 17 (m.rinfo.fixAddr addr)).jump (m.rinfo.fixAddr addr))) :
    m.Follows other regs dirty s' (s.jump addr) := by
  refine ⟨_, hreach, ?_, ?_⟩
  · intro hinside
    obtain ⟨j, hj, rfl⟩ := m.isFor.exists_index hinside halign
    exact ⟨j, ((h.setReg_right (hin hinside) _).jump _ _), hj, rfl, m.isFor.fixAddr_eq hj⟩
  · intro hout
    rw [Cpu.pc_jump] at hout
    rw [RewriteInfo.fixAddr_of_not hout]
    exact h.leaves addr

/-- Behind an instruction comes the next one, or the way back. -/
theorem Sim.follows_next (h : m.Sim regs dirty t u) (hi : m.insts[i]? = some inst)
    (hpc : t.pc = m.oldAddr (i + 1)) (hpc' : u.pc = m.newAddr (i + 1))
    (hreach : Reaches (step other) s' u) : m.Follows other regs dirty s' t := by
  have hlt : i < m.insts.length := (List.getElem?_eq_some_iff.mp hi).1
  have hinside : m.rinfo.Inside t.pc ↔ i + 1 < m.insts.length :=
    hpc ▸ m.isFor.inside_iff (by omega)
  by_cases hlast : i + 1 < m.insts.length
  · refine ⟨u, hreach, fun _ => ⟨i + 1, h, hlast, hpc, hpc'⟩, fun hout => ?_⟩
    exact absurd (hinside.mpr hlast) hout
  · have hend : i + 1 = m.insts.length := by omega
    have hback := reaches_br_address other (by decide) (newAddr_length u.mem h.new)
    rw [highWord_append_lowWord, ← oldAddr_length, ← hend, ← hpc, ← hpc'] at hback
    refine ⟨_, hreach.trans hback, fun hin => absurd (hinside.mp hin) hlast, fun _ => ?_⟩
    exact h.leaves t.pc

/-- An offset that counts words keeps the step of instructions. -/
theorem toNat_signExtend_words {k : ℕ} (x : BitVec k) :
    ((x ++ 0#2).signExtend 64).toNat % 4 = 0 := by
  have hlow : ((x ++ 0#2).signExtend 64).setWidth 2 = 0#2 := by
    apply BitVec.eq_of_getLsbD_eq
    intro i hi
    rw [BitVec.getLsbD_setWidth, BitVec.getLsbD_signExtend, BitVec.getLsbD_append]
    simp [hi, show i < k + 2 by omega, show i < 64 by omega]
  have hnat := congrArg BitVec.toNat hlow
  rwa [BitVec.toNat_setWidth] at hnat

theorem align_oldAddr {k : ℕ} (i : ℕ) (x : BitVec k) :
    (m.oldAddr i + (x ++ 0#2).signExtend 64 - m.rinfo.startAddr).toNat % 4 = 0 := by
  have hx := toNat_signExtend_words x
  rw [oldAddr, BitVec.add_assoc, sub_self_add, BitVec.toNat_add, BitVec.toNat_ofNat]
  omega

/-- A branch that may be taken. -/
theorem At.follows_cond (h : m.At regs dirty i s s') (hi : m.insts[i]? = some inst) {k len : ℕ}
    (x : BitVec k) (taken : Bool) (hlen : a64GetRewriteInstLen inst = len)
    (hin : m.rinfo.Inside (s.pc + (x ++ 0#2).signExtend 64) → 17 ∉ regs)
    (hreach : Reaches (step other) s'
      (if taken then
        (s'.setReg 17 (m.rinfo.fixAddr (s.pc + (x ++ 0#2).signExtend 64))).jump
          (m.rinfo.fixAddr (s.pc + (x ++ 0#2).signExtend 64))
      else s'.jump (s'.pc + BitVec.ofNat 64 len))) :
    m.Follows other regs dirty s'
      (if taken then s.jump (s.pc + (x ++ 0#2).signExtend 64) else s.next) := by
  cases taken with
  | true => exact h.toSim.follows_jump (h.pc ▸ align_oldAddr i x) hin hreach
  | false =>
    refine (h.toSim.jump _ _).follows_next hi ?_ ?_ hreach
    · rw [Cpu.pc_jump, h.pc, oldAddr_succ]
    · rw [Cpu.pc_jump, h.pc', ← hlen, newAddr_succ hi]

/-- An instruction that is no branch. -/
theorem At.follows_fall (h : m.At regs dirty i s s') (hi : m.insts[i]? = some inst) {len : ℕ}
    (hlen : a64GetRewriteInstLen inst = len) (hsim : m.Sim regs dirty t u)
    (hreach : Reaches (step other) s' (u.jump (s'.pc + BitVec.ofNat 64 len))) :
    m.Follows other regs dirty s' (t.jump (s.pc + 4)) := by
  refine (hsim.jump _ _).follows_next hi ?_ ?_ hreach
  · rw [Cpu.pc_jump, h.pc, oldAddr_succ]
  · rw [Cpu.pc_jump, h.pc', ← hlen, newAddr_succ hi]

/-- A call leaves, and finds the way back to where the code is now. -/
theorem At.follows_call (h : m.At regs dirty i s s') (hi : m.insts[i]? = some inst) {len : ℕ}
    (hlen : a64GetRewriteInstLen inst = len) {addr : BitVec 64} (hout : ¬ m.rinfo.Inside addr)
    {v : Cpu} (hv : v = s' ∨ v = s'.setReg 17 addr)
    (hreach : Reaches (step other) s'
      ((v.setReg 30 (s'.pc + BitVec.ofNat 64 len)).jump addr)) :
    m.Follows other regs dirty s' ((s.setReg 30 (s.pc + 4)).jump addr) := by
  have hlt : i < m.insts.length := (List.getElem?_eq_some_iff.mp hi).1
  have hregs : Agree (regs \ {17, 30}) dirty s s' := h.agree.mono fun r hr => hr.1
  have h17 : (17 : BitVec 5) ∉ regs \ {17, 30} := fun hr => hr.2 (.inl rfl)
  have h30 : (30 : BitVec 5) ∉ regs \ {17, 30} := fun hr => hr.2 (.inr rfl)
  have hagree : Agree (regs \ {17, 30}) dirty s v := by
    rcases hv with rfl | rfl
    · exact hregs
    · exact hregs.setReg_right h17 _
  refine ⟨_, hreach, fun hin => absurd hin hout, fun _ => ⟨rfl, ?_, .inr ⟨i + 1, hlt, ?_, ?_⟩⟩⟩
  · exact ((hagree.setReg_right h30 _).setReg_left h30 _).jump _ _
  · rw [Cpu.x_jump, Cpu.x_setReg_self _ _ _ (by decide), h.pc, oldAddr_succ]
  · rw [Cpu.x_jump, Cpu.x_setReg_self _ _ _ (by decide), h.pc', ← hlen, newAddr_succ hi]

theorem At.follows_adr (h : m.At regs dirty i s s') (hi : m.insts[i]? = some inst)
    {type : A64Type} (hlen : a64GetRewriteInstLen inst = 16)
    (hmoved : (a64RewriteAdr inst s.pc type m.rinfo).2 ≠ 0)
    (hcode : CodeAt s'.mem s'.pc (a64RewriteAdr inst s.pc type m.rinfo).1) :
    m.Follows other regs dirty s'
      ((s.setReg (rt inst) (adrTarget inst s.pc type)).jump (s.pc + 4)) := by
  rw [a64RewriteAdr_eq] at hmoved hcode
  by_cases hfix : m.rinfo.isAddrNeedFix (adrTarget inst s.pc type) = true
  · rw [if_pos hfix] at hmoved
    exact absurd rfl hmoved
  · rw [if_neg hfix] at hcode
    exact h.follows_fall hi hlen (h.toSim.setReg _ _) (reaches_adr hcode)

theorem four_mul_length_code : 4 * m.code.length = blockOffset m.insts m.insts.length + 16 := by
  rw [code, List.length_append, Nat.mul_add, four_mul_length_blocks m.movable]
  rfl

/-- A block is part of the code. -/
theorem At.spans_block (h : m.At regs dirty i s s') (hi : m.insts[i]? = some inst) {len : ℕ}
    (hlen : a64GetRewriteInstLen inst = len) {b : BitVec 64} (hb : Spans s'.pc len b) :
    Spans m.rinfo.buf (4 * m.code.length) b := by
  obtain ⟨j, hj, rfl⟩ := spans_iff.mp hb
  have hend : blockOffset m.insts (i + 1) ≤ blockOffset m.insts m.insts.length :=
    blockOffset_mono h.lt
  rw [blockOffset_succ hi, hlen] at hend
  rw [h.pc', newAddr, add_ofNat_add]
  refine spans_add ?_
  rw [four_mul_length_code]
  omega

theorem Sim.run (h : m.Sim regs dirty s s') {kind : Load} (t : BitVec 5) {a : BitVec 64}
    (hclean : ∀ b, Spans a kind.size b → b ∉ dirty) :
    m.Sim regs dirty (kind.run t a s) (kind.run t a s') :=
  ⟨h.agree.run kind t hclean, by rw [Load.mem_run]; exact h.old,
    by rw [Load.mem_run]; exact h.new⟩

/-- What is kept below the stack pointer does not count. -/
theorem Sim.spill (h : m.Sim regs dirty s s') (hsp : 31 ∈ regs)
    (hstack : ∀ b, Spans (s.x 31 - 16) 16 b →
      b ∈ dirty ∧ ¬ Spans m.rinfo.buf (4 * m.code.length) b) :
    m.Sim regs dirty s { s' with mem := spilled s' } := by
  rw [← h.agree.x 31 hsp] at hstack
  refine ⟨h.agree.mem_right fun b hb => spilled_out fun hs => hb (hstack b hs).1, h.old, ?_⟩
  exact h.new.congr fun b hb => spilled_out fun hs => (hstack b hs).2 hb

/-- A load of a literal, which has not been written over. -/
theorem At.follows_ldrLit (h : m.At regs dirty i s s') (hi : m.insts[i]? = some inst)
    {type : A64Type} {kind : Load} (hkind : type.load? = some kind)
    (hlen : a64GetRewriteInstLen inst = type.rewriteInstLen)
    (hmoved : (a64RewriteLdr inst s.pc type m.rinfo).2 ≠ 0)
    (hcode : CodeAt s'.mem s'.pc (a64RewriteLdr inst s.pc type m.rinfo).1)
    (hclean : ∀ b, Spans (s.pc + imm19 inst) kind.size b → b ∉ dirty)
    (hspill : ThroughX17 kind → 31 ∈ regs ∧
      ∀ b, Spans (s.x 31 - 16) 16 b → b ∈ dirty ∧ ¬ Spans m.rinfo.buf (4 * m.code.length) b) :
    m.Follows other regs dirty s' ((kind.run (rt inst) (s.pc + imm19 inst) s).jump (s.pc + 4)) := by
  rw [a64RewriteLdr_eq hkind] at hmoved hcode
  by_cases hfail : m.rinfo.isAddrNeedFix (s.pc + imm19 inst) ∧ kind ≠ .prefetch
  · rw [if_pos hfail] at hmoved
    exact absurd rfl hmoved
  · rw [if_neg hfail] at hcode
    obtain ⟨addr, haddr⟩ : ∃ addr, addr =
        if m.rinfo.isAddrNeedFix (s.pc + imm19 inst) then m.rinfo.fixAddr (s.pc + imm19 inst)
        else s.pc + imm19 inst := ⟨_, rfl⟩
    simp only [← haddr] at hcode
    -- A prefetch may go astray, for it has no effect.
    have hrun : ∀ v, kind.run (rt inst) addr v = kind.run (rt inst) (s.pc + imm19 inst) v := by
      intro v
      by_cases hprfm : kind = .prefetch
      · rw [hprfm]
        rfl
      · rw [haddr, if_neg fun hfix => hfail ⟨hfix, hprfm⟩]
    by_cases hplain : kind = .w ∨ kind = .x ∨ kind = .sw
    · rw [if_pos hplain] at hcode
      have hlen20 : type.rewriteInstLen = 20 := by
        rcases hplain with rfl | rfl | rfl <;> cases type <;> cases hkind <;> rfl
      have hreach : Reaches (step other) s' _ := reaches_ldr_plain hplain hcode
      rw [hrun] at hreach
      exact h.follows_fall hi (hlen.trans hlen20) (h.toSim.run _ hclean) hreach
    · rw [if_neg hplain] at hcode
      have hthrough : ThroughX17 kind := by
        cases kind <;> simp [ThroughX17] at hplain ⊢
      have hlen28 : type.rewriteInstLen = 28 := by
        rcases hthrough with rfl | rfl | rfl | rfl <;> cases type <;> cases hkind <;> rfl
      obtain ⟨hsp, hstack⟩ := hspill hthrough
      have hapart : ∀ b, Spans s'.pc 28 b → ¬ Spans (s'.x 31 - 16) 16 b := by
        intro b hb hs
        rw [h.agree.x 31 hsp] at hs
        exact (hstack b hs).2 (h.spans_block hi (hlen.trans hlen28) hb)
      have hreach : Reaches (step other) s' _ := reaches_ldr_spilled hthrough hcode hapart
      rw [hrun] at hreach
      exact h.follows_fall hi (hlen.trans hlen28) ((h.toSim.spill hsp hstack).run _ hclean) hreach

/-- An instruction that is copied. -/
theorem At.follows_ignored (h : m.At regs dirty i s s') (hi : m.insts[i]? = some inst)
    (hinst : ¬ (decode inst).PcRelative) (hlen : a64GetRewriteInstLen inst = 4)
    (hcode : CodeAt s'.mem s'.pc [inst]) (hword : s.word = inst)
    (hfine : m.Fine other regs dirty s) :
    m.Follows other regs dirty s' (exec other (decode inst) s) := by
  have hreach : Reaches (step other) s' (exec other (decode inst) s') :=
    hcode.1 ▸ Reaches.single (step other) s'
  have hplain : (∀ s', m.Sim regs dirty s s' →
      m.Sim regs dirty (exec other (decode inst) s) (exec other (decode inst) s') ∧
        (exec other (decode inst) s).pc = s.pc + 4 ∧
        (exec other (decode inst) s').pc = s'.pc + 4) →
      m.Follows other regs dirty s' (exec other (decode inst) s) := by
    intro hall
    obtain ⟨hsim, hpc, hpc'⟩ := hall s' h.toSim
    refine hsim.follows_next hi ?_ ?_ hreach
    · rw [hpc, h.pc, oldAddr_succ]
    · rw [hpc', h.pc', ← newAddr_succ hi, hlen]
      rfl
  rw [Fine, hword] at hfine
  cases hdecode : decode inst <;> rw [hdecode] at hinst hfine hplain hreach
  case ldr | stp | other => exact hplain hfine
  case br link n =>
    obtain ⟨hreg, hout⟩ := hfine
    rw [exec, h.agree.reg hreg] at hreach
    rw [exec]
    cases link with
    | true => exact h.follows_call hi hlen hout (.inl rfl) hreach
    | false =>
      refine ⟨_, hreach, fun hin => absurd hin hout, fun _ => ⟨rfl, ?_, .inl (h.agree.x 30)⟩⟩
      exact (h.agree.mono fun r hr => hr.1).jump _ _
  all_goals exact absurd trivial hinst

/-- What was at one place is followed by what is at the other, instruction by instruction. -/
theorem At.follows (h : m.At regs dirty i s s') (hfine : m.Fine other regs dirty s) :
    m.Follows other regs dirty s' (step other s) := by
  obtain ⟨inst, hi⟩ : ∃ inst, m.insts[i]? = some inst :=
    ⟨m.insts.get ⟨i, h.lt⟩, List.getElem?_eq_getElem h.lt⟩
  obtain ⟨hmoved, hcode⟩ := h.block hi
  have hword := h.word hi
  have hshows := shows_a64GetType inst
  have hlen : a64GetRewriteInstLen inst = (a64GetType inst).rewriteInstLen := rfl
  rw [Fine, hword] at hfine
  rw [step, hword]
  rw [a64Rewrite] at hmoved hcode
  cases htype : a64GetType inst <;> rw [htype] at hshows hmoved hcode hlen
  case b =>
    rw [decode_b hshows] at hfine ⊢
    exact h.toSim.follows_jump (h.pc ▸ align_oldAddr i _) (fun hin => (hfine hin).2)
      (reaches_rewriteB hcode)
  case bl =>
    rw [decode_bl hshows] at hfine ⊢
    have hout : ¬ m.rinfo.Inside (s.pc + imm26 inst) := fun hin =>
      absurd (hfine hin).1 (by decide)
    have hreach : Reaches (step other) s' _ := reaches_rewriteBl hcode
    rw [RewriteInfo.fixAddr_of_not hout] at hreach
    exact h.follows_call hi hlen hout (.inr rfl) hreach
  case bCond =>
    rw [decode_bCond hshows] at hfine ⊢
    have hreach : Reaches (step other) s' _ := reaches_rewriteBCond hshows hcode
    rw [h.agree.nzcv] at hreach
    exact h.follows_cond hi _ _ hlen hfine hreach
  case cbz | cbnz =>
    rw [decode_cb hshows] at hfine ⊢
    have hreach : Reaches (step other) s' _ := reaches_rewriteCb hshows hcode
    rw [h.agree.reg hfine.1] at hreach
    exact h.follows_cond hi _ _ hlen hfine.2 hreach
  case tbz | tbnz =>
    rw [decode_tb hshows] at hfine ⊢
    have hreach : Reaches (step other) s' _ := reaches_rewriteTb hshows hcode
    rw [h.agree.reg hfine.1] at hreach
    exact h.follows_cond hi _ _ hlen hfine.2 hreach
  case adr =>
    rw [decode_adr hshows, exec, Cpu.next_eq, Cpu.pc_setReg]
    exact h.follows_adr hi hlen hmoved hcode
  case adrp =>
    rw [decode_adrp hshows, exec, Cpu.next_eq, Cpu.pc_setReg]
    exact h.follows_adr hi hlen hmoved hcode
  case ignored => exact h.follows_ignored hi hshows hlen hcode hword (by rwa [Fine, hword])
  all_goals
    obtain ⟨kind, hkind, hmask⟩ := hshows
    rw [decode_ldrLit hmask] at hfine ⊢
    rw [exec, Cpu.next_eq, Load.pc_run]
    exact h.follows_ldrLit hi hkind hlen hmoved hcode hfine.1 hfine.2

/-- A run of the function from one of its first instructions until it has left them, and the
moved code from the same instruction on: the two leave for the same place in the same state. -/
theorem At.simulates (h : m.At regs dirty i s s') {n : ℕ}
    (hin : ∀ j < n, m.rinfo.Inside ((step other)^[j] s).pc)
    (hout : ¬ m.rinfo.Inside ((step other)^[n] s).pc)
    (hfine : ∀ j < n, m.Fine other regs dirty ((step other)^[j] s)) :
    ∃ t', Reaches (step other) s' t' ∧ m.Out regs dirty ((step other)^[n] s) t' := by
  have hpos : 0 < n := by
    rcases Nat.eq_zero_or_pos n with rfl | hpos
    · exact absurd (h.pc ▸ (m.isFor.inside_iff (Nat.le_of_lt h.lt)).mpr h.lt) hout
    · exact hpos
  refine @Reaches.simulates _ _ _ _ (fun t u => ∃ i, m.At regs dirty i t u) (m.Out regs dirty)
    (fun t => m.rinfo.Inside t.pc) s s' n ?_ hpos ⟨i, h⟩ hin hout
  rintro j hj t' ⟨k, hk⟩
  rw [Function.iterate_succ_apply']
  exact hk.follows (hfine j hj)

end Moved

end NativeLib.ShadowHook
