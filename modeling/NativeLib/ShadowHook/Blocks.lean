import NativeLib.Arm64.Fragments
import NativeLib.ShadowHook.Immediates

/-! What the code that `sh_a64_rewrite` writes does on a core. -/

namespace NativeLib.ShadowHook

open Arm64 Interaction

variable {other : BitVec 32 → Cpu → Cpu} {s : Cpu} {inst : BitVec 32} {a pc addr : BitVec 64}
  {rinfo : RewriteInfo}

/-- An address is put together again from the two words it is written as. -/
theorem highWord_append_lowWord (addr : BitVec 64) : highWord addr ++ lowWord addr = addr := by
  have hmask : (0xFFFFFFFF : BitVec 64) = (BitVec.allOnes 32).setWidth 64 := by decide
  apply BitVec.eq_of_getLsbD_eq
  intro i hi
  rw [BitVec.getLsbD_append, highWord, lowWord, hmask]
  simp only [BitVec.getLsbD_setWidth, BitVec.getLsbD_and, BitVec.getLsbD_ushiftRight,
    BitVec.getLsbD_allOnes, hi, decide_true, Bool.true_and]
  by_cases hlow : i < 32
  · simp [hlow]
  · simp [hlow, show i - 32 < 32 by omega, show 32 + (i - 32) = i by omega]

/-- `ldr r, <offset>` of an address next to the code. -/
theorem reaches_ldr_address {word : BitVec 32} (r : BitVec 5) (offset : BitVec 64)
    (h : load 4 s.mem a = word) (hdecode : decode word = .ldrLit .x r offset)
    (hlo : load 4 s.mem (a + offset) = lowWord addr)
    (hhi : load 4 s.mem (a + (offset + 4)) = highWord addr) {t : Cpu}
    (ht : Reaches (step other) ((s.setReg r addr).jump (a + 4)) t) :
    Reaches (step other) (s.jump a) t := by
  rw [← BitVec.add_assoc] at hhi
  refine reaches_ldrLit r offset h hdecode hlo hhi ?_
  rwa [highWord_append_lowWord]

/-- `b <offset>`. -/
theorem reaches_b (word : BitVec 32) (offset : BitVec 64) (h : load 4 s.mem a = word)
    (hdecode : decode word = .b false offset) {t : Cpu}
    (ht : Reaches (step other) (s.jump (a + offset)) t) : Reaches (step other) (s.jump a) t := by
  refine reaches_word word h ?_
  rwa [hdecode, exec_b]

/-- `ldr x17, #8; b #12; <address>; br x17`. -/
theorem reaches_branch {last : BitVec 32} (link : Bool) (hlast : decode last = .br link 17)
    (h : CodeAt s.mem a [0x58000051, 0x14000003, lowWord addr, highWord addr, last]) :
    Reaches (step other) (s.jump a)
      ((if link then (s.setReg 17 addr).setReg 30 (a + 20) else s.setReg 17 addr).jump addr) := by
  simp only [CodeAt, BitVec.add_assoc, BitVec.reduceAdd] at h
  obtain ⟨hldr, hb, hlo, hhi, hbr, -⟩ := h
  refine reaches_ldr_address 17 8 hldr (by decide) hlo hhi ?_
  refine reaches_b 0x14000003 12 (by rw [Cpu.mem_setReg, hb]) (by decide) ?_
  rw [BitVec.add_assoc]
  refine reaches_word last (by rw [Cpu.mem_setReg, ← hbr]; rfl) ?_
  rw [hlast]
  cases link with
  | false =>
    rw [exec_br, Cpu.reg_setReg_self _ _ _ (by decide)]
    exact .refl _ _
  | true =>
    rw [exec_blr, Cpu.reg_setReg_self _ _ _ (by decide), BitVec.add_assoc]
    exact .refl _ _

/-- A branch over the next word, which is taken if the jump behind it has to be made. -/
theorem reaches_guard {word skip : BitVec 32} {taken : Bool} (offset : BitVec 64) {t : Cpu}
    (h : load 4 s.mem a = word)
    (hexec : exec other (decode word) (s.jump a) =
      if taken then s.jump (a + 8) else s.jump (a + 4))
    (hskip : load 4 s.mem (a + 4) = skip) (hdecode : decode skip = .b false offset)
    (ht : Reaches (step other) (s.jump (a + 8)) t) :
    Reaches (step other) (s.jump a) (if taken then t else s.jump (a + (4 + offset))) := by
  refine reaches_word word h ?_
  rw [hexec]
  cases taken with
  | true => exact ht
  | false =>
    refine reaches_b skip offset hskip hdecode ?_
    rw [BitVec.add_assoc]
    exact .refl _ _

/-! The branches. -/

theorem reaches_rewriteB
    (h : CodeAt s.mem a (a64RewriteB inst pc .b rinfo).1) :
    Reaches (step other) (s.jump a)
      ((s.setReg 17 (rinfo.fixAddr (pc + imm26 inst))).jump
        (rinfo.fixAddr (pc + imm26 inst))) := by
  rw [← offset26_eq]
  exact reaches_branch false (by decide) h

theorem reaches_rewriteBl
    (h : CodeAt s.mem a (a64RewriteB inst pc .bl rinfo).1) :
    Reaches (step other) (s.jump a)
      (((s.setReg 17 (rinfo.fixAddr (pc + imm26 inst))).setReg 30 (a + 20)).jump
        (rinfo.fixAddr (pc + imm26 inst))) := by
  rw [← offset26_eq]
  exact reaches_branch true (by decide) h

theorem reaches_rewriteBCond (hinst : inst &&& 0xFF000010 = 0x54000000)
    (h : CodeAt s.mem a (a64RewriteB inst pc .bCond rinfo).1) :
    Reaches (step other) (s.jump a)
      (if holds (inst.extractLsb' 0 4) s.nzcv then
        (s.setReg 17 (rinfo.fixAddr (pc + imm19 inst))).jump (rinfo.fixAddr (pc + imm19 inst))
      else s.jump (a + 28)) := by
  rw [← offset19_eq]
  obtain ⟨hcond, hskip, hrest⟩ := h
  rw [BitVec.add_assoc] at hrest
  refine reaches_guard 24 hcond ?_ hskip (by decide)
    (reaches_branch false (by decide) hrest)
  rw [decode_bCond_skip hinst]
  rfl

theorem reaches_rewriteCb (hinst : inst &&& 0x7E000000 = 0x34000000)
    (h : CodeAt s.mem a (a64RewriteCb inst pc rinfo).1) :
    Reaches (step other) (s.jump a)
      (if isZero (inst.getLsbD 31) (s.reg (rt inst)) != inst.getLsbD 24 then
        (s.setReg 17 (rinfo.fixAddr (pc + imm19 inst))).jump (rinfo.fixAddr (pc + imm19 inst))
      else s.jump (a + 24)) := by
  rw [← offset19_eq]
  obtain ⟨hcond, hskip, hrest⟩ := h
  rw [BitVec.add_assoc] at hrest
  have hjump := reaches_br_address other (by decide) hrest
  rw [highWord_append_lowWord] at hjump
  refine reaches_guard 20 hcond ?_ hskip (by decide) hjump
  rw [decode_cb_skip hinst]
  rfl

theorem reaches_rewriteTb (hinst : inst &&& 0x7E000000 = 0x36000000)
    (h : CodeAt s.mem a (a64RewriteTb inst pc rinfo).1) :
    Reaches (step other) (s.jump a)
      (if (s.reg (rt inst)).getLsbD
          (inst.extractLsb' 31 1 ++ inst.extractLsb' 19 5).toNat == inst.getLsbD 24 then
        (s.setReg 17 (rinfo.fixAddr (pc + imm14 inst))).jump (rinfo.fixAddr (pc + imm14 inst))
      else s.jump (a + 24)) := by
  rw [← offset14_eq]
  obtain ⟨hcond, hskip, hrest⟩ := h
  rw [BitVec.add_assoc] at hrest
  have hjump := reaches_br_address other (by decide) hrest
  rw [highWord_append_lowWord] at hjump
  refine reaches_guard 20 hcond ?_ hskip (by decide) hjump
  rw [decode_tb_skip hinst]
  rfl

/-! The loads. -/

theorem decode_or_rt (r : BitVec 5) : decode (0x58000040 ||| r.setWidth 32) = .ldrLit .x r 8 ∧
    decode (0x58000060 ||| r.setWidth 32) = .ldrLit .x r 12 := by
  revert r
  decide

/-- The address that `adr` and `adrp` are about. -/
def adrTarget (inst : BitVec 32) (pc : BitVec 64) (type : A64Type) : BitVec 64 :=
  if type = .adr then pc + (imm21 inst).signExtend 64
  else (pc &&& 0xFFFFFFFFFFFFF000) + (imm21 inst ++ 0#12).signExtend 64

theorem a64RewriteAdr_eq (type : A64Type) : a64RewriteAdr inst pc type rinfo =
    if rinfo.isAddrNeedFix (adrTarget inst pc type) then ([], 0)
    else ([0x58000040 ||| (rt inst).setWidth 32, 0x14000003, lowWord (adrTarget inst pc type),
      highWord (adrTarget inst pc type)], 16) := by
  simp only [a64RewriteAdr, adrOffset_eq, adrpOffset_eq, getBits32_rt]
  rfl

theorem reaches_adr {r : BitVec 5} (h : CodeAt s.mem a [0x58000040 ||| r.setWidth 32, 0x14000003,
      lowWord addr, highWord addr]) :
    Reaches (step other) (s.jump a) ((s.setReg r addr).jump (a + 16)) := by
  simp only [CodeAt, BitVec.add_assoc, BitVec.reduceAdd] at h
  obtain ⟨hldr, hb, hlo, hhi, -⟩ := h
  refine reaches_ldr_address r 8 hldr (decode_or_rt r).1 hlo hhi ?_
  refine reaches_b 0x14000003 12 (by rw [Cpu.mem_setReg, hb]) (by decide) ?_
  rw [BitVec.add_assoc]
  exact .refl _ _

/-- The words that load from the address in the register that is loaded. -/
def loadWord (kind : Load) (r : BitVec 5) : BitVec 32 :=
  match kind with
  | .w => 0xB9400000 ||| r.setWidth 32 ||| r.setWidth 32 <<< 5
  | .x => 0xF9400000 ||| r.setWidth 32 ||| r.setWidth 32 <<< 5
  | .sw => 0xB9800000 ||| r.setWidth 32 ||| r.setWidth 32 <<< 5
  | .prefetch => 0xF9800220 ||| r.setWidth 32
  | .s => 0xBD400220 ||| r.setWidth 32
  | .d => 0xFD400220 ||| r.setWidth 32
  | .q => 0x3DC00220 ||| r.setWidth 32

theorem decode_loadWord (kind : Load) (r : BitVec 5) :
    decode (loadWord kind r) =
      .ldr kind r (match kind with | .w | .x | .sw => r | _ => 17) 0#64 := by
  revert r
  cases kind <;> decide

/-- A plain load goes through the register it is for. -/
theorem reaches_ldr_plain {kind : Load} {r : BitVec 5} (hkind : kind = .w ∨ kind = .x ∨ kind = .sw)
    (h : CodeAt s.mem a [0x58000060 ||| r.setWidth 32, loadWord kind r, 0x14000003, lowWord addr,
      highWord addr]) :
    Reaches (step other) (s.jump a) ((kind.run r addr s).jump (a + 20)) := by
  simp only [CodeAt, BitVec.add_assoc, BitVec.reduceAdd] at h
  obtain ⟨hldr, hload, hb, hlo, hhi, -⟩ := h
  have hdecode : decode (loadWord kind r) = .ldr kind r r 0#64 := by
    rw [decode_loadWord]
    rcases hkind with rfl | rfl | rfl <;> rfl
  have hrun : kind.run r ((s.setReg r addr).x r + 0#64) (s.setReg r addr) = kind.run r addr s := by
    rw [BitVec.add_zero]
    by_cases hr : r = 31
    · subst hr
      rcases hkind with rfl | rfl | rfl <;> simp only [Load.run, Cpu.setReg_zero]
    · rw [Cpu.x_setReg_self _ _ _ hr]
      rcases hkind with rfl | rfl | rfl <;> simp only [Load.run, Cpu.mem_setReg, Cpu.setReg_setReg]
  refine reaches_ldr_address r 12 hldr (decode_or_rt r).2 hlo hhi ?_
  refine reaches_word _ (by rw [Cpu.mem_setReg, hload]) ?_
  rw [hdecode, exec_ldr, hrun, BitVec.add_assoc]
  refine reaches_b 0x14000003 12 (by rw [Load.mem_run, ← hb]; rfl) (by decide) ?_
  rw [BitVec.add_assoc]
  exact .refl _ _

/-- The sixteen bytes below the stack pointer, where `x16` and `x17` are kept for a while. -/
def spilled (s : Cpu) : BitVec 64 → BitVec 8 :=
  store 8 (store 8 s.mem (s.x 31 - 16) (s.x 16)) (s.x 31 - 8) (s.x 17)

theorem spilled_out {b : BitVec 64} (h : ¬ Spans (s.x 31 - 16) 16 b) :
    spilled s b = s.mem b := by
  have hlow : ¬ Spans (s.x 31 - 16) 8 b := fun hb => h (Nat.lt_trans hb (by decide))
  have hhigh : ¬ Spans (s.x 31 - 8) 8 b := by
    intro hb
    obtain ⟨i, hi, rfl⟩ := spans_iff.mp hb
    apply h
    rw [show s.x 31 - 8 = s.x 31 - 16 + BitVec.ofNat 64 8 by bv_omega, add_ofNat_add]
    exact spans_add (by omega)
  rw [spilled, store_out hhigh, store_out hlow]

/-- What `x17` was is still below the stack pointer. -/
theorem load_spilled (s : Cpu) : load 8 (spilled s) (s.x 31 - 8) = s.x 17 :=
  load_store _ _ _ (by decide)

theorem exec_spill (other : BitVec 32 → Cpu → Cpu) (s : Cpu) (a : BitVec 64) :
    exec other (.stp 16 17 31 (-16)) (s.jump a) =
      ({ s with mem := spilled s } : Cpu).jump (a + 4) := by
  have hfirst : s.x 31 + -16 = s.x 31 - 16 := by bv_omega
  have hsecond : s.x 31 - 16 + 8 = s.x 31 - 8 := by bv_omega
  rw [spilled, ← hsecond, ← hfirst]
  rfl

/-- The kinds of load that leave the plain registers alone. -/
def ThroughX17 (kind : Load) : Prop := kind = .prefetch ∨ kind = .s ∨ kind = .d ∨ kind = .q

theorem x_run {kind : Load} (hkind : ThroughX17 kind) (r : BitVec 5) (addr : BitVec 64)
    (s : Cpu) : (kind.run r addr s).x = s.x := by
  rcases hkind with rfl | rfl | rfl | rfl <;> rfl

theorem run_setReg {kind : Load} (hkind : ThroughX17 kind) (r n : BitVec 5)
    (addr val : BitVec 64) (s : Cpu) :
    kind.run r addr (s.setReg n val) = (kind.run r addr s).setReg n val := by
  unfold Cpu.setReg
  rcases hkind with rfl | rfl | rfl | rfl <;> split_ifs <;> rfl

/-- Any other load goes through `x17`, which is put back. -/
theorem reaches_ldr_spilled {kind : Load} {r : BitVec 5} (hkind : ThroughX17 kind)
    (h : CodeAt s.mem a [0xA93F47F0, 0x58000091, loadWord kind r, 0xF85F83F1, 0x14000003,
      lowWord addr, highWord addr])
    (hstack : ∀ b, Spans a 28 b → ¬ Spans (s.x 31 - 16) 16 b) :
    Reaches (step other) (s.jump a)
      ((kind.run r addr { s with mem := spilled s }).jump (a + 28)) := by
  have h' : CodeAt (spilled s) a _ := h.congr fun b hb => spilled_out (hstack b hb)
  simp only [CodeAt, BitVec.add_assoc, BitVec.reduceAdd] at h'
  obtain ⟨-, hldr, hload, hldur, hb, hlo, hhi, -⟩ := h'
  obtain ⟨u, hu⟩ : ∃ u : Cpu, u = { s with mem := spilled s } := ⟨_, rfl⟩
  have hmem : u.mem = spilled s := by rw [hu]
  have hx : u.x = s.x := by rw [hu]
  rw [← hmem] at hldr hload hldur hb hlo hhi
  rw [← hu]
  have hdecode : decode (loadWord kind r) = .ldr kind r 17 0#64 := by
    rw [decode_loadWord]
    rcases hkind with rfl | rfl | rfl | rfl <;> rfl
  have hthrough : kind.run r ((u.setReg 17 addr).x 17 + 0#64) (u.setReg 17 addr) =
      (kind.run r addr u).setReg 17 addr := by
    rw [BitVec.add_zero, Cpu.x_setReg_self _ _ _ (by decide), run_setReg hkind]
  have hback : Load.run .x 17 (((kind.run r addr u).setReg 17 addr).x 31 + -8)
      ((kind.run r addr u).setReg 17 addr) = kind.run r addr u := by
    have hsp : ((kind.run r addr u).setReg 17 addr).x 31 + -8 = s.x 31 - 8 := by
      rw [Cpu.x_setReg_of_ne _ _ _ (by decide), x_run hkind, hx]
      bv_omega
    rw [hsp, Load.run, Cpu.setReg_setReg, Cpu.mem_setReg, Load.mem_run, hmem, load_spilled]
    refine Cpu.setReg_eq_self _ _ _ ?_
    rw [Cpu.reg, if_neg (by decide), x_run hkind, hx]
  refine reaches_word 0xA93F47F0 h.1 ?_
  rw [show decode 0xA93F47F0 = .stp 16 17 31 (-16) by decide, exec_spill, ← hu]
  refine reaches_ldr_address 17 16 hldr (by decide)
    (by simpa only [BitVec.add_assoc, BitVec.reduceAdd] using hlo)
    (by simpa only [BitVec.add_assoc, BitVec.reduceAdd] using hhi) ?_
  simp only [BitVec.add_assoc, BitVec.reduceAdd]
  refine reaches_word (loadWord kind r) (by rw [Cpu.mem_setReg, hload]) ?_
  rw [hdecode, exec_ldr, hthrough]
  simp only [BitVec.add_assoc, BitVec.reduceAdd]
  refine reaches_word 0xF85F83F1 (by rw [Cpu.mem_setReg, Load.mem_run, hldur]) ?_
  rw [show decode 0xF85F83F1 = .ldr .x 17 31 (-8) by decide, exec_ldr, hback]
  simp only [BitVec.add_assoc, BitVec.reduceAdd]
  refine reaches_b 0x14000003 12 (by rw [Load.mem_run, hb]) (by decide) ?_
  simp only [BitVec.add_assoc, BitVec.reduceAdd]
  exact .refl _ _

/-- The words of a load, by what it loads. -/
theorem a64RewriteLdr_eq {type : A64Type} {kind : Load} (hkind : type.load? = some kind) :
    a64RewriteLdr inst pc type rinfo =
      if rinfo.isAddrNeedFix (pc + imm19 inst) ∧ kind ≠ .prefetch then ([], 0)
      else
        let addr := if rinfo.isAddrNeedFix (pc + imm19 inst) then rinfo.fixAddr (pc + imm19 inst)
          else pc + imm19 inst
        if kind = .w ∨ kind = .x ∨ kind = .sw then
          ([0x58000060 ||| (rt inst).setWidth 32, loadWord kind (rt inst), 0x14000003, lowWord addr,
            highWord addr], 20)
        else
          ([0xA93F47F0, 0x58000091, loadWord kind (rt inst), 0xF85F83F1, 0x14000003, lowWord addr,
            highWord addr], 28) := by
  simp only [a64RewriteLdr, offset19_eq, getBits32_rt]
  cases type <;> cases hkind <;> simp [loadWord]

end NativeLib.ShadowHook
