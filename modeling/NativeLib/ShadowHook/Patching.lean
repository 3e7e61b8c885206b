import NativeLib.ShadowHook.Inst
import NativeLib.ShadowHook.Jumps
import NativeLib.ShadowHook.Prologue

/-! What a hook and an unhook of `sh_inst.cpp` do to memory. -/

namespace NativeLib.ShadowHook

open Arm64

namespace Inst

/-- What the rewriting was told about a function, by what is kept of it. -/
def rewriteInfo (inst : Inst) (targetAddr : BitVec 64) : RewriteInfo where
  startAddr := targetAddr
  endAddr := targetAddr + BitVec.ofNat 64 (4 * inst.backup.length)
  buf := inst.enterAddr
  instLens := inst.backup.map a64GetRewriteInstLen

/-- What was written into the enter. -/
def code (inst : Inst) (targetAddr : BitVec 64) : List (BitVec 32) :=
  blocks (inst.rewriteInfo targetAddr) targetAddr inst.backup ++
    (a64AbsoluteJumpWithRet (inst.rewriteInfo targetAddr).endAddr).1

end Inst

variable {mem mem' : Mem} {rinfo : RewriteInfo} {pc a b : BitVec 64} {insts : List (BitVec 32)}
  {off n : ℕ}

theorem four_mul_length_le (inst : BitVec 32) (pc : BitVec 64) (rinfo : RewriteInfo) :
    4 * (a64Rewrite inst pc rinfo).1.length ≤ 28 ∧ (a64Rewrite inst pc rinfo).2 ≤ 28 := by
  obtain ⟨hlen, htable⟩ := a64Rewrite_len inst pc rinfo
  have hle := a64GetRewriteInstLen_le inst
  omega

/-- A range inside another. -/
theorem spans_mono {i k m : ℕ} (h : Spans (a + BitVec.ofNat 64 i) k b) (hle : i + k ≤ m) :
    Spans a m b := by
  obtain ⟨j, hj, rfl⟩ := spans_iff.mp h
  rw [add_ofNat_add]
  exact spans_add (by omega)

theorem rewriteLoop_succ : rewriteLoop rinfo pc off mem (n + 1) =
    if (a64Rewrite (load 4 mem pc) pc rinfo).2 = 0 then
      (none, putWords mem (rinfo.buf + BitVec.ofNat 64 off)
        (a64Rewrite (load 4 mem pc) pc rinfo).1)
    else rewriteLoop rinfo (pc + 4) (off + (a64Rewrite (load 4 mem pc) pc rinfo).2)
      (putWords mem (rinfo.buf + BitVec.ofNat 64 off) (a64Rewrite (load 4 mem pc) pc rinfo).1)
      n := rfl

/-- The rewriting stays in the enter. -/
theorem rewriteLoop_out (h : off + 28 * n ≤ 256) (hb : ¬ Spans rinfo.buf 256 b) :
    (rewriteLoop rinfo pc off mem n).2 b = mem b := by
  induction n generalizing pc off mem with
  | zero => rfl
  | succ n ih =>
    obtain ⟨hwords, hlen⟩ := four_mul_length_le (load 4 mem pc) pc rinfo
    have hout : putWords mem (rinfo.buf + BitVec.ofNat 64 off)
        (a64Rewrite (load 4 mem pc) pc rinfo).1 b = mem b :=
      putWords_out fun hs => hb (spans_mono hs (by omega))
    rw [rewriteLoop_succ]
    split_ifs
    · exact hout
    · rw [ih (by omega), hout]

/-- Instructions that were all moved lie in the enter, block after block. -/
theorem rewriteLoop_ok {off' : ℕ} (hcode : CodeAt mem pc insts)
    (hfit : off + 28 * insts.length ≤ 256)
    (hapart : ∀ b, Spans pc (4 * insts.length) b → ¬ Spans rinfo.buf 256 b)
    (h : rewriteLoop rinfo pc off mem insts.length = (some off', mem')) :
    Movable rinfo pc insts ∧ off' = off + blockOffset insts insts.length ∧
      CodeAt mem' (rinfo.buf + BitVec.ofNat 64 off) (blocks rinfo pc insts) ∧
      ∀ b, ¬ Spans (rinfo.buf + BitVec.ofNat 64 off) (blockOffset insts insts.length) b →
        mem' b = mem b := by
  induction insts generalizing pc off mem with
  | nil =>
    obtain ⟨hoff, rfl⟩ := Prod.mk.inj h
    exact ⟨trivial, (Option.some.inj hoff).symm, trivial, fun _ _ => rfl⟩
  | cons inst insts ih =>
    obtain ⟨hword, hrest⟩ := hcode
    rw [List.length_cons] at hfit hapart h
    rw [rewriteLoop_succ, hword] at h
    obtain ⟨hwords, -⟩ := four_mul_length_le inst pc rinfo
    split_ifs at h with hzero
    · exact absurd (Prod.mk.inj h).1 (by simp)
    have hlen := four_mul_length_block hzero
    have htable := (a64Rewrite_len inst pc rinfo).2.resolve_left hzero
    rw [htable] at h
    have hwrite : ∀ b, ¬ Spans (rinfo.buf + BitVec.ofNat 64 off)
        (4 * (a64Rewrite inst pc rinfo).1.length) b → putWords mem
          (rinfo.buf + BitVec.ofNat 64 off) (a64Rewrite inst pc rinfo).1 b = mem b :=
      fun b => putWords_out
    have hrest' := hrest.congr fun b hb => hwrite b fun hs =>
      hapart b (spans_succ hb) (spans_mono hs (by omega))
    obtain ⟨hmov, rfl, hblocks, hout⟩ := ih hrest' (by omega)
      (fun b hb => hapart b (spans_succ hb)) h
    have htotal := blockOffset_le insts
    have hnext : rinfo.buf + BitVec.ofNat 64 (off + a64GetRewriteInstLen inst) =
        rinfo.buf + BitVec.ofNat 64 off + BitVec.ofNat 64 (a64GetRewriteInstLen inst) :=
      (add_ofNat_add ..).symm
    refine ⟨⟨hzero, hmov⟩, ?_, ?_, ?_⟩
    · rw [List.length_cons, blockOffset_cons, Nat.add_assoc]
    · refine codeAt_append.mpr ⟨?_, by rwa [hlen, ← hnext]⟩
      refine (codeAt_putWords mem _ (by omega)).congr fun b hb => hout b ?_
      rw [hlen] at hb
      exact hnext ▸ not_spans_add (by omega) hb
    · intro b hb
      rw [List.length_cons, blockOffset_cons] at hb
      rw [hout b, hwrite b]
      · exact fun hs => hb (by rw [hlen] at hs; exact Nat.lt_of_lt_of_le hs (by omega))
      · rw [hnext]
        exact fun hs => hb (spans_mono hs (by omega))

/-! One way to patch. -/

variable {inst inst' : Inst} {targetAddr newAddr : BitVec 64} {trampo : List (BitVec 32)}
  {ans : PatchAnswers} {r : ℤ}

/-- The rewriting of a function keeps to the enter and, unless it fails, leaves the moved code
there. -/
theorem instHookRewrite_spec (hn : n ≤ 4)
    (hapart : ∀ b, Spans targetAddr (4 * n) b → ¬ Spans inst.enterAddr 256 b)
    (h : instHookRewrite inst mem targetAddr n = (r, inst', mem')) :
    inst' = { inst with backup := loadWords mem targetAddr n } ∧
      (∀ b, ¬ Spans inst.enterAddr 256 b → mem' b = mem b) ∧
      (r = 0 → Movable (inst'.rewriteInfo targetAddr) targetAddr inst'.backup ∧
        CodeAt mem' inst'.enterAddr (inst'.code targetAddr)) := by
  obtain ⟨insts, hinsts⟩ : ∃ insts, insts = loadWords mem targetAddr n := ⟨_, rfl⟩
  have hlen : insts.length = n := by rw [hinsts, length_loadWords]
  obtain ⟨rinfo, hrinfo⟩ : ∃ rinfo, rinfo = rewriteInfo mem targetAddr inst.enterAddr n := ⟨_, rfl⟩
  have hbuf : rinfo.buf = inst.enterAddr := by rw [hrinfo, rewriteInfo]
  have hcode : CodeAt mem targetAddr insts := by
    rw [codeAt_iff_loadWords, hlen, hinsts]
  simp only [instHookRewrite, ← hinsts, ← hrinfo] at h
  split at h
  · next mem₁ hloop =>
    obtain ⟨rfl, rfl, rfl⟩ : _ ∧ _ ∧ _ := by simpa using h
    refine ⟨by rw [hinsts], fun b hb => ?_, fun hr => absurd hr (by decide)⟩
    have hout : (rewriteLoop rinfo targetAddr 0 mem n).2 b = mem b :=
      rewriteLoop_out (by omega) (hbuf ▸ hb)
    rwa [hloop] at hout
  · next bufOffset mem₁ hloop =>
    obtain ⟨hr, hinst, hmem⟩ : r = 0 ∧ inst' = { inst with backup := insts } ∧
        mem' = putWords mem₁ (inst.enterAddr + BitVec.ofNat 64 bufOffset)
          (a64AbsoluteJumpWithRet (targetAddr + BitVec.ofNat 64 (4 * n))).1 := by
      simpa [eq_comm] using h
    obtain ⟨hmov, hoff, hblocks, hframe⟩ := rewriteLoop_ok hcode (by omega)
      (by rw [hlen, hbuf]; exact hapart) (hlen.symm ▸ hloop)
    rw [Nat.zero_add] at hoff
    rw [BitVec.add_zero] at hblocks hframe
    have htotal := blockOffset_le insts
    have hsame : inst'.rewriteInfo targetAddr = rinfo := by
      rw [hinst, hrinfo, Inst.rewriteInfo, rewriteInfo, hlen, hinsts]
    have hback : ∀ b, ¬ Spans (inst.enterAddr + BitVec.ofNat 64 bufOffset) 16 b →
        mem' b = mem₁ b := fun b hb => by rw [hmem]; exact putWords_out hb
    refine ⟨hinst.trans (by rw [hinsts]), fun b hb => ?_, fun _ => ?_⟩
    · rw [hback b fun hs => hb (spans_mono hs (by omega)), hframe b]
      exact fun hs => hb (hbuf ▸ Nat.lt_of_lt_of_le hs (by omega))
    · have hlen' := four_mul_length_blocks hmov
      rw [hsame, Inst.code, hsame, hinst]
      refine ⟨hmov, codeAt_append.mpr ⟨?_, ?_⟩⟩
      · rw [hbuf] at hblocks
        refine hblocks.congr fun b hb => hback b ?_
        rw [hlen', ← hoff] at hb
        exact not_spans_add (by omega) hb
      · rw [hlen', ← hoff, hmem, hrinfo, rewriteInfo]
        exact codeAt_putWords _ _ (show 16 ≤ 2 ^ 64 by decide)

/-- The moved code takes up at most half of an enter. -/
theorem Inst.four_mul_length_code (hmov : Movable (inst.rewriteInfo targetAddr) targetAddr
      inst.backup) (hlen : inst.backup.length ≤ 4) :
    4 * (inst.code targetAddr).length ≤ 128 := by
  have htotal := blockOffset_le inst.backup
  rw [Inst.code, List.length_append, Nat.mul_add, four_mul_length_blocks hmov]
  have hback : (a64AbsoluteJumpWithRet (inst.rewriteInfo targetAddr).endAddr).1.length = 4 := rfl
  omega

/-- One way to patch, by its answers. -/
theorem instPatch_spec (hlen : trampo.length ≤ 4)
    (hapart : ∀ b, Spans targetAddr (4 * trampo.length) b → ¬ Spans inst.enterAddr 256 b)
    (h : instPatch inst mem targetAddr trampo ans = (r, inst', mem')) :
    (inst'.enterAddr = inst.enterAddr ∧ inst'.exitAddr = inst.exitAddr ∧
      inst'.exitType = inst.exitType ∧ inst'.exit = inst.exit) ∧
    (∀ b, ¬ Spans inst.enterAddr 256 b →
      (r = 0 → ¬ Spans targetAddr (4 * trampo.length) b) → mem' b = mem b) ∧
    (r = 0 → inst'.trampo = trampo ∧ inst'.backup = loadWords mem targetAddr trampo.length ∧
      Movable (inst'.rewriteInfo targetAddr) targetAddr inst'.backup ∧
      CodeAt mem' targetAddr trampo ∧
      CodeAt mem' inst'.enterAddr (inst'.code targetAddr)) := by
  rw [instPatch] at h
  split_ifs at h with hmprot hread
  · obtain ⟨rfl, rfl, rfl⟩ : _ ∧ _ ∧ _ := by simpa using h
    exact ⟨⟨rfl, rfl, rfl, rfl⟩, fun _ _ _ => rfl, fun hr => absurd hr (by decide)⟩
  · obtain ⟨rfl, rfl, rfl⟩ : _ ∧ _ ∧ _ := by simpa using h
    exact ⟨⟨rfl, rfl, rfl, rfl⟩, fun _ _ _ => rfl, fun hr => absurd hr (by decide)⟩
  · obtain ⟨r₁, inst₁, mem₁, hrw⟩ : ∃ r₁ inst₁ mem₁,
      instHookRewrite inst mem targetAddr trampo.length = (r₁, inst₁, mem₁) := ⟨_, _, _, rfl⟩
    obtain ⟨hinst, hout, hok⟩ := instHookRewrite_spec hlen hapart hrw
    rw [hrw] at h
    simp only at h
    split_ifs at h with hr
    · obtain ⟨rfl, rfl, rfl⟩ : _ ∧ _ ∧ _ := by simpa using h
      rw [hinst]
      exact ⟨⟨rfl, rfl, rfl, rfl⟩, fun b hb _ => hout b hb, fun hr' => absurd hr' hr⟩
    · obtain ⟨hr', hinst', hmem'⟩ : (writeInst mem₁ targetAddr trampo ans.write).1 = r ∧
          inst' = { inst₁ with trampo := trampo } ∧
          mem' = (writeInst mem₁ targetAddr trampo ans.write).2 := by
        simpa [eq_comm] using h
      refine ⟨by rw [hinst', hinst]; exact ⟨rfl, rfl, rfl, rfl⟩, fun b hb htarget => ?_, ?_⟩
      · cases hw : ans.write <;> rw [hw] at hr' hmem' <;> rw [hmem', ← hout b hb]
        · exact putWords_out (htarget hr'.symm)
        · rfl
        · rfl
      · rintro rfl
        obtain ⟨hmov, hcode⟩ := hok (not_not.mp hr)
        have hwrite : mem' = putWords mem₁ targetAddr trampo := by
          cases hw : ans.write <;> rw [hw] at hr' hmem'
          · exact hmem'
          · exact absurd hr' (show ¬ SHADOWHOOK_ERRNO_MPROT = 0 by decide)
          · exact absurd hr' (show ¬ SHADOWHOOK_ERRNO_WRITE_CRASH = 0 by decide)
        have hsame : inst'.rewriteInfo targetAddr = inst₁.rewriteInfo targetAddr ∧
            inst'.code targetAddr = inst₁.code targetAddr := by
          rw [hinst']
          exact ⟨rfl, rfl⟩
        refine ⟨by rw [hinst'], by rw [hinst', hinst], ?_, ?_, ?_⟩
        · rw [hsame.1, hinst']
          exact hmov
        · rw [hwrite]
          exact codeAt_putWords _ _ (by omega)
        · rw [hsame.2, hwrite, hinst']
          have hfit := Inst.four_mul_length_code hmov (by rw [hinst, length_loadWords]; exact hlen)
          refine hcode.congr fun b hb => putWords_out fun hs => hapart b hs ?_
          rw [hinst] at hb hfit
          exact Nat.lt_of_lt_of_le hb (by omega)

/-! A hook. -/

/-- A function that is patched: its head jumps to `newAddr`, its first instructions are in the
enter. -/
structure Inst.Patches (inst : Inst) (targetAddr newAddr : BitVec 64) (mem : Mem) : Prop where
  same : inst.trampo.length = inst.backup.length
  pos : 0 < inst.backup.length
  le : inst.backup.length ≤ 4
  movable : Movable (inst.rewriteInfo targetAddr) targetAddr inst.backup
  trampo : CodeAt mem targetAddr inst.trampo
  enter : CodeAt mem inst.enterAddr (inst.code targetAddr)
  leads : (inst.exitAddr = 0 ∧ inst.trampo = (a64AbsoluteJumpWithBr newAddr).1) ∨
    (inst.exitAddr ≠ 0 ∧ InReach targetAddr inst.exitAddr ∧
      inst.trampo = (a64RelativeJump inst.exitAddr targetAddr).1 ∧
      inst.exit = (a64AbsoluteJumpWithBr newAddr).1 ∧ CodeAt mem inst.exitAddr inst.exit)

/-- The place that is to be an exit. -/
def HookAnswers.exitAddr? (ans : HookAnswers) : Option (BitVec 64) :=
  match ans.exit with
  | .inl _ => none
  | .inr (_, exitAddr) => some exitAddr

/-- What the allocators promise: an enter and an exit that lie apart from the head of the function
and from each other, the exit in reach of it. -/
structure HookAnswers.Roomy (ans : HookAnswers) (targetAddr : BitVec 64) (ssize : ℕ) : Prop where
  bytes : ∀ cell ∈ ans.enterBytes ++ ans.exitBytes, ¬ Spans targetAddr (min ssize 16) cell.1
  enter : ∀ b, Spans targetAddr (min ssize 16) b → ¬ Spans ans.enterAddr 256 b
  failed : ∀ r, ans.exit = .inl r → r ≠ 0
  exit : ∀ exitAddr, ans.exitAddr? = some exitAddr → exitAddr ≠ 0 ∧
    InReach targetAddr exitAddr ∧
    ∀ b, Spans exitAddr 16 b →
      ¬ Spans targetAddr (min ssize 16) b ∧ ¬ Spans ans.enterAddr 256 b

/-- The bytes that a hook may write to besides the head of the function. -/
def HookAnswers.Private (ans : HookAnswers) (b : BitVec 64) : Prop :=
  Spans ans.enterAddr 256 b ∨
    (∃ exitAddr, ans.exitAddr? = some exitAddr ∧ Spans exitAddr 16 b) ∨
    ∃ cell ∈ ans.enterBytes ++ ans.exitBytes, cell.1 = b

/-- What is said of one of the two ways to hook. -/
structure HookSpec (mem : Mem) (targetAddr : BitVec 64) (ssize : ℕ) (newAddr : BitVec 64)
    (ans : HookAnswers) (r : ℤ) (inst : Inst) (mem' : Mem) : Prop where
  enterAddr : inst.enterAddr = ans.enterAddr
  out : ∀ b, ¬ ans.Private b → (r = 0 → ¬ Spans targetAddr (4 * inst.backup.length) b) →
    mem' b = mem b
  patches : r = 0 → inst.Patches targetAddr newAddr mem'
  exitAddr : inst.exitAddr = 0 ∨ r = 0 ∧ ans.exitAddr? = some inst.exitAddr
  backup : r = 0 → inst.backup = loadWords mem targetAddr inst.backup.length
  fits : r = 0 → 4 * inst.backup.length ≤ ssize
  type : inst.exitAddr ≠ 0 → ans.exit = .inr (inst.exitType, inst.exitAddr)

variable {ssize : ℕ} {hans : HookAnswers}

theorem exitFree_out {readable mprotect : Bool} (hb : ¬ Spans inst.exitAddr 16 b) :
    (exitFree mem inst readable mprotect).2 b = mem b := by
  rw [exitFree]
  cases inst.exitType with
  | outLibrary => rfl
  | inLibrary =>
    simp only
    split_ifs
    · rfl
    · rfl
    · rfl
    · exact putWords_out hb

/-- What is written elsewhere does not matter. -/
theorem writeBytes_out {bytes : List (BitVec 64 × BitVec 8)} (hb : ∀ cell ∈ bytes, cell.1 ≠ b) :
    writeBytes mem bytes b = mem b := by
  induction bytes generalizing mem with
  | nil => rfl
  | cons cell bytes ih =>
    obtain ⟨hcell, hrest⟩ := List.forall_mem_cons.mp hb
    exact (ih hrest).trans (Function.update_of_ne hcell.symm ..)

/-- The head of the function is nobody's. -/
theorem HookAnswers.Roomy.not_private (hroomy : hans.Roomy targetAddr ssize)
    (hb : Spans targetAddr (min ssize 16) b) : ¬ hans.Private b := by
  rintro (hs | ⟨exitAddr, haddr, hs⟩ | ⟨cell, hcell, rfl⟩)
  · exact hroomy.enter b hb hs
  · exact ((hroomy.exit exitAddr haddr).2.2 b hs).1 hb
  · exact hroomy.bytes cell hcell hb

/-- What has been written to nobody's bytes before does not matter. -/
theorem HookSpec.congr {mem₀ : Mem} (h : HookSpec mem₀ targetAddr ssize newAddr hans r inst mem')
    (hroomy : hans.Roomy targetAddr ssize) (hkept : ∀ b, ¬ hans.Private b → mem₀ b = mem b) :
    HookSpec mem targetAddr ssize newAddr hans r inst mem' := by
  refine ⟨h.enterAddr, fun b hb htarget => (h.out b hb htarget).trans (hkept b hb), h.patches,
    h.exitAddr, fun hr => (h.backup hr).trans ?_, h.fits, h.type⟩
  refine loadWords_congr fun b hb => hkept b (hroomy.not_private ?_)
  have hle := (h.patches hr).le
  have hfits := h.fits hr
  exact Nat.lt_of_lt_of_le hb (by omega)

theorem HookSpec.of_error (hr : r ≠ 0) (henter : inst.enterAddr = hans.enterAddr)
    (hexit : inst.exitAddr = 0) (hout : ∀ b, ¬ hans.Private b → mem' b = mem b) :
    HookSpec mem targetAddr ssize newAddr hans r inst mem' :=
  ⟨henter, fun b hb _ => hout b hb, fun h => absurd h hr, .inl hexit, fun h => absurd h hr,
    fun h => absurd h hr, fun h => absurd hexit h⟩

/-- A hook by way of an exit. -/
theorem instHookWithExit_spec (hroomy : hans.Roomy targetAddr ssize)
    (henter : inst.enterAddr = hans.enterAddr) (hexit : inst.exitAddr = 0)
    (h : instHookWithExit inst mem targetAddr ssize newAddr hans = (r, inst', mem')) :
    HookSpec mem targetAddr ssize newAddr hans r inst' mem' := by
  rw [instHookWithExit] at h
  split_ifs at h with hsize
  · obtain ⟨rfl, rfl, rfl⟩ : _ ∧ _ ∧ _ := by simpa using h
    exact .of_error (by decide) henter hexit fun _ _ => rfl
  have hbytes : ∀ b, ¬ hans.Private b → writeBytes mem hans.exitBytes b = mem b := fun b hb =>
    writeBytes_out fun cell hcell he =>
      hb (.inr (.inr ⟨cell, List.mem_append_right _ hcell, he⟩))
  cases hanswer : hans.exit with
  | inl e =>
    simp only [exitAlloc, hanswer] at h
    obtain ⟨rfl, rfl, rfl⟩ : _ ∧ _ ∧ _ := by simpa using h
    exact .of_error (hroomy.failed e hanswer) henter rfl hbytes
  | inr place =>
    obtain ⟨exitType, exitAddr⟩ := place
    have haddr : hans.exitAddr? = some exitAddr := by rw [HookAnswers.exitAddr?, hanswer]
    obtain ⟨hne, hreach, hapart⟩ := hroomy.exit exitAddr haddr
    obtain ⟨inst₁, hinst₁⟩ : ∃ inst₁, inst₁ = { inst with
      exit := (a64AbsoluteJumpWithBr newAddr).1, exitType := exitType, exitAddr := exitAddr } :=
      ⟨_, rfl⟩
    obtain ⟨mem₁, hmem₁⟩ : ∃ mem₁, mem₁ = putWords (writeBytes mem hans.exitBytes) exitAddr
      (a64AbsoluteJumpWithBr newAddr).1 := ⟨_, rfl⟩
    have hprivate : ∀ b, Spans exitAddr 16 b → hans.Private b := fun b hs =>
      .inr (.inl ⟨exitAddr, haddr, hs⟩)
    have hwrite : ∀ b, ¬ hans.Private b → mem₁ b = mem b := fun b hb => by
      rw [hmem₁, ← hbytes b hb]
      exact putWords_out fun hs => hb (hprivate b hs)
    obtain ⟨r₂, inst₂, mem₂, hpatch⟩ : ∃ r₂ inst₂ mem₂, instPatch inst₁ mem₁ targetAddr
      (a64RelativeJump exitAddr targetAddr).1 hans.withExit = (r₂, inst₂, mem₂) := ⟨_, _, _, rfl⟩
    simp only [exitAlloc, hanswer, ← hinst₁, ← hmem₁, hpatch] at h
    have htrampo : (a64RelativeJump exitAddr targetAddr).1.length = 1 := rfl
    have henter₁ : inst₁.enterAddr = hans.enterAddr := by rw [hinst₁, henter]
    obtain ⟨⟨henter₂, hexit₂, htype₂, hcode₂⟩, hout, hok⟩ := instPatch_spec (by omega)
      (fun b hb => by
        rw [henter₁]
        exact hroomy.enter b (Nat.lt_of_lt_of_le hb (by omega))) hpatch
    rw [henter₁] at henter₂ hout
    rw [htrampo] at hout hok
    have hout' : ∀ b, ¬ hans.Private b → (r₂ = 0 → ¬ Spans targetAddr 4 b) → mem₂ b = mem b :=
      fun b hb htarget => (hout b (fun hs => hb (.inl hs)) htarget).trans (hwrite b hb)
    split_ifs at h with hr
    · obtain ⟨rfl, rfl, rfl⟩ : 0 = r ∧ inst₂ = inst' ∧ mem₂ = mem' := by simpa using h
      obtain ⟨hsame, hbackup, hmov, hhead, henterCode⟩ := hok hr
      have hlen : inst₂.backup.length = 1 := by rw [hbackup, length_loadWords]
      have haddr₂ : inst₂.exitAddr = exitAddr := by rw [hexit₂, hinst₁]
      have hexitCode : CodeAt mem₂ exitAddr (a64AbsoluteJumpWithBr newAddr).1 := by
        have hcode : CodeAt mem₁ exitAddr (a64AbsoluteJumpWithBr newAddr).1 := by
          rw [hmem₁]
          exact codeAt_putWords _ _ (show 16 ≤ 2 ^ 64 by decide)
        refine hcode.congr fun b hb => hout b (hapart b hb).2 fun _ hs => (hapart b hb).1 ?_
        exact Nat.lt_of_lt_of_le hs (by omega)
      refine ⟨henter₂, fun b hb htarget => hout' b hb fun _ => ?_, fun _ => ?_,
        .inr ⟨rfl, by rw [haddr, haddr₂]⟩, fun _ => ?_, fun _ => by omega,
        fun _ => by rw [hanswer, htype₂, haddr₂, hinst₁]⟩
      · have hb' := htarget rfl
        rwa [hlen] at hb'
      · refine ⟨by rw [hsame, htrampo, hlen], by omega, by omega, hmov, by rwa [hsame], henterCode,
          .inr ⟨by rwa [haddr₂], by rwa [haddr₂], by rw [hsame, haddr₂], ?_, ?_⟩⟩
        · rw [hcode₂, hinst₁]
        · rw [hcode₂, haddr₂, hinst₁]
          exact hexitCode
      · rw [hlen, hbackup]
        refine loadWords_congr fun b hb => hwrite b (hroomy.not_private ?_)
        exact Nat.lt_of_lt_of_le hb (by omega)
    · obtain ⟨rfl, rfl, rfl⟩ : r₂ = r ∧ { inst₂ with exitAddr := 0 } = inst' ∧
        (exitFree mem₂ inst₂ true hans.exitMprotect).2 = mem' := by simpa using h
      refine .of_error hr henter₂ rfl fun b hb => ?_
      rw [exitFree_out, hout' b hb fun hr' => absurd hr' hr]
      rw [hexit₂, hinst₁]
      exact fun hs => hb (hprivate b hs)

/-- A hook by a jump to an address of its own. -/
theorem instHookWithoutExit_spec (hroomy : hans.Roomy targetAddr ssize)
    (henter : inst.enterAddr = hans.enterAddr) (hexit : inst.exitAddr = 0)
    (h : instHookWithoutExit inst mem targetAddr ssize newAddr hans = (r, inst', mem')) :
    HookSpec mem targetAddr ssize newAddr hans r inst' mem' := by
  have htrampo : (a64AbsoluteJumpWithBr newAddr).1.length = 4 := rfl
  rw [instHookWithoutExit] at h
  split_ifs at h with hsize
  · obtain ⟨rfl, rfl, rfl⟩ : _ ∧ _ ∧ _ := by simpa using h
    exact .of_error (by decide) henter hexit fun _ _ => rfl
  obtain ⟨⟨henter', hexit', -, -⟩, hout, hok⟩ := instPatch_spec (by rw [htrampo])
    (by
      rw [htrampo, henter]
      exact fun b hb => hroomy.enter b (Nat.lt_of_lt_of_le hb (by omega))) h
  rw [htrampo, henter] at hout
  rw [htrampo] at hok
  have hlen : r = 0 → inst'.backup.length = 4 := fun hr => by
    rw [(hok hr).2.1, length_loadWords]
  refine ⟨henter'.trans henter, fun b hb htarget => ?_, fun hr => ?_, .inl (hexit'.trans hexit),
    fun hr => ?_, fun hr => ?_, fun hne => absurd (hexit'.trans hexit) hne⟩
  · exact hout b (fun hs => hb (.inl hs)) fun hr => by
      have := htarget hr
      rwa [hlen hr] at this
  · obtain ⟨hsame, -, hmov, hcode, henterCode⟩ := hok hr
    have hlen := hlen hr
    exact ⟨by rw [hsame, htrampo, hlen], by omega, by omega, hmov, by rwa [hsame], henterCode,
      .inl ⟨hexit'.trans hexit, hsame⟩⟩
  · rw [hlen hr, (hok hr).2.1]
  · rw [hlen hr]
    omega

/-- A hook whose allocators keep their promise patches the function and hands out the enter, or it
leaves the function alone. -/
theorem instHook_spec {orig : Option (BitVec 64)} (hroomy : hans.Roomy targetAddr ssize)
    (hexit : inst.exitAddr = 0)
    (h : instHook inst mem targetAddr ssize newAddr hans = (r, inst', mem', orig)) :
    HookSpec mem targetAddr ssize newAddr hans r inst' mem' ∧
      (r = 0 → orig = some inst'.enterAddr) ∧ (r ≠ 0 → orig = none ∨ orig = some 0) := by
  obtain ⟨inst₁, hinst₁⟩ : ∃ inst₁, inst₁ = { inst with enterAddr := hans.enterAddr } := ⟨_, rfl⟩
  obtain ⟨mem₁, hmem₁⟩ : ∃ mem₁, mem₁ = writeBytes mem hans.enterBytes := ⟨_, rfl⟩
  have henter₁ : inst₁.enterAddr = hans.enterAddr := by rw [hinst₁]
  have hexit₁ : inst₁.exitAddr = 0 := by rw [hinst₁, hexit]
  have hkept₁ : ∀ b, ¬ hans.Private b → mem₁ b = mem b := fun b hb => by
    rw [hmem₁]
    exact writeBytes_out fun cell hcell he =>
      hb (.inr (.inr ⟨cell, List.mem_append_left _ hcell, he⟩))
  simp only [instHook, ← hinst₁, ← hmem₁] at h
  by_cases henter : hans.enterAddr = 0
  · rw [if_pos henter] at h
    obtain ⟨rfl, rfl, rfl, rfl⟩ : _ ∧ _ ∧ _ ∧ _ := by simpa using h
    have hne : SHADOWHOOK_ERRNO_HOOK_ENTER ≠ 0 := by decide
    exact ⟨.of_error hne henter₁ hexit₁ hkept₁, fun hr => absurd hr hne, fun _ => .inl rfl⟩
  obtain ⟨r₂, inst₂, mem₂, hfirst⟩ : ∃ r₂ inst₂ mem₂,
      instHookWithExit inst₁ mem₁ targetAddr ssize newAddr hans = (r₂, inst₂, mem₂) :=
    ⟨_, _, _, rfl⟩
  have hspec₂ := instHookWithExit_spec hroomy henter₁ hexit₁ hfirst
  simp only [if_neg henter, hfirst] at h
  by_cases hr₂ : r₂ = 0
  · rw [if_pos hr₂] at h
    obtain ⟨rfl, rfl, rfl, rfl⟩ : _ ∧ _ ∧ _ ∧ _ := by simpa using h
    exact ⟨hspec₂.congr hroomy hkept₁, fun _ => rfl, fun hr => absurd hr₂ hr⟩
  obtain ⟨r₃, inst₃, mem₃, hsecond⟩ : ∃ r₃ inst₃ mem₃,
      instHookWithoutExit inst₂ mem₂ targetAddr ssize newAddr hans = (r₃, inst₃, mem₃) :=
    ⟨_, _, _, rfl⟩
  -- The first way has left the function as it was.
  have hspec₃ := (instHookWithoutExit_spec hroomy hspec₂.enterAddr
    (hspec₂.exitAddr.resolve_right fun h => hr₂ h.1) hsecond).congr hroomy fun b hb =>
      (hspec₂.out b hb fun h => absurd h hr₂).trans (hkept₁ b hb)
  simp only [if_neg hr₂, hsecond] at h
  split_ifs at h with hr₃
  · obtain ⟨rfl, rfl, rfl, rfl⟩ : _ ∧ _ ∧ _ ∧ _ := by simpa using h
    exact ⟨hspec₃, fun _ => rfl, fun hr => absurd hr₃ hr⟩
  · obtain ⟨rfl, rfl, rfl, rfl⟩ : _ ∧ _ ∧ _ ∧ _ := by simpa using h
    exact ⟨hspec₃, fun hr => absurd hr hr₃, fun _ => .inr rfl⟩

/-! An unhook. -/

/-- The head of the function can be read and written. -/
def UnhookAnswers.Reaches (ans : UnhookAnswers) : Prop := ans.readable = true ∧ ans.write = .ok

/-- An unhook puts the head of the function back, and then gives up the exit. -/
theorem instUnhook_of_reaches {uans : UnhookAnswers}
    (hpatch : inst.Patches targetAddr newAddr mem) (h : uans.Reaches) :
    instUnhook inst mem targetAddr uans =
      if inst.exitAddr ≠ 0 then
        exitFree (putWords mem targetAddr inst.backup) inst uans.exitReadable uans.exitMprotect
      else (0, putWords mem targetAddr inst.backup) := by
  have hhead : loadWords mem targetAddr inst.trampo.length = inst.trampo :=
    codeAt_iff_loadWords.mp hpatch.trampo
  rw [instUnhook, if_neg (by rw [h.1]; decide), if_neg (not_not.mpr hhead), h.2]
  rfl

/-- An unhook that cannot get there fails and does nothing. -/
theorem instUnhook_of_not {uans : UnhookAnswers} (h : ¬ uans.Reaches) :
    (instUnhook inst mem targetAddr uans).1 ≠ 0 ∧
      (instUnhook inst mem targetAddr uans).2 = mem := by
  rw [instUnhook]
  split_ifs with hread
  · exact ⟨show ¬ SHADOWHOOK_ERRNO_UNHOOK_CMP_CRASH = 0 by decide, rfl⟩
  · exact ⟨show ¬ SHADOWHOOK_ERRNO_UNHOOK_TRAMPO_MISMATCH = 0 by decide, rfl⟩
  all_goals
    rw [Bool.not_eq_false] at hread
    cases hw : uans.write with
    | ok => exact absurd ⟨hread, hw⟩ h
    | mprotect => exact ⟨show ¬ SHADOWHOOK_ERRNO_MPROT = 0 by decide, rfl⟩
    | crash => exact ⟨show ¬ SHADOWHOOK_ERRNO_WRITE_CRASH = 0 by decide, rfl⟩

end NativeLib.ShadowHook
