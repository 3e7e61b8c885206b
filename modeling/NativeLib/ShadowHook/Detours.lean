import NativeLib.ShadowHook.Prologue
import NativeLib.ShadowHook.Unhooked

/-! What a call of a hooked function and a call of the original come to, after any run of hooks,
unhooks and stores in which each step may be taken: no hook overlaps what is patched, and no store
goes there. -/

namespace NativeLib.ShadowHook

open Arm64 Interaction

variable {other : BitVec 32 → Cpu → Cpu} {p q : Process} {ops : List Op} {switch : Switch}
  {mem : Mem} {b newAddr : BitVec 64} {s s' : Cpu}

/-- A process in which nothing has been patched yet. -/
theorem Process.Sound.of_nil (hp : p.patches = []) : p.Sound := by
  rw [Process.Sound, hp]
  exact ⟨fun _ hs => absurd hs List.not_mem_nil, .nil⟩

/-- The code of an absolute jump gets there. -/
theorem reaches_absoluteJump (h : CodeAt s.mem s.pc (a64AbsoluteJumpWithBr newAddr).1) :
    Reaches (step other) s ((s.setReg 17 newAddr).jump newAddr) := by
  have hreach : Reaches (step other) (s.jump s.pc) _ := reaches_br_address other (by decide) h
  rwa [highWord_append_lowWord] at hreach

/-- A core that enters a patched function gets to the new one. -/
theorem Switch.InPlace.leads (h : switch.InPlace s.mem) (hpc : s.pc = switch.targetAddr) :
    Reaches (step other) s ((s.setReg 17 switch.newAddr).jump switch.newAddr) := by
  have htrampo := h.patches.trampo
  rcases h.patches.leads with ⟨-, habsolute⟩ | ⟨-, hreach, hrelative, hexit, hcode⟩
  · rw [habsolute] at htrampo
    exact reaches_absoluteJump (hpc ▸ htrampo)
  · obtain ⟨word, hwords, hdecode⟩ := decode_relativeJump hreach
    rw [hrelative, hwords] at htrampo
    have hjump : Reaches (step other) (s.jump switch.targetAddr) _ :=
      reaches_word word htrampo.1 (.refl _ _)
    rw [hdecode, exec_b, BitVec.add_comm, BitVec.sub_add_cancel] at hjump
    rw [hexit] at hcode
    rw [← hpc] at hjump
    exact hjump.trans (reaches_absoluteJump hcode)

theorem Switch.InPlace.isFor (h : switch.InPlace mem) :
    (switch.inst.rewriteInfo switch.targetAddr).For switch.inst.backup := by
  have hle := h.patches.le
  have hwrap := h.noWrap
  refine ⟨rfl, rfl, show switch.targetAddr.toNat + 4 * switch.inst.backup.length < 2 ^ 64 from ?_⟩
  omega

/-- The moved instructions of a patched function. -/
def Switch.InPlace.moved (h : switch.InPlace mem) : Moved where
  insts := switch.inst.backup
  rinfo := switch.inst.rewriteInfo switch.targetAddr
  isFor := h.isFor
  movable := h.patches.movable

/-- The moved instructions of a patched function do what those in front of it did before it was
patched. -/
theorem Switch.InPlace.atFirst (h : switch.InPlace mem) {regs : Set (BitVec 5)}
    {dirty : Set (BitVec 64)} (hagree : Agree regs dirty s s')
    (hold : CodeAt s.mem switch.targetAddr switch.inst.backup) (hmem : s'.mem = mem)
    (hpc : s.pc = switch.targetAddr) (hpc' : s'.pc = switch.inst.enterAddr) :
    h.moved.At regs dirty 0 s s' where
  agree := hagree
  old := hold
  new := hmem ▸ h.patches.enter
  lt := h.patches.pos
  pc := hpc.trans (BitVec.add_zero _).symm
  pc' := hpc'.trans (BitVec.add_zero _).symm

/-! A function at `0x1000`: `cbz x0, #12; nop; nop; b #64`. -/

def sample : Process :=
  ⟨putWords (fun _ => 0) 0x1000 [0xB4000060, 0xD503201F, 0xD503201F, 0x14000010], [], []⟩

def sampleAnswers : HookAnswers where
  enterAddr := 0x2000
  enterBytes := [(0x2000, 0)]
  exit := .inl 1
  exitBytes := []
  withExit := ⟨true, true, .ok⟩
  withoutExit := ⟨true, true, .ok⟩
  exitMprotect := true

def sampleHook : Op := .hook false true 0x1000 0x3000 64 sampleAnswers

def sampleSwitch : Switch where
  targetAddr := 0x1000
  newAddr := 0x3000
  inst :=
    { trampo := (a64AbsoluteJumpWithBr 0x3000).1
      backup := [0xB4000060, 0xD503201F, 0xD503201F, 0x14000010]
      exitType := .inLibrary
      exitAddr := 0
      exit := (a64AbsoluteJumpWithBr 0x3000).1
      enterAddr := 0x2000 }

/-- The process once the function is hooked. -/
def sampleHooked : Process := (sample.step sampleHook).2

theorem sample_run : Process.Run sample [sampleHook] sampleHooked := by
  refine .cons (fun _ _ _ => ⟨by decide, ⟨fun cell hcell => ?_, fun b hb hb' => ?_, fun r h => ?_,
    fun a h => ?_⟩, fun _ hs => absurd hs List.not_mem_nil⟩) (.nil _)
  · obtain rfl := List.mem_singleton.mp hcell
    decide
  · rw [Spans] at hb hb'
    rw [sampleAnswers] at hb'
    bv_omega
  · exact Sum.inl.inj h ▸ by decide
  · exact absurd h (by simp [HookAnswers.exitAddr?, sampleAnswers])

/-! After any such run. -/

/-- After any such run, a call of a patched function gets to its new function, and but for `x17`
nothing has changed by then. -/
theorem hooked_reaches_new (other : BitVec 32 → Cpu → Cpu) (hp : p.patches = [])
    (hrun : Process.Run p ops q) (hs : switch ∈ q.patches) (hmem : s.mem = q.mem)
    (hpc : s.pc = switch.targetAddr) :
    Reaches (step other) s ((s.setReg 17 switch.newAddr).jump switch.newAddr) := by
  have hsound := (Process.Sound.of_nil hp).run hrun
  exact (hmem ▸ hsound.inPlace switch hs : switch.InPlace s.mem).leads hpc

/-- After any such run, what no function that is still patched begins with and what was never handed
out to a hook is as the program has left it. -/
theorem run_restores {b : BitVec 64} (hp : p.patches = []) (hrun : Process.Run p ops q)
    (hb : ∀ op ∈ ops, ¬ op.Private b) (hheads : ∀ switch ∈ q.patches, ¬ switch.Head b) :
    q.mem b = stored p.mem ops b := by
  have hrun' := unhooked_run (Process.Sound.of_nil hp) hrun hb
    (hp ▸ fun _ hs => absurd hs List.not_mem_nil)
  rwa [hp, unhooked, unhooked_of_out hheads] at hrun'

/-- An unhook that fails is the last: as long as no hook goes over the head that is still patched
and no store into the patch, the function cannot be found, and its calls go to the new function. -/
theorem unhook_failed_forever (other : BitVec 32 → Cpu → Cpu) {targetAddr : BitVec 64}
    {ans : UnhookAnswers} (hsound : p.Sound) (hfind : p.find targetAddr = some switch)
    (hfailed : ¬ ans.Reaches) (hrun : Process.Run (p.step (.unhook targetAddr ans)).2 ops q) :
    (∀ ans', q.step (.unhook targetAddr ans') = (SHADOWHOOK_ERRNO_UNHOOK_NOTFOUND, q)) ∧
      ∀ s : Cpu, s.mem = q.mem → s.pc = targetAddr →
        Reaches (step other) s ((s.setReg 17 switch.newAddr).jump switch.newAddr) := by
  obtain ⟨-, rfl⟩ := find_eq_some hfind
  have hstep : (p.step (.unhook switch.targetAddr ans)).2 = _ :=
    switchUnhookUnique_of_not hfind hfailed
  have hsound' := hsound.step (show p.Allows (.unhook switch.targetAddr ans) from trivial)
  have hlost : switch ∈ (p.step (.unhook switch.targetAddr ans)).2.lost := by
    rw [hstep]
    exact List.mem_cons_self
  have hnone : (p.step (.unhook switch.targetAddr ans)).2.find switch.targetAddr = none := by
    rw [hstep, Process.find, List.find?_eq_none]
    exact fun s hs => by simpa using (List.mem_filter.mp hs).2
  obtain ⟨hs, hgone⟩ := Process.run_lost hsound' hrun hlost hnone
  refine ⟨fun ans' => ?_, fun s hmem hpc => ?_⟩
  · rw [Process.step, Process.switchUnhookUnique, hgone]
  · have hplace := (hsound'.run hrun).inPlace switch (List.mem_append_right _ hs)
    exact (hmem ▸ hplace : switch.InPlace s.mem).leads hpc

/-- The sample after an unhook that may not write. -/
def sampleKept : Process := (sampleHooked.step (.unhook 0x1000 ⟨true, .mprotect, true, true⟩)).2

theorem sampleKept_run : ∃ q, Process.Run sampleKept
    [.store 0x1010 1, .unhook 0x1000 ⟨true, .ok, true, true⟩] q := by
  refine ⟨_, .cons (fun switch hs => ?_) (.cons trivial (.nil _))⟩
  have hpatches : sampleKept.patches = [sampleSwitch] := by decide +kernel
  obtain rfl := List.mem_singleton.mp (hpatches ▸ hs)
  rintro (hhead | henter | ⟨hexit, -⟩)
  · exact absurd (show Spans 0x1000 16 0x1010 from hhead) (by decide)
  · exact absurd (show Spans 0x2000 256 0x1010 from henter) (by decide)
  · exact absurd rfl hexit

/-- A store behind the head and an unhook that may write come after it: one more unhook finds
nothing, and a call still gets to `0x3000`. -/
theorem sample_failed_forever : ∃ q, Process.Run sampleKept
    [.store 0x1010 1, .unhook 0x1000 ⟨true, .ok, true, true⟩] q ∧
    q.step (.unhook 0x1000 ⟨true, .ok, true, true⟩) = (SHADOWHOOK_ERRNO_UNHOOK_NOTFOUND, q) ∧
    ∀ s : Cpu, s.mem = q.mem → s.pc = 0x1000 →
      Reaches (step fun _ s => s.next) s ((s.setReg 17 0x3000).jump 0x3000) := by
  obtain ⟨q, hrun⟩ := sampleKept_run
  obtain ⟨hgone, hleads⟩ := unhook_failed_forever (fun _ s => s.next)
    ((Process.Sound.of_nil rfl).run sample_run)
    (show sampleHooked.find 0x1000 = some sampleSwitch by decide +kernel)
    (fun h => absurd h.2 (by decide)) hrun
  exact ⟨q, hrun, hgone _, hleads⟩

/-- After any such run, the original of a patched function does what the function does in a process
that has gone through the same stores and in which nothing has ever been hooked. -/
theorem orig_simulates (other : BitVec 32 → Cpu → Cpu) (hp : p.patches = [])
    (hrun : Process.Run p ops q) (hs : switch ∈ q.patches) {regs : Set (BitVec 5)}
    {dirty : Set (BitVec 64)} (hclean : ∀ op ∈ ops, ∀ b, switch.Head b → ¬ op.Private b)
    (hdirty : ∀ op ∈ ops, ∀ b, op.Private b → b ∈ dirty)
    (hheads : ∀ switch ∈ q.patches, ∀ b, switch.Head b → b ∈ dirty)
    (hx : ∀ r ∈ regs, s'.x r = s.x r) (hv : s'.v = s.v) (hnzcv : s'.nzcv = s.nzcv)
    (hmem : s.mem = stored p.mem ops) (hmem' : s'.mem = q.mem) (hpc : s.pc = switch.targetAddr)
    (hpc' : s'.pc = switch.inst.enterAddr) :
    ∃ m : Moved, m.insts = switch.inst.backup ∧
      m.rinfo = switch.inst.rewriteInfo switch.targetAddr ∧
      ∀ n, (∀ j < n, m.rinfo.Inside ((step other)^[j] s).pc) →
        ¬ m.rinfo.Inside ((step other)^[n] s).pc →
        (∀ j < n, m.Fine other regs dirty ((step other)^[j] s)) →
        ∃ t', Reaches (step other) s' t' ∧ m.Out regs dirty ((step other)^[n] s) t' := by
  have hsound := (Process.Sound.of_nil hp).run hrun
  have hplace := hsound.inPlace switch hs
  have hsame : ∀ b, (∀ op ∈ ops, ¬ op.Private b) → unhooked q.mem q.patches b = s.mem b := by
    intro b hb
    have hrun' := unhooked_run (Process.Sound.of_nil hp) hrun hb
      (hp ▸ fun _ hs => absurd hs List.not_mem_nil)
    rwa [hp, unhooked, ← hmem] at hrun'
  have hagree : Agree regs dirty s s' := by
    refine ⟨hx, hv, hnzcv, fun b hb => ?_⟩
    rw [hmem', ← hsame b fun op hop hprivate => hb (hdirty op hop b hprivate)]
    exact (unhooked_of_out fun switch hs hhead => hb (hheads switch hs b hhead)).symm
  have hold : CodeAt s.mem switch.targetAddr switch.inst.backup :=
    (codeAt_unhooked hsound hs).congr fun b hb =>
      (hsame b fun op hop => hclean op hop b hb).symm
  refine ⟨hplace.moved, rfl, rfl, fun n hin hout hfine => ?_⟩
  exact (hplace.atFirst hagree hold hmem' hpc hpc').simulates hin hout hfine

end NativeLib.ShadowHook
