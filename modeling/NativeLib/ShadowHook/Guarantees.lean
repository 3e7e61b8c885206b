import NativeLib.ShadowHook.SystemRuns

/-! What a process in which nothing has been hooked yet can count on in a run in which all that its
threads do is allowed: each hook that gets to patching is of a function of the text, apart from what
is patched, `mmap` hands out fresh pages, an exit in a gap lies apart from the others, and no store
goes into a patch. -/

namespace NativeLib.ShadowHook

open Arm64 Interaction

/-- Nothing has been hooked yet. -/
structure System.Fresh (s : System) : Prop where
  patches : s.process.patches = []
  enters : s.enters = .init SH_ENTER_SZ SH_ENTER_DELAY_SEC
  exits : s.exits = .init SH_EXIT_SZ SH_EXIT_DELAY_SEC

variable {text gaps : Set (BitVec 64)} {s q : System} {ops : List SysOp} {switch : Switch}
  {c c' : Cpu}

theorem System.Fresh.sound (h : s.Fresh) : s.Sound text gaps [] [] := by
  obtain ⟨hpatches, henters, hexits⟩ := h
  have hnone : s.enters.starts ++ s.exits.starts = [] := by rw [henters, hexits]; rfl
  obtain ⟨hnone', -⟩ := List.append_eq_nil_iff.mp hnone
  refine ⟨.of_nil hpatches, henters ▸ .init, hexits ▸ .init, ⟨?_, ?_, ?_⟩, ?_⟩
  · rw [hnone]
    exact fun _ hptr => absurd hptr List.not_mem_nil
  · rw [hnone]
    exact fun _ hptr => absurd hptr List.not_mem_nil
  · rw [hnone']
    exact fun _ hptr => absurd hptr List.not_mem_nil
  · rw [hpatches]
    exact fun _ hs => absurd hs List.not_mem_nil

/-! A function at `0x1000`: `cbz x0, #12; nop; nop; b #64`. Its enter comes to lie at `0x8000`. -/

def fresh : System where
  process := sample
  enters := .init SH_ENTER_SZ SH_ENTER_DELAY_SEC
  exits := .init SH_EXIT_SZ SH_EXIT_DELAY_SEC

def freshEnv : HookEnv where
  nowEnter := 0
  enter := ⟨some 0x8000, true, true, true⟩
  nowExit := 0
  exit := ⟨none, true, true, true⟩
  gap := .inl 1
  gapBytes := []
  withExit := ⟨true, true, .ok⟩
  withoutExit := ⟨true, true, .ok⟩
  exitMprotect := true
  nowExitFree := 0
  nowEnterFree := 0

def freshHook : SysOp := .hook false true 0x1000 0x3000 64 freshEnv

def freshSwitch : Switch :=
  { sampleSwitch with inst := { sampleSwitch.inst with enterAddr := 0x8000 } }

/-- A core that calls the function. -/
def freshCore : Cpu := ⟨fun _ => 0, fun _ => 0, 0, 0x1000, sample.mem⟩

/-- What no branch of the sample is does nothing. -/
def idle (_ : BitVec 32) (s : Cpu) : Cpu := s.next

theorem fresh_world : World {b | Spans 0x1000 64 b} ∅ := by
  refine ⟨fun b hb => ⟨fun h => h, ?_⟩, fun b hb => absurd hb (Set.notMem_empty b)⟩
  exact ((spans_iff_toNat (show (0x1000 : BitVec 64).toNat + 64 ≤ 2 ^ 64 by decide)).mp hb).1

theorem fresh_fresh : fresh.Fresh := ⟨rfl, rfl, rfl⟩

theorem fresh_allows : fresh.AllowsAll {b | Spans 0x1000 64 b} ∅ [freshHook] := by
  refine ⟨fun _ _ _ => ⟨by decide, by decide, by decide,
    fun b hb => Nat.lt_of_lt_of_le (show (b - 0x1000).toNat < 16 from hb) (by decide),
    fun _ hs => absurd hs List.not_mem_nil, ?_, fun _ hnone => absurd hnone (by simp [freshEnv]),
    ?_, fun a hgap => absurd hgap (by simp [freshEnv]),
    fun _ hcell => absurd hcell List.not_mem_nil⟩, fun _ _ => trivial⟩
  · rintro ptr hptr
    obtain rfl : 0x8000 = ptr := Option.some.inj hptr
    refine ⟨by decide, by decide, by decide, fun b hin => ⟨fun hb => ?_, Set.notMem_empty b⟩,
      fun _ hptr => absurd hptr List.not_mem_nil⟩
    have htext := (spans_iff_toNat (show (0x1000 : BitVec 64).toNat + 64 ≤ 2 ^ 64 by decide)).mp hb
    exact absurd hin.1 (Nat.not_le_of_lt (Nat.lt_trans htext.2 (by decide)))
  · intro r hr
    exact Sum.inl.inj hr ▸ by decide

theorem fresh_switches :
    (fresh.run [freshHook]).map (fun q => (q.process.switches, q.process.lost)) =
      some ([freshSwitch], []) := by
  decide +kernel

theorem switches_of_run (hrun : fresh.run [freshHook] = some q) :
    q.process.switches = [freshSwitch] ∧ q.process.lost = [] := by
  have hswitches := fresh_switches
  rw [hrun] at hswitches
  exact Prod.mk.inj (Option.some.inj hswitches)

theorem mem_fresh_patches (hrun : fresh.run [freshHook] = some q) :
    switch ∈ q.process.patches ↔ switch = freshSwitch := by
  obtain ⟨hswitches, hlost⟩ := switches_of_run hrun
  rw [Process.patches, hswitches, hlost, List.append_nil, List.mem_singleton]

theorem fresh_run : ∃ q, fresh.run [freshHook] = some q := by
  obtain ⟨q, hq, -⟩ := Option.map_eq_some_iff.mp fresh_switches
  exact ⟨q, hq⟩

/-- A run in which all is allowed never aborts, and after it a call of a patched function gets to
its new function, and but for `x17` nothing has changed by then. -/
theorem hooked_forever (other : BitVec 32 → Cpu → Cpu) (hworld : World text gaps) (hs : s.Fresh)
    (hops : s.AllowsAll text gaps ops) :
    ∃ q, s.run ops = some q ∧ ∀ switch ∈ q.process.patches, ∀ c : Cpu, c.mem = q.process.mem →
      c.pc = switch.targetAddr →
        Reaches (step other) c ((c.setReg 17 switch.newAddr).jump switch.newAddr) := by
  obtain ⟨q, _, _, hrun, hprocess, -⟩ := hs.sound.run hworld hops
  exact ⟨q, hrun, fun switch hswitch c hmem hpc =>
    hooked_reaches_new other hs.patches hprocess hswitch hmem hpc⟩

/-- A call of the function gets to `0x3000`. -/
theorem fresh_hooked : ∃ q, fresh.run [freshHook] = some q ∧
    Reaches (step idle) { freshCore with mem := q.process.mem }
      (({ freshCore with mem := q.process.mem }.setReg 17 0x3000).jump 0x3000) := by
  obtain ⟨q, hrun, hleads⟩ := hooked_forever idle fresh_world fresh_fresh fresh_allows
  exact ⟨q, hrun, hleads freshSwitch (mem_fresh_patches hrun |>.mpr rfl) _ rfl rfl⟩

/-- After a run in which all is allowed, the text is what the program itself has made of it, but for
the heads of the functions that are still patched. -/
theorem text_restored (hworld : World text gaps) (hs : s.Fresh)
    (hops : s.AllowsAll text gaps ops) (hrun : s.run ops = some q) {b : BitVec 64} (hb : b ∈ text)
    (hheads : ∀ switch ∈ q.process.patches, ¬ switch.Head b) :
    q.process.mem b = stores s.process.mem ops b := by
  obtain ⟨q', _, _, hrun', hprocess, -⟩ := hs.sound.run hworld hops
  obtain rfl : q = q' := Option.some.inj (hrun.symm.trans hrun')
  have hclean : ∀ op ∈ s.effects ops, ¬ op.Private b := fun op hop hprivate =>
    (hs.sound.private_run hworld hops hop hprivate).1 hb
  rw [run_restores hs.patches hprocess hclean hheads,
    System.stored_effects (fun hnone => Option.some_ne_none q (hrun.symm.trans hnone))]

def freshUnhook : SysOp := .unhook 0x1000 ⟨⟨true, .ok, true, true⟩, 0, 0⟩

/-- The function is hooked, a byte behind its head is written, and the hook is taken back. -/
def freshThere : List SysOp := [freshHook, .store 0x1020 0x55, freshUnhook]

theorem freshThere_allows : fresh.AllowsAll {b | Spans 0x1000 64 b} ∅ freshThere := by
  refine ⟨fresh_allows.1, fun s hstep =>
    ⟨fun switch hs => ?_, fun _ _ => ⟨trivial, fun _ _ => trivial⟩⟩⟩
  have hrun : fresh.run [freshHook] = some s := by
    rw [System.run, hstep]
    rfl
  obtain rfl := (mem_fresh_patches hrun).mp hs
  rintro (hhead | henter | ⟨hexit, -⟩)
  · exact absurd (show Spans 0x1000 16 0x1020 from hhead) (by decide)
  · exact absurd (show Spans 0x8000 256 0x1020 from henter) (by decide)
  · exact absurd rfl hexit

theorem freshThere_patches : ∃ q, fresh.run freshThere = some q ∧ q.process.patches = [] := by
  obtain ⟨s, _, _, hstep, -, -, hsound⟩ := fresh_fresh.sound.step fresh_world freshThere_allows.1
  obtain ⟨s', _, _, hstep', hprocess', -, hsound'⟩ :=
    hsound.step fresh_world (freshThere_allows.2 s hstep).1
  obtain ⟨q, _, _, hstep'', hprocess'', -, -⟩ :=
    hsound'.step fresh_world (show s'.Allows _ _ freshUnhook from trivial)
  obtain ⟨hswitches, hlost⟩ := switches_of_run (q := s) (by rw [System.run, hstep]; rfl)
  have hfind : s'.process.find 0x1000 = some freshSwitch := by
    rw [hprocess', System.op, Process.step, Process.find]
    exact congrArg _ hswitches
  have hplace := hsound'.process.inPlace freshSwitch
    (List.mem_append_left _ (List.mem_of_find?_eq_some hfind))
  refine ⟨q, ?_, ?_⟩
  · rw [freshThere, System.run, hstep, Option.bind_some, System.run, hstep', Option.bind_some,
      System.run, hstep'']
    rfl
  · rw [hprocess'', freshUnhook, System.op, Process.step,
      switchUnhookUnique_of_reaches hfind hplace ⟨rfl, rfl⟩, Process.patches, hprocess', System.op,
      Process.step, hswitches, hlost]
    rfl

/-- The head is what it was, and the byte is the one that was stored. -/
theorem fresh_restored : ∃ q, fresh.run freshThere = some q ∧
    q.process.mem 0x1000 = sample.mem 0x1000 ∧ q.process.mem 0x1020 = 0x55 := by
  obtain ⟨q, hrun, hpatches⟩ := freshThere_patches
  have hheads : ∀ b, ∀ switch ∈ q.process.patches, ¬ switch.Head b :=
    fun _ _ hs => absurd (hpatches ▸ hs) List.not_mem_nil
  refine ⟨q, hrun, ?_, ?_⟩
  · exact text_restored fresh_world fresh_fresh freshThere_allows hrun (by decide) (hheads _)
  · exact text_restored fresh_world fresh_fresh freshThere_allows hrun (by decide) (hheads _)

/-- After a run in which all is allowed, the original of a patched function does what the function
does in a process that has gone through the same stores and in which nothing has ever been hooked,
where each displaced instruction is one that a hook may move: it reads no register that does not
count, writes no literal over, and calls nothing inside of the head. `dirty` is what the two may
have otherwise: the pages of the allocators, the gaps, the first page and the heads. -/
theorem original_forever (other : BitVec 32 → Cpu → Cpu) (hworld : World text gaps) (hs : s.Fresh)
    (hops : s.AllowsAll text gaps ops) (hrun : s.run ops = some q)
    (hswitch : switch ∈ q.process.patches) {regs : Set (BitVec 5)} {dirty : Set (BitVec 64)}
    (hmaps : ∀ sysOp ∈ ops, ∀ ptr, sysOp.Maps ptr → ∀ b : BitVec 64, InPage ptr b.toNat → b ∈ dirty)
    (hgaps : gaps ⊆ dirty) (hfirst : ∀ b : BitVec 64, b.toNat < SH_TRAMPO_PAGE_SZ → b ∈ dirty)
    (hheads : ∀ switch ∈ q.process.patches, ∀ b, switch.Head b → b ∈ dirty)
    (hx : ∀ r ∈ regs, c'.x r = c.x r) (hv : c'.v = c.v) (hnzcv : c'.nzcv = c.nzcv)
    (hmem : c.mem = stores s.process.mem ops) (hmem' : c'.mem = q.process.mem)
    (hpc : c.pc = switch.targetAddr) (hpc' : c'.pc = switch.inst.enterAddr) :
    ∃ m : Moved, m.insts = switch.inst.backup ∧
      m.rinfo = switch.inst.rewriteInfo switch.targetAddr ∧
      ∀ n, (∀ j < n, m.rinfo.Inside ((step other)^[j] c).pc) →
        ¬ m.rinfo.Inside ((step other)^[n] c).pc →
        (∀ j < n, m.Fine other regs dirty ((step other)^[j] c)) →
        ∃ t', Reaches (step other) c' t' ∧ m.Out regs dirty ((step other)^[n] c) t' := by
  obtain ⟨q', _, _, hrun', hprocess, hsound⟩ := hs.sound.run hworld hops
  obtain rfl : q = q' := Option.some.inj (hrun.symm.trans hrun')
  have hprivate : ∀ op ∈ s.effects ops, ∀ b, op.Private b → b ∉ text ∧ b ∈ dirty := by
    intro op hop b hb
    obtain ⟨htext, huses⟩ := hs.sound.private_run hworld hops hop hb
    refine ⟨htext, ?_⟩
    rcases huses with ⟨ptr, hptr, hin⟩ | hgap | hlow
    · rcases hptr with hptr | ⟨sysOp, hop, hptr⟩
      · rw [hs.enters, hs.exits] at hptr
        exact absurd hptr List.not_mem_nil
      · exact hmaps sysOp hop ptr hptr b hin
    · exact hgaps hgap
    · exact hfirst b hlow
  refine orig_simulates other hs.patches hprocess hswitch ?_
    (fun op hop b hb => (hprivate op hop b hb).2) hheads hx hv hnzcv ?_ hmem' hpc hpc'
  · exact fun op hop b hhead hb =>
      (hprivate op hop b hb).1 ((hsound.held switch hswitch).head b hhead)
  · rw [hmem, System.stored_effects
      (fun hnone => Option.some_ne_none q (hrun.symm.trans hnone))]

/-- The original of the function, called with zero in `x0`, goes where the function went. -/
theorem fresh_original : ∃ q t, fresh.run [freshHook] = some q ∧ Reaches (step idle)
    { freshCore with pc := 0x8000, mem := q.process.mem } t ∧ t.pc = 0x104C := by
  obtain ⟨q, hrun⟩ := fresh_run
  obtain ⟨dirty, hdirty⟩ : ∃ dirty : Set (BitVec 64), dirty = {b | InPage 0x8000 b.toNat ∨
    b.toNat < SH_TRAMPO_PAGE_SZ ∨ Spans 0x1000 16 b} := ⟨_, rfl⟩
  have hmaps : ∀ sysOp ∈ [freshHook], ∀ ptr, sysOp.Maps ptr → ∀ b : BitVec 64,
      InPage ptr b.toNat → b ∈ dirty := by
    intro sysOp hop ptr hptr b hb
    obtain rfl := List.mem_singleton.mp hop
    obtain rfl : 0x8000 = ptr :=
      hptr.elim Option.some.inj fun hnone => absurd hnone (by simp [freshEnv])
    exact hdirty ▸ .inl hb
  have hheads : ∀ switch ∈ q.process.patches, ∀ b, switch.Head b → b ∈ dirty := by
    intro switch hs b hb
    obtain rfl := (mem_fresh_patches hrun).mp hs
    exact hdirty ▸ .inr (.inr hb)
  have hregs : ∀ r ∈ ({17}ᶜ : Set (BitVec 5)),
      ({ freshCore with pc := 0x8000, mem := q.process.mem } : Cpu).x r = freshCore.x r :=
    fun _ _ => rfl
  obtain ⟨m, -, hinfo, hsim⟩ := original_forever idle fresh_world fresh_fresh fresh_allows hrun
    ((mem_fresh_patches hrun).mpr rfl) hmaps (Set.empty_subset _)
    (fun b hb => hdirty ▸ .inr (.inl hb)) hheads hregs rfl rfl rfl rfl rfl rfl
  have hcb : decode freshCore.word = .cb true false 0 12 := by decide +kernel
  have hb : decode ((step idle)^[1] freshCore).word = .b false 64 := by decide +kernel
  have hin : ∀ j < 2, m.rinfo.Inside ((step idle)^[j] freshCore).pc := by
    rw [hinfo]
    decide +kernel
  have hout : ¬ m.rinfo.Inside ((step idle)^[2] freshCore).pc := by
    rw [hinfo]
    decide +kernel
  have hfine : ∀ j < 2, m.Fine idle {17}ᶜ dirty ((step idle)^[j] freshCore) := by
    intro j hj
    rcases j with _ | _ | j
    · rw [Moved.Fine, Function.iterate_zero, id, hcb]
      exact ⟨.inl (by decide), fun _ h => h rfl⟩
    · rw [Moved.Fine, hb]
      exact fun _ => ⟨rfl, fun h => h rfl⟩
    · omega
  obtain ⟨t, hreach, hleft⟩ := hsim 2 hin hout hfine
  exact ⟨q, t, hrun, hreach, hleft.pc.trans (by decide +kernel)⟩

end NativeLib.ShadowHook
