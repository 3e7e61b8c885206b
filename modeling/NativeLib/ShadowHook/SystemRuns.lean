import NativeLib.ShadowHook.Installations

/-! Runs of a process with its allocators: they never abort, and what the process is promised about
the places it gets is kept. -/

namespace NativeLib.ShadowHook

open Arm64 Interaction

variable {text gaps : Set (BitVec 64)} {pastEnters pastExits : List TrampoEvent} {s s' q : System}
  {targetAddr newAddr : BitVec 64} {ssize : ℕ} {env : HookEnv} {switch : Switch} {mem' : Mem}
  {inst : Inst} {r : ℤ} {enter exit : TrampoResult} {enters' exits' : TrampoMgr}
  {enterCleared exitCleared : ℕ × ℕ}

namespace System

/-! The allocators after a hook. -/

/-- The allocator of enters after a hook, if it has not aborted. -/
theorem Sound.settle_enters (h : s.Sound text gaps pastEnters pastExits)
    (hfit : s.Fit text gaps targetAddr ssize env) {cur : ℕ}
    (henter : s.enterAlloc env = (.ok cur, enters', enterCleared)) :
    ∃ past, TrampoRun SH_ENTER_SZ SH_ENTER_DELAY_SEC past
        (if r = 0 then enters' else enters'.free env.nowEnterFree cur) ∧
      (∀ a ∈ live pastEnters, a ∈ live past) ∧ (r = 0 → cur ∈ live past) := by
  have hrun := h.enters.alloc hfit.enter.fresh_enters henter
  have hcur : cur ∈ live (.alloc cur :: pastEnters) := List.mem_cons_self
  split_ifs with hr
  · exact ⟨_, hrun, fun a ha => List.mem_cons_of_mem _ ha, fun _ => hcur⟩
  · refine ⟨_, hrun.free _ hcur, fun a ha => ?_, fun h => absurd h hr⟩
    obtain ⟨-, -, -, -, -, -, hapart⟩ := h.enter_block hfit henter
    have hlie := hapart a ha
    refine List.mem_filter.mpr ⟨List.mem_cons_of_mem _ ha, decide_eq_true ?_⟩
    omega

/-- The allocator of exits after a hook that has asked for one. -/
theorem Sound.settle_exits (h : s.Sound text gaps pastEnters pastExits)
    (hfit : s.Fit text gaps targetAddr ssize env)
    (henter : s.enterAlloc env = (enter, enters', enterCleared)) {cur : ℕ}
    (hexit : s.exitAllocOutLibrary targetAddr env = (.ok cur, exits', exitCleared)) :
    ∃ past, TrampoRun SH_EXIT_SZ SH_EXIT_DELAY_SEC past
        (if inst.exitAddr = 0 then exits'.free env.nowExitFree cur else exits') ∧
      (∀ a ∈ live pastExits, a ∈ live past) ∧ (inst.exitAddr ≠ 0 → cur ∈ live past) := by
  have hfresh : s.exits.Fresh env.exit := by
    have hexit' := hfit.exit
    rw [henter] at hexit'
    exact hexit'.fresh_exits
  have hrun := h.exits.alloc hfresh hexit
  have hcur : cur ∈ live (.alloc cur :: pastExits) := List.mem_cons_self
  split_ifs with hnone
  · refine ⟨_, hrun.free _ hcur, fun a ha => ?_, fun h => absurd hnone h⟩
    obtain ⟨-, -, -, -, -, -, -, hapart⟩ := h.exit_block hfit henter hexit
    have hlie := hapart a ha
    refine List.mem_filter.mpr ⟨List.mem_cons_of_mem _ ha, decide_eq_true ?_⟩
    omega
  · exact ⟨_, hrun, fun a ha => List.mem_cons_of_mem _ ha, fun _ => hcur⟩

/-- What is known of the allocators after a hook. -/
structure Settled (text gaps : Set (BitVec 64)) (pastEnters pastExits : List TrampoEvent) (r : ℤ)
    (inst : Inst) (enters exits : TrampoMgr) (pastEnters' pastExits' : List TrampoEvent) :
    Prop where
  runEnters : TrampoRun SH_ENTER_SZ SH_ENTER_DELAY_SEC pastEnters' enters
  runExits : TrampoRun SH_EXIT_SZ SH_EXIT_DELAY_SEC pastExits' exits
  placed : Placed text gaps enters exits
  keepsEnters : ∀ a ∈ live pastEnters, a ∈ live pastEnters'
  keepsExits : ∀ a ∈ live pastExits, a ∈ live pastExits'
  enter : r = 0 → inst.enterAddr.toNat ∈ live pastEnters'
  exit : r = 0 → inst.exitAddr ≠ 0 → inst.exitType = .outLibrary →
    inst.exitAddr.toNat ∈ live pastExits'

/-- The range of a branch does not become too small for an exit. -/
theorem reach_clamp {now : ℤ} {n : ℕ} (hn : n < 2 ^ 64) :
    16 ≤ (TrampoCall.clamp
        ⟨now, n, SH_INST_A64_B_RANGE_LOW, SH_INST_A64_B_RANGE_HIGH⟩).rangeLow +
      (TrampoCall.clamp
        ⟨now, n, SH_INST_A64_B_RANGE_LOW, SH_INST_A64_B_RANGE_HIGH⟩).rangeHigh + 1 := by
  unfold TrampoCall.clamp SH_INST_A64_B_RANGE_LOW SH_INST_A64_B_RANGE_HIGH UINTPTR_MAX
  rcases Nat.lt_or_ge 134217724 (2 ^ 64 - 1 - n) with hlt | hge
  · have hnot : ¬ 134217724 > 2 ^ 64 - 1 - n := by omega
    simp only [if_neg hnot]
    omega
  · have hnot : ¬ 134217728 > n := by omega
    simp only [if_neg hnot]
    omega

theorem enter_ne_aborted (h : s.Sound text gaps pastEnters pastExits)
    (hfit : s.Fit text gaps targetAddr ssize env) : (s.enterAlloc env).1 ≠ .aborted := by
  refine alloc_ne_aborted ?_ (fun hhint => absurd hhint (Nat.lt_irrefl 0)) fun hnull => ?_
  · rw [h.tracks_enters.2]
    decide
  · exact absurd (hfit.enter 0 hnull).1 (by decide)

theorem exit_ne_aborted (h : s.Sound text gaps pastEnters pastExits)
    (hfit : s.Fit text gaps targetAddr ssize env) :
    (s.exitAllocOutLibrary targetAddr env).1 ≠ .aborted := by
  refine alloc_ne_aborted ?_ (fun _ => ?_) fun hnull => ?_
  · rw [h.tracks_exits.2]
    decide
  · rw [h.tracks_exits.2]
    exact reach_clamp targetAddr.isLt
  · exact absurd (hfit.exit 0 hnull).1 (by decide)

/-- The allocators after a hook: they have not aborted, and what they have kept is in use. -/
theorem Sound.settle (h : s.Sound text gaps pastEnters pastExits)
    (hfit : s.Fit text gaps targetAddr ssize env)
    (hspec : HookSpec s.process.mem targetAddr ssize newAddr (s.answers targetAddr env) r inst
      mem') (hr : (s.answers targetAddr env).enterAddr = 0 → r ≠ 0) :
    ∃ enters exits pastEnters' pastExits',
      s.settle targetAddr ssize env r inst = some (enters, exits) ∧
      Settled text gaps pastEnters pastExits r inst enters exits pastEnters' pastExits' := by
  obtain ⟨enter, enters', enterCleared, henter⟩ : ∃ enter enters' cleared,
    s.enterAlloc env = (enter, enters', cleared) := ⟨_, _, _, rfl⟩
  obtain ⟨exit, exits', exitCleared, hexit⟩ : ∃ exit exits' cleared,
    s.exitAllocOutLibrary targetAddr env = (exit, exits', cleared) := ⟨_, _, _, rfl⟩
  have henterAddr := hspec.enterAddr
  have htype := hspec.type
  have hplaced := h.placed.enters_alloc hfit.enter henter
  have hmapped : Mapped text gaps enters' s.exits env.exit := by
    have hexit' := hfit.exit
    rwa [henter] at hexit'
  have hplaced' := hplaced.exits_alloc hmapped hexit
  have habort := enter_ne_aborted h hfit
  have habort' := exit_ne_aborted h hfit
  rw [henter] at habort
  rw [hexit] at habort'
  rw [answers, henter, hexit] at henterAddr htype hr
  simp only [System.settle, henter, hexit]
  cases enter with
  | aborted => exact absurd rfl habort
  | failed =>
    have hne : r ≠ 0 := hr rfl
    obtain rfl := eq_of_failed henter
    exact ⟨_, _, pastEnters, pastExits, rfl, h.enters, h.exits, h.placed, fun _ ha => ha,
      fun _ ha => ha, fun h => absurd h hne, fun h => absurd h hne⟩
  | ok cur =>
    obtain ⟨pastEnters', hrun, hkeeps, hlive⟩ :=
      @settle_enters _ _ _ _ _ _ _ _ r _ _ h hfit _ henter
    obtain ⟨ptr, -, -, hle, hend, hbound, -⟩ := h.enter_block hfit henter
    have hcur : inst.enterAddr.toNat = cur := by
      rw [henterAddr]
      exact (BitVec.toNat_ofNat ..).trans (Nat.mod_eq_of_lt (by omega))
    have hstarts : (if r = 0 then enters' else enters'.free env.nowEnterFree cur).starts =
        enters'.starts := by
      split_ifs
      · rfl
      · exact TrampoMgr.starts_free
    by_cases hsize : ssize < 4
    · have hne : r ≠ 0 := by
        rintro rfl
        have hfits := hspec.fits rfl
        have hpos := (hspec.patches rfl).pos
        omega
      simp only [if_pos hsize]
      exact ⟨_, _, pastEnters', pastExits, rfl, hrun, h.exits, hplaced.congr hstarts rfl, hkeeps,
        fun _ ha => ha, fun h => absurd h hne, fun h => absurd h hne⟩
    simp only [if_neg hsize]
    cases exit with
    | aborted => exact absurd rfl habort'
    | failed =>
      obtain rfl := eq_of_failed hexit
      refine ⟨_, _, pastEnters', pastExits, rfl, hrun, h.exits, hplaced.congr hstarts rfl, hkeeps,
        fun _ ha => ha, fun h0 => hcur ▸ hlive h0, fun _ hne hout => ?_⟩
      have hgap := htype hne
      rw [hout] at hgap
      cases hg : env.gap with
      | inl _ =>
        rw [hg] at hgap
        exact absurd hgap (by simp)
      | inr _ =>
        rw [hg] at hgap
        exact absurd (Sum.inr.inj hgap) (by simp)
    | ok exitCur =>
      obtain ⟨pastExits', hrun', hkeeps', hlive'⟩ :=
        @settle_exits _ _ _ _ _ _ _ _ inst _ _ _ _ _ h hfit henter _ hexit
      obtain ⟨ptr', -, -, hle', hend', hbound', -, -⟩ := h.exit_block hfit henter hexit
      have hstarts' : (if inst.exitAddr = 0 then exits'.free env.nowExitFree exitCur
          else exits').starts = exits'.starts := by
        split_ifs
        · exact TrampoMgr.starts_free
        · rfl
      refine ⟨_, _, pastEnters', pastExits', rfl, hrun, hrun', hplaced'.congr hstarts hstarts',
        hkeeps, hkeeps', fun h0 => hcur ▸ hlive h0, fun _ hne hout => ?_⟩
      have haddr : BitVec.ofNat 64 exitCur = inst.exitAddr :=
        (Prod.mk.inj (Sum.inr.inj (htype hne))).2
      have hnat : inst.exitAddr.toNat = exitCur := by
        rw [← haddr, BitVec.toNat_ofNat, Nat.mod_eq_of_lt (by omega)]
      exact hnat ▸ hlive' hne

/-! One step. -/

/-- What is asked of the threads: a hook has to fit, and the program does not write to what is
patched. -/
def Allows (text gaps : Set (BitVec 64)) (s : System) : SysOp → Prop
  | .hook found memalign targetAddr _ ssize env =>
    found = false → memalign = true → s.process.find targetAddr = none →
      s.Fit text gaps targetAddr ssize env
  | .hookInvisible targetAddr _ ssize env => s.Fit text gaps targetAddr ssize env
  | .unhook .. => True
  | .store a _ => ∀ switch ∈ s.process.patches, ¬ switch.Region a

theorem instHook_of_zero {ans : HookAnswers} {orig : Option (BitVec 64)} {mem : Mem}
    (hhook : ShadowHook.instHook .zero mem targetAddr ssize newAddr ans = (r, inst, mem', orig))
    (hzero : ans.enterAddr = 0) : r ≠ 0 := by
  rw [ShadowHook.instHook] at hhook
  simp only [if_pos hzero] at hhook
  obtain ⟨rfl, -⟩ := Prod.mk.inj hhook
  decide

end System

theorem Held.mono {pastEnters' pastExits' : List TrampoEvent}
    (h : Held text gaps pastEnters pastExits switch)
    (henter : switch.inst.enterAddr.toNat ∈ live pastEnters →
      switch.inst.enterAddr.toNat ∈ live pastEnters')
    (hexit : switch.inst.exitAddr ≠ 0 → switch.inst.exitAddr.toNat ∈ live pastExits →
      switch.inst.exitAddr.toNat ∈ live pastExits') :
    Held text gaps pastEnters' pastExits' switch :=
  ⟨h.head, henter h.enter, fun hne hout => hexit hne (h.exit hne hout), h.gap⟩

namespace System

/-- A hook: its allocators do not abort, and they hold what is patched. -/
theorem Sound.hook (h : s.Sound text gaps pastEnters pastExits) (hworld : World text gaps)
    (hfit : s.Fit text gaps targetAddr ssize env) {orig : Option (BitVec 64)}
    (hhook : ShadowHook.instHook .zero s.process.mem targetAddr ssize newAddr
      (s.answers targetAddr env) = (r, inst, mem', orig)) :
    ∃ enters exits pastEnters' pastExits',
      s.instHook targetAddr ssize newAddr env = some (enters, exits) ∧
      Settled text gaps pastEnters pastExits r inst enters exits pastEnters' pastExits' ∧
      (r = 0 → Held text gaps pastEnters' pastExits' ⟨targetAddr, newAddr, inst⟩) := by
  obtain ⟨-, hroomy, -⟩ := h.free hworld hfit
  obtain ⟨hspec, -, -⟩ := instHook_spec hroomy rfl hhook
  obtain ⟨enters, exits, pastEnters', pastExits', hsettle, hsettled⟩ :=
    h.settle hfit hspec (instHook_of_zero hhook)
  refine ⟨enters, exits, pastEnters', pastExits', ?_, hsettled, fun hr => ?_⟩
  · rw [System.instHook, hhook]
    exact hsettle
  · have hle := (hspec.patches hr).le
    have hfits := hspec.fits hr
    refine ⟨fun b hb => hfit.head b (Nat.lt_of_lt_of_le hb (by simp only; omega)),
      hsettled.enter hr, hsettled.exit hr, ?_⟩
    rintro b ⟨hne, hin, hspan⟩
    -- An exit in a gap is the one the hook has been told of.
    have htype := hspec.type hne
    rw [show inst.exitType = .inLibrary from hin, answers] at htype
    simp only at htype
    split at htype
    · exact absurd (congrArg Prod.fst (Sum.inr.inj htype)) (by simp)
    · cases hgap : env.gap with
      | inl e =>
        rw [hgap] at htype
        exact absurd htype (by simp)
      | inr a =>
        rw [hgap] at htype
        obtain rfl : a = inst.exitAddr := congrArg Prod.snd (Sum.inr.inj htype)
        exact ((hfit.gap _ hgap).2.2 b hspan).1

/-- Patches that lie apart have enters and exits of their own. -/
theorem ne_of_apart {switch switch' : Switch} (h : switch.Apart switch') :
    switch'.inst.enterAddr.toNat ≠ switch.inst.enterAddr.toNat ∧
      (switch'.inst.exitAddr ≠ 0 →
        switch'.inst.exitAddr.toNat ≠ switch.inst.exitAddr.toNat) := by
  have hfirst : ∀ a n : ℕ, 0 < n → ∀ b : BitVec 64, Spans b n b := fun _ n hn b => by
    rwa [Spans, BitVec.sub_self]
  refine ⟨fun he => ?_, fun hne he => ?_⟩
  · have heq := BitVec.eq_of_toNat_eq he
    exact h _ (.inr (.inl (hfirst 0 256 (by decide) switch.inst.enterAddr)))
      (.inr (.inl (heq ▸ hfirst 0 256 (by decide) _)))
  · have heq := BitVec.eq_of_toNat_eq he
    exact h _ (.inr (.inr ⟨heq ▸ hne, hfirst 0 16 (by decide) switch.inst.exitAddr⟩))
      (.inr (.inr ⟨hne, heq ▸ hfirst 0 16 (by decide) _⟩))

/-- An unhook gives back what no other patch has. -/
theorem Sound.unhook (h : s.Sound text gaps pastEnters pastExits) {targetAddr : BitVec 64}
    {uenv : UnhookEnv} (hfind : s.process.find targetAddr = some switch) :
    ∃ pastEnters' pastExits',
      TrampoRun SH_ENTER_SZ SH_ENTER_DELAY_SEC pastEnters'
        (s.unhookSettle switch targetAddr uenv).1 ∧
      TrampoRun SH_EXIT_SZ SH_EXIT_DELAY_SEC pastExits'
        (s.unhookSettle switch targetAddr uenv).2 ∧
      Placed text gaps (s.unhookSettle switch targetAddr uenv).1
        (s.unhookSettle switch targetAddr uenv).2 ∧
      ∀ other ∈ (s.process.switchUnhookUnique targetAddr uenv.ans).2.patches,
        Held text gaps pastEnters' pastExits' other := by
  obtain ⟨hmem, htarget⟩ := find_eq_some hfind
  have hheld := h.held switch (List.mem_append_left _ hmem)
  have hplace := h.process.inPlace switch (List.mem_append_left _ hmem)
  by_cases hreach : uenv.ans.Reaches
  · have hrestored := hplace.restored hfind hreach
    rw [unhookSettle, if_pos hrestored, switchUnhookUnique_of_reaches hfind hplace hreach]
    have hothers : ∀ other ∈ s.process.switches.filter (·.targetAddr ≠ targetAddr) ++
        s.process.lost, Held text gaps pastEnters pastExits other ∧ switch.Apart other := by
      intro other hother
      exact ⟨h.held other ((List.filter_sublist.append_right _).subset hother),
        h.process.others hfind other hother⟩
    obtain ⟨pastEnters', hrunEnters, hkeepsEnters⟩ : ∃ past,
        TrampoRun SH_ENTER_SZ SH_ENTER_DELAY_SEC past
          (if (ShadowHook.instUnhook switch.inst s.process.mem targetAddr uenv.ans).1 = 0 then
            s.enters.free uenv.nowEnterFree switch.inst.enterAddr.toNat else s.enters) ∧
        ∀ a ∈ live pastEnters, a ≠ switch.inst.enterAddr.toNat → a ∈ live past := by
      split_ifs
      · exact ⟨_, h.enters.free _ hheld.enter,
          fun a ha hne => List.mem_filter.mpr ⟨ha, decide_eq_true hne⟩⟩
      · exact ⟨_, h.enters, fun a ha _ => ha⟩
    obtain ⟨pastExits', hrunExits, hkeepsExits⟩ : ∃ past,
        TrampoRun SH_EXIT_SZ SH_EXIT_DELAY_SEC past
          (if switch.inst.exitAddr ≠ 0 ∧ switch.inst.exitType = .outLibrary then
            s.exits.free uenv.nowExitFree switch.inst.exitAddr.toNat else s.exits) ∧
        ∀ a ∈ live pastExits, a ≠ switch.inst.exitAddr.toNat → a ∈ live past := by
      split_ifs with hexit
      · exact ⟨_, h.exits.free _ (hheld.exit hexit.1 hexit.2),
          fun a ha hne => List.mem_filter.mpr ⟨ha, decide_eq_true hne⟩⟩
      · exact ⟨_, h.exits, fun a ha _ => ha⟩
    refine ⟨pastEnters', pastExits', hrunEnters, hrunExits, h.placed.congr ?_ ?_,
      fun other hother => ?_⟩
    · simp only
      split_ifs
      exacts [TrampoMgr.starts_free, rfl]
    · simp only
      split_ifs
      exacts [TrampoMgr.starts_free, rfl]
    · obtain ⟨hother, hapart⟩ := hothers other hother
      obtain ⟨hne, hne'⟩ := ne_of_apart hapart
      exact hother.mono (fun ha => hkeepsEnters _ ha hne) fun h0 ha => hkeepsExits _ ha (hne' h0)
  · have hrestored : ¬ switch.inst.Restored s.process.mem targetAddr uenv.ans :=
      fun hr => hreach ⟨hr.1, hr.2.2⟩
    rw [unhookSettle, if_neg hrestored, switchUnhookUnique_of_not hfind hreach]
    refine ⟨pastEnters, pastExits, h.enters, h.exits, h.placed, fun other hother => ?_⟩
    rcases List.mem_append.mp hother with hother | hother
    · exact h.held other (List.mem_append_left _ (List.mem_filter.mp hother).1)
    · rcases List.mem_cons.mp hother with rfl | hother
      · exact hheld
      · exact h.held other (List.mem_append_right _ hother)

/-- The process does not abort in a step that the threads may take, and what holds goes on to
hold. -/
theorem Sound.step (h : s.Sound text gaps pastEnters pastExits) (hworld : World text gaps)
    {sysOp : SysOp} (hop : s.Allows text gaps sysOp) :
    ∃ s' pastEnters' pastExits', s.step sysOp = some s' ∧
      s'.process = (s.process.step (s.op sysOp)).2 ∧ s.process.Allows (s.op sysOp) ∧
      s'.Sound text gaps pastEnters' pastExits' := by
  suffices hmanagers : ∃ managers pastEnters' pastExits', s.managers sysOp = some managers ∧
      s.process.Allows (s.op sysOp) ∧
      TrampoRun SH_ENTER_SZ SH_ENTER_DELAY_SEC pastEnters' managers.1 ∧
      TrampoRun SH_EXIT_SZ SH_EXIT_DELAY_SEC pastExits' managers.2 ∧
      Placed text gaps managers.1 managers.2 ∧
      ∀ switch ∈ (s.process.step (s.op sysOp)).2.patches,
        Held text gaps pastEnters' pastExits' switch by
    obtain ⟨managers, pastEnters', pastExits', heq, hallows, hrunEnters, hrunExits, hplaced,
      hheld⟩ := hmanagers
    refine ⟨_, pastEnters', pastExits', congrArg _ heq, rfl, hallows, ?_, hrunEnters, hrunExits,
      hplaced, hheld⟩
    exact h.process.step hallows
  cases sysOp with
  | hook found memalign targetAddr newAddr ssize env =>
    rw [managers, op, Process.step, Process.switchHookUnique]
    by_cases hskip : found = true ∨ memalign = false ∨ (s.process.find targetAddr).isSome
    · refine ⟨(s.enters, s.exits), pastEnters, pastExits,
        if_pos (by simpa [or_assoc] using hskip), ?_, h.enters, h.exits, h.placed, ?_⟩
      · rintro rfl rfl hfind
        exact absurd hskip (by simp [hfind])
      · rcases hskip with rfl | rfl | hfind
        · exact h.held
        · cases found <;> exact h.held
        · split_ifs <;> exact h.held
    · obtain ⟨rfl, rfl, hfind⟩ : found = false ∧ memalign = true ∧
        s.process.find targetAddr = none := by
        simpa [or_assoc] using hskip
      have hfit := hop rfl rfl hfind
      obtain ⟨r, inst, mem', orig, hhook⟩ : ∃ r inst mem' orig, ShadowHook.instHook .zero
        s.process.mem targetAddr ssize newAddr (s.answers targetAddr env) =
          (r, inst, mem', orig) := ⟨_, _, _, _, rfl⟩
      obtain ⟨enters, exits, pastEnters', pastExits', heq, hsettled, hnew⟩ :=
        h.hook hworld hfit hhook
      refine ⟨(enters, exits), pastEnters', pastExits', ?_, fun _ _ _ => h.free hworld hfit,
        hsettled.runEnters, hsettled.runExits, hsettled.placed, ?_⟩
      · rw [hfind]
        exact heq
      · have hold : ∀ switch ∈ s.process.patches, Held text gaps pastEnters' pastExits' switch :=
          fun switch hs => (h.held switch hs).mono (hsettled.keepsEnters _)
            fun _ => hsettled.keepsExits _
        rw [hfind, hhook]
        simp only [Bool.false_eq_true, Bool.true_eq_false, Option.isSome_none, if_false]
        split_ifs with hr
        · exact hold
        · exact List.forall_mem_cons.mpr ⟨hnew (not_not.mp hr), hold⟩
  | hookInvisible targetAddr newAddr ssize env =>
    obtain ⟨r, inst, mem', orig, hhook⟩ : ∃ r inst mem' orig, ShadowHook.instHook .zero
      s.process.mem targetAddr ssize newAddr (s.answers targetAddr env) =
        (r, inst, mem', orig) := ⟨_, _, _, _, rfl⟩
    obtain ⟨enters, exits, pastEnters', pastExits', heq, hsettled, hnew⟩ := h.hook hworld hop hhook
    have hold : ∀ switch ∈ s.process.patches, Held text gaps pastEnters' pastExits' switch :=
      fun switch hs => (h.held switch hs).mono (hsettled.keepsEnters _)
        fun _ => hsettled.keepsExits _
    refine ⟨(enters, exits), pastEnters', pastExits', heq, h.free hworld hop, hsettled.runEnters,
      hsettled.runExits, hsettled.placed, ?_⟩
    rw [op, Process.step, Process.switchHookUniqueInvisible, hhook]
    simp only
    split_ifs with hr
    · exact hold
    · intro switch hs
      rcases List.mem_cons.mp (List.perm_middle.mem_iff.mp hs) with rfl | hs
      exacts [hnew (not_not.mp hr), hold switch hs]
  | unhook targetAddr env =>
    rw [managers, op, Process.step]
    cases hfind : s.process.find targetAddr with
    | none =>
      rw [switchUnhookUnique_of_none hfind]
      exact ⟨_, pastEnters, pastExits, rfl, trivial, h.enters, h.exits, h.placed, h.held⟩
    | some switch =>
      obtain ⟨pastEnters', pastExits', hunhook⟩ := h.unhook hfind
      exact ⟨_, pastEnters', pastExits', rfl, trivial, hunhook⟩
  | store a byte => exact ⟨_, pastEnters, pastExits, rfl, hop, h.enters, h.exits, h.placed, h.held⟩

/-! Many steps. -/

/-- The steps one after the other; none if the process aborts in one of them. -/
def run : System → List SysOp → Option System
  | s, [] => some s
  | s, sysOp :: ops => (s.step sysOp).bind fun s => s.run ops

def AllowsAll (text gaps : Set (BitVec 64)) : System → List SysOp → Prop
  | _, [] => True
  | s, sysOp :: ops =>
    s.Allows text gaps sysOp ∧ ∀ s', s.step sysOp = some s' → s'.AllowsAll text gaps ops

/-- A hook of a function that has a switch, or that gets no memory for one, comes to nothing. -/
def Skipped (s : System) : SysOp → Bool
  | .hook found memalign targetAddr .. =>
    found || !memalign || (s.process.find targetAddr).isSome
  | _ => false

/-- What the steps come to in the process. -/
def effects : System → List SysOp → List Op
  | _, [] => []
  | s, sysOp :: ops =>
    let rest := match s.step sysOp with
      | none => []
      | some s => s.effects ops
    if s.Skipped sysOp then rest else s.op sysOp :: rest

theorem step_of_skipped {sysOp : SysOp} (h : s.Skipped sysOp = true) :
    (s.process.step (s.op sysOp)).2 = s.process := by
  cases sysOp with
  | hook found memalign targetAddr newAddr ssize env =>
    rw [op, Process.step, Process.switchHookUnique]
    simp only [Skipped, Bool.or_eq_true, Bool.not_eq_true'] at h
    rcases h with (rfl | rfl) | hfind
    · rfl
    · cases found <;> rfl
    · split_ifs <;> rfl
  | hookInvisible | unhook | store => exact absurd h (by simp [Skipped])

/-- A process with its allocators does not abort, and it is a process whose hooks are told what
they may be told. -/
theorem Sound.run {ops : List SysOp} (h : s.Sound text gaps pastEnters pastExits)
    (hworld : World text gaps) (hops : s.AllowsAll text gaps ops) :
    ∃ q pastEnters' pastExits', s.run ops = some q ∧
      Process.Run s.process (s.effects ops) q.process ∧
      q.Sound text gaps pastEnters' pastExits' := by
  induction ops generalizing s pastEnters pastExits with
  | nil => exact ⟨s, pastEnters, pastExits, rfl, .nil _, h⟩
  | cons sysOp ops ih =>
    obtain ⟨hop, hrest⟩ := hops
    obtain ⟨s', _, _, hstep, hprocess, hallows, hsound⟩ := h.step hworld hop
    obtain ⟨q, pastEnters', pastExits', hrun, hprocessRun, hsound'⟩ := ih hsound (hrest s' hstep)
    refine ⟨q, pastEnters', pastExits', ?_, ?_, hsound'⟩
    · rw [System.run, hstep]
      exact hrun
    · rw [effects, hstep]
      rw [hprocess] at hprocessRun
      simp only
      split_ifs with hskip
      · rwa [step_of_skipped hskip] at hprocessRun
      · exact .cons hallows hprocessRun

end System

/-- What the program itself has written. -/
def stores (mem : Mem) : List SysOp → Mem
  | [] => mem
  | .store a byte :: ops => stores (Function.update mem a byte) ops
  | _ :: ops => stores mem ops

/-- The pages that `mmap` hands out in a step. -/
def SysOp.Maps : SysOp → ℕ → Prop
  | .hook _ _ _ _ _ env, ptr | .hookInvisible _ _ _ env, ptr =>
    env.enter.mmap = some ptr ∨ env.exit.mmap = some ptr
  | _, _ => False

/-- A byte that the library may write to besides the heads of functions. -/
def System.Uses (gaps : Set (BitVec 64)) (s : System) (sysOp : SysOp) (b : BitVec 64) : Prop :=
  (∃ ptr, (ptr ∈ s.enters.starts ++ s.exits.starts ∨ sysOp.Maps ptr) ∧ InPage ptr b.toNat) ∨
    b ∈ gaps ∨ b.toNat < SH_TRAMPO_PAGE_SZ

namespace System

theorem stored_effects {mem : Mem} {ops : List SysOp} (hrun : s.run ops ≠ none) :
    stored mem (s.effects ops) = stores mem ops := by
  induction ops generalizing s mem with
  | nil => rfl
  | cons sysOp ops ih =>
    rw [System.run] at hrun
    cases hstep : s.step sysOp with
    | none =>
      rw [hstep] at hrun
      exact absurd rfl hrun
    | some s' =>
      rw [hstep] at hrun
      rw [effects, hstep]
      have ih' := fun mem => @ih s' mem hrun
      cases sysOp with
      | hook =>
        simp only
        split_ifs
        · exact ih' mem
        · exact ih' mem
      | hookInvisible | unhook => exact ih' mem
      | store a byte => exact ih' _

/-- What a hook may write to is not part of the text. -/
theorem Sound.private_step (h : s.Sound text gaps pastEnters pastExits) (hworld : World text gaps)
    {sysOp : SysOp} (hop : s.Allows text gaps sysOp) (hskip : s.Skipped sysOp = false)
    {b : BitVec 64} (hb : (s.op sysOp).Private b) : b ∉ text ∧ s.Uses gaps sysOp b := by
  suffices hfit : ∀ {targetAddr ssize env}, s.Fit text gaps targetAddr ssize env →
      (∀ ptr, env.enter.mmap = some ptr ∨ env.exit.mmap = some ptr → sysOp.Maps ptr) →
      (s.answers targetAddr env).Private b → b ∉ text ∧ s.Uses gaps sysOp b by
    cases sysOp with
    | hook found memalign targetAddr newAddr ssize env =>
      simp only [Skipped, Bool.or_eq_false_iff, Bool.not_eq_false'] at hskip
      obtain ⟨⟨rfl, rfl⟩, hfind⟩ := hskip
      exact hfit (hop rfl rfl (by simpa using hfind)) (fun _ => id) hb
    | hookInvisible => exact hfit hop (fun _ => id) hb
    | unhook | store => exact hb.elim
  intro targetAddr ssize env hfit hmaps hb
  obtain ⟨enter, enters', enterCleared, henter⟩ : ∃ enter enters' cleared,
    s.enterAlloc env = (enter, enters', cleared) := ⟨_, _, _, rfl⟩
  have hspare := h.spare hfit henter rfl hb
  refine ⟨hspare.not_text h hworld hfit henter, ?_⟩
  cases hspare with
  | enter hptr hin _ =>
    exact .inl ⟨_, hptr.imp (List.mem_append_left _) fun h => hmaps _ (.inl h), hin⟩
  | exit hptr hin _ =>
    exact .inl ⟨_, hptr.imp (List.mem_append_right _) fun h => hmaps _ (.inr h), hin⟩
  | gap hgap _ => exact .inr (.inl hgap)
  | none hlow => exact .inr (.inr hlow)

/-- The allocators get their pages from `mmap`. -/
theorem settle_starts {managers : TrampoMgr × TrampoMgr}
    (h : s.settle targetAddr ssize env r inst = some managers) {ptr : ℕ}
    (hptr : ptr ∈ managers.1.starts ++ managers.2.starts) :
    ptr ∈ s.enters.starts ++ s.exits.starts ∨ env.enter.mmap = some ptr ∨
      env.exit.mmap = some ptr := by
  obtain ⟨enter, enters', enterCleared, henter⟩ : ∃ enter enters' cleared,
    s.enterAlloc env = (enter, enters', cleared) := ⟨_, _, _, rfl⟩
  obtain ⟨exit, exits', exitCleared, hexit⟩ : ∃ exit exits' cleared,
    s.exitAllocOutLibrary targetAddr env = (exit, exits', cleared) := ⟨_, _, _, rfl⟩
  -- Whatever is given back, the pages stay.
  have hstarts : managers.1.starts = enters'.starts ∧
      (managers.2.starts = s.exits.starts ∨ managers.2.starts = exits'.starts) := by
    simp only [settle, henter, hexit] at h
    cases enter with
    | aborted => exact absurd h (by simp)
    | failed =>
      obtain rfl := Option.some.inj h
      exact ⟨rfl, .inl rfl⟩
    | ok cur =>
      have henters : (if r = 0 then enters' else enters'.free env.nowEnterFree cur).starts =
          enters'.starts := by
        split_ifs
        exacts [rfl, TrampoMgr.starts_free]
      by_cases hsize : ssize < 4
      · simp only [if_pos hsize] at h
        obtain rfl := Option.some.inj h
        exact ⟨henters, .inl rfl⟩
      · simp only [if_neg hsize] at h
        cases exit with
        | aborted => exact absurd h (by simp)
        | failed =>
          obtain rfl := Option.some.inj h
          exact ⟨henters, .inr rfl⟩
        | ok exitCur =>
          obtain rfl := Option.some.inj h
          refine ⟨henters, .inr ?_⟩
          simp only
          split_ifs
          exacts [TrampoMgr.starts_free, rfl]
  rw [hstarts.1, List.mem_append] at hptr
  rw [List.mem_append]
  rcases hptr with hptr | hptr
  · rcases (enterPage_of_starts henter).2 hptr with hold | hmmap
    exacts [.inl (.inl hold), .inr (.inl hmmap)]
  · rcases hstarts.2 with hsame | hsame
    · exact .inl (.inr (hsame ▸ hptr))
    · rw [hsame] at hptr
      rcases (TrampoMgr.starts_alloc hexit).1 with hsame | ⟨ptr', hmmap, hnew⟩
      · exact .inl (.inr (hsame ▸ hptr))
      · rw [hnew] at hptr
        rcases List.mem_cons.mp hptr with rfl | hptr
        exacts [.inr (.inr hmmap), .inl (.inr hptr)]

theorem step_starts {sysOp : SysOp} (h : s.step sysOp = some s') {ptr : ℕ}
    (hptr : ptr ∈ s'.enters.starts ++ s'.exits.starts) :
    ptr ∈ s.enters.starts ++ s.exits.starts ∨ sysOp.Maps ptr := by
  obtain ⟨managers, hmanagers, rfl⟩ := Option.map_eq_some_iff.mp h
  cases sysOp with
  | hook found memalign targetAddr newAddr ssize env =>
    rw [System.managers] at hmanagers
    split_ifs at hmanagers with hskip
    · obtain rfl := Option.some.inj hmanagers
      exact .inl hptr
    · exact settle_starts hmanagers hptr
  | hookInvisible targetAddr newAddr ssize env => exact settle_starts hmanagers hptr
  | unhook targetAddr env =>
    rw [System.managers] at hmanagers
    split at hmanagers
    · obtain rfl := Option.some.inj hmanagers
      exact .inl hptr
    · obtain rfl := Option.some.inj hmanagers
      refine .inl ?_
      simp only [unhookSettle] at hptr
      split_ifs at hptr
      all_goals simpa using hptr
  | store a byte =>
    obtain rfl := Option.some.inj hmanagers
    exact .inl hptr

/-- Nothing that a run may write to is part of the text, and all of it is in pages that `mmap` has
handed out, in a gap, or in the first page of memory. -/
theorem Sound.private_run {ops : List SysOp} (h : s.Sound text gaps pastEnters pastExits)
    (hworld : World text gaps) (hops : s.AllowsAll text gaps ops) {op : Op}
    (hop : op ∈ s.effects ops) {b : BitVec 64} (hb : op.Private b) :
    b ∉ text ∧ ((∃ ptr, (ptr ∈ s.enters.starts ++ s.exits.starts ∨ ∃ sysOp ∈ ops, sysOp.Maps ptr) ∧
      InPage ptr b.toNat) ∨ b ∈ gaps ∨ b.toNat < SH_TRAMPO_PAGE_SZ) := by
  induction ops generalizing s pastEnters pastExits with
  | nil => exact absurd hop List.not_mem_nil
  | cons sysOp ops ih =>
    obtain ⟨hallows, hrest⟩ := hops
    obtain ⟨s', _, _, hstep, -, -, hsound⟩ := h.step hworld hallows
    rw [effects, hstep] at hop
    rcases (show s.Skipped sysOp = false ∧ op = s.op sysOp ∨ op ∈ s'.effects ops by
      simp only at hop
      split_ifs at hop with hskip
      · exact .inr hop
      · exact (List.mem_cons.mp hop).imp (fun he => ⟨Bool.eq_false_of_not_eq_true hskip, he⟩) id)
      with ⟨hskip, rfl⟩ | hop
    · obtain ⟨htext, huses⟩ := h.private_step hworld hallows hskip hb
      refine ⟨htext, huses.imp ?_ id⟩
      rintro ⟨ptr, hptr, hin⟩
      exact ⟨ptr, hptr.imp id fun hmaps => ⟨sysOp, List.mem_cons_self, hmaps⟩, hin⟩
    · obtain ⟨htext, huses⟩ := ih hsound (hrest s' hstep) hop
      refine ⟨htext, huses.imp ?_ id⟩
      rintro ⟨ptr, hptr | ⟨op', hop', hmaps⟩, hin⟩
      · refine ⟨ptr, (step_starts hstep hptr).imp id fun hmaps => ?_, hin⟩
        exact ⟨sysOp, List.mem_cons_self, hmaps⟩
      · exact ⟨ptr, .inr ⟨op', List.mem_cons_of_mem _ hop', hmaps⟩, hin⟩

end System

end NativeLib.ShadowHook
