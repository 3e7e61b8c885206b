import NativeLib.ShadowHook.Switches

/-! What holds of a process whose functions are hooked and unhooked, in any order. -/

namespace NativeLib.ShadowHook

open Arm64

variable {mem mem' : Mem} {switch : Switch} {p q : Process} {a b targetAddr newAddr : BitVec 64}
  {ssize : ℕ} {ans : HookAnswers} {inst : Inst} {r : ℤ} {orig : Option (BitVec 64)}

namespace Switch

/-- A patch stays in place as long as its bytes do. -/
theorem InPlace.congr (h : switch.InPlace mem) (hmem : ∀ b, switch.Region b → mem' b = mem b) :
    switch.InPlace mem' := by
  have hfit := Inst.four_mul_length_code h.patches.movable h.patches.le
  refine ⟨⟨h.patches.same, h.patches.pos, h.patches.le, h.patches.movable, ?_, ?_, ?_⟩, h.noWrap,
    h.inner⟩
  · refine h.patches.trampo.congr fun b hb => hmem b (.inl ?_)
    rwa [h.patches.same] at hb
  · refine h.patches.enter.congr fun b hb => hmem b (.inr (.inl ?_))
    exact Nat.lt_of_lt_of_le hb (by omega)
  · rcases h.patches.leads with hleads | ⟨hne, hreach, htrampo, hexit, hcode⟩
    · exact .inl hleads
    · refine .inr ⟨hne, hreach, htrampo, hexit, hcode.congr fun b hb => hmem b ?_⟩
      exact .inr (.inr ⟨hne, by rwa [hexit] at hb⟩)

/-- A function that has been hooked lies where it was said to. -/
theorem region_of_spec (hspec : HookSpec mem targetAddr ssize newAddr ans 0 inst mem') :
    ∀ b, Region ⟨targetAddr, newAddr, inst⟩ b →
      Spans targetAddr (min ssize 16) b ∨ ans.Private b := by
  have hle := (hspec.patches rfl).le
  have hfits := hspec.fits rfl
  rintro b (hhead | henter | ⟨hne, hexit⟩)
  · exact .inl (Nat.lt_of_lt_of_le hhead (by simp only; omega))
  · exact .inr (.inl (hspec.enterAddr ▸ henter))
  · exact .inr (.inr (.inl ⟨_, (hspec.exitAddr.resolve_left hne).2, hexit⟩))

theorem inPlace_of_spec (hspec : HookSpec mem targetAddr ssize newAddr ans 0 inst mem')
    (hroomy : ans.Roomy targetAddr ssize) (hwrap : targetAddr.toNat + 16 < 2 ^ 64) :
    InPlace ⟨targetAddr, newAddr, inst⟩ mem' := by
  have hle := (hspec.patches rfl).le
  have hfits := hspec.fits rfl
  refine ⟨hspec.patches rfl, hwrap, fun b hhead hroom => ?_⟩
  have htarget : Spans targetAddr (min ssize 16) b :=
    Nat.lt_of_lt_of_le hhead (by simp only; omega)
  rcases hroom with henter | ⟨hne, hexit⟩
  · exact hroomy.enter b htarget (hspec.enterAddr ▸ henter)
  · exact ((hroomy.exit _ (hspec.exitAddr.resolve_left hne).2).2.2 b hexit).1 htarget

end Switch

namespace Together

variable {switches switches' : List Switch}

theorem congr (h : Together mem switches)
    (hmem : ∀ switch ∈ switches, ∀ b, switch.Region b → mem' b = mem b) :
    Together mem' switches :=
  ⟨fun switch hs => (h.inPlace switch hs).congr (hmem switch hs), h.apart⟩

theorem perm (h : Together mem switches) (hperm : switches.Perm switches') :
    Together mem switches' :=
  ⟨fun switch hs => h.inPlace switch (hperm.mem_iff.mpr hs),
    (hperm.pairwise_iff fun h => h.symm).mp h.apart⟩

theorem sublist (h : Together mem switches) (hsub : switches'.Sublist switches) :
    Together mem switches' :=
  ⟨fun switch hs => h.inPlace switch (hsub.subset hs), h.apart.sublist hsub⟩

theorem cons (h : Together mem switches) (hplace : switch.InPlace mem)
    (hapart : ∀ switch' ∈ switches, switch.Apart switch') : Together mem (switch :: switches) :=
  ⟨fun s hs => (List.mem_cons.mp hs).elim (fun he => he ▸ hplace) (h.inPlace s),
    List.pairwise_cons.mpr ⟨hapart, h.apart⟩⟩

theorem apart_of_ne (h : Together mem switches) {s s' : Switch} (hs : s ∈ switches)
    (hs' : s' ∈ switches) (hne : s ≠ s') : s.Apart s' := by
  obtain ⟨-, hapart⟩ := h
  induction switches with
  | nil => exact absurd hs List.not_mem_nil
  | cons first switches ih =>
    obtain ⟨hfirst, hrest⟩ := List.pairwise_cons.mp hapart
    rcases List.mem_cons.mp hs with rfl | hmem
    · rcases List.mem_cons.mp hs' with rfl | hmem'
      · exact absurd rfl hne
      · exact hfirst s' hmem'
    · rcases List.mem_cons.mp hs' with rfl | hmem'
      · exact (hfirst s hmem).symm
      · exact ih hmem hmem' hrest

/-- Two patches of one function are one patch. -/
theorem eq_of_targetAddr (h : Together mem switches) {s s' : Switch} (hs : s ∈ switches)
    (hs' : s' ∈ switches) (ht : s.targetAddr = s'.targetAddr) : s = s' := by
  by_contra hne
  have hfirst : ∀ t ∈ switches, t.Head t.targetAddr := by
    intro t hmem
    have hpos := (h.inPlace t hmem).patches.pos
    rw [Switch.Head, Spans, BitVec.sub_self]
    exact Nat.mul_pos (by omega) hpos
  exact h.apart_of_ne hs hs' hne s.targetAddr (.inl (hfirst s hs)) (.inl (ht ▸ hfirst s' hs'))

end Together

/-! One step. -/

/-- What a hook does to a process whose functions are patched already. -/
theorem hook_together {switches : List Switch} (h : Together mem switches)
    (hwrap : targetAddr.toNat + 16 < 2 ^ 64) (hroomy : ans.Roomy targetAddr ssize)
    (hapart : ∀ switch ∈ switches, ∀ b, Spans targetAddr (min ssize 16) b ∨ ans.Private b →
      ¬ switch.Region b)
    (hhook : instHook .zero mem targetAddr ssize newAddr ans = (r, inst, mem', orig)) :
    Together mem' switches ∧ (r = 0 → Together mem' (⟨targetAddr, newAddr, inst⟩ :: switches)) := by
  obtain ⟨hspec, -, -⟩ := instHook_spec hroomy rfl hhook
  have hkept : Together mem' switches := by
    refine h.congr fun switch hs b hb => hspec.out b ?_ fun hr => ?_
    · exact fun hprivate => hapart switch hs b (.inr hprivate) hb
    · have hfits := hspec.fits hr
      have hle := (hspec.patches hr).le
      exact fun hhead => hapart switch hs b (.inl (Nat.lt_of_lt_of_le hhead (by omega))) hb
  refine ⟨hkept, ?_⟩
  rintro rfl
  exact hkept.cons (Switch.inPlace_of_spec hspec hroomy hwrap) fun switch hs b hb hb' =>
    hapart switch hs b (Switch.region_of_spec hspec b hb) hb'

/-- What an unhook writes to. -/
theorem instUnhook_out {uans : UnhookAnswers} (hplace : switch.InPlace mem)
    (hb : ¬ switch.Region b) :
    (instUnhook switch.inst mem switch.targetAddr uans).2 b = mem b := by
  by_cases hreach : uans.Reaches
  · have hhead : putWords mem switch.targetAddr switch.inst.backup b = mem b :=
      putWords_out fun hs => hb (.inl hs)
    rw [instUnhook_of_reaches hplace.patches hreach]
    split_ifs with hexit
    · rw [exitFree_out fun hs => hb (.inr (.inr ⟨hexit, hs⟩)), hhead]
    · exact hhead
  · rw [(instUnhook_of_not hreach).2]

theorem find_eq_some (h : p.find targetAddr = some switch) :
    switch ∈ p.switches ∧ switch.targetAddr = targetAddr :=
  ⟨List.mem_of_find?_eq_some h, by simpa using List.find?_some h⟩

/-- The patches that stay when a function is unhooked. -/
theorem Process.Sound.others (h : p.Sound) (hfind : p.find targetAddr = some switch) :
    ∀ s ∈ p.switches.filter (·.targetAddr ≠ targetAddr) ++ p.lost, switch.Apart s := by
  obtain ⟨hmem, htarget⟩ := find_eq_some hfind
  intro s hs
  rcases List.mem_append.mp hs with hs | hs
  · obtain ⟨hs, hne⟩ := List.mem_filter.mp hs
    refine h.apart_of_ne (List.mem_append_left _ hmem) (List.mem_append_left _ hs) ?_
    rintro rfl
    exact absurd htarget (by simpa using hne)
  · exact (List.pairwise_append.mp h.apart).2.2 switch hmem s hs

/-- What is in place is what an unhook looks for. -/
theorem Switch.InPlace.restored {uans : UnhookAnswers} (h : switch.InPlace p.mem)
    (hfind : p.find targetAddr = some switch) (hreach : uans.Reaches) :
    switch.inst.Restored p.mem targetAddr uans := by
  obtain ⟨-, rfl⟩ := find_eq_some hfind
  exact ⟨hreach.1, codeAt_iff_loadWords.mp h.patches.trampo, hreach.2⟩

/-- An unhook that gets to the function. -/
theorem switchUnhookUnique_of_reaches {uans : UnhookAnswers}
    (hfind : p.find targetAddr = some switch) (hplace : switch.InPlace p.mem) (h : uans.Reaches) :
    (p.switchUnhookUnique targetAddr uans).2 = {
      mem := (instUnhook switch.inst p.mem targetAddr uans).2
      switches := p.switches.filter (·.targetAddr ≠ targetAddr)
      lost := p.lost } := by
  have hreach : switch.inst.Restored p.mem targetAddr uans := hplace.restored hfind h
  rw [Process.switchUnhookUnique, hfind]
  simp only [if_pos hreach]

/-- An unhook that does not: the switch is gone, the patch is not. -/
theorem switchUnhookUnique_of_not {uans : UnhookAnswers}
    (hfind : p.find targetAddr = some switch) (h : ¬ uans.Reaches) :
    (p.switchUnhookUnique targetAddr uans).2 = {
      mem := p.mem
      switches := p.switches.filter (·.targetAddr ≠ targetAddr)
      lost := switch :: p.lost } := by
  have hreach : ¬ switch.inst.Restored p.mem targetAddr uans := fun hr => h ⟨hr.1, hr.2.2⟩
  rw [Process.switchUnhookUnique, hfind]
  simp only [if_neg hreach, (instUnhook_of_not h).2]

theorem switchUnhookUnique_of_none {uans : UnhookAnswers} (hfind : p.find targetAddr = none) :
    (p.switchUnhookUnique targetAddr uans).2 = p := by
  rw [Process.switchUnhookUnique, hfind]

/-- A step that the threads may take keeps every patch in place. -/
theorem Process.Sound.step (h : p.Sound) {op : Op} (hop : p.Allows op) : (p.step op).2.Sound := by
  cases op with
  | hook found memalign targetAddr newAddr ssize ans =>
    rw [Process.step, Process.switchHookUnique]
    split_ifs with hfound hmemalign hfind
    · exact h
    · exact h
    · exact h
    obtain ⟨hwrap, hroomy, hapart⟩ := hop (by simpa using hfound) (by simpa using hmemalign)
      (by simpa using hfind)
    obtain ⟨r, inst, mem', orig, hhook⟩ : ∃ r inst mem' orig,
      instHook .zero p.mem targetAddr ssize newAddr ans = (r, inst, mem', orig) := ⟨_, _, _, _, rfl⟩
    obtain ⟨hkept, hnew⟩ := hook_together h hwrap hroomy hapart hhook
    rw [hhook]
    simp only
    split_ifs with hr
    · exact hkept
    · exact hnew (not_not.mp hr)
  | hookInvisible targetAddr newAddr ssize ans =>
    obtain ⟨hwrap, hroomy, hapart⟩ := hop
    obtain ⟨r, inst, mem', orig, hhook⟩ : ∃ r inst mem' orig,
      instHook .zero p.mem targetAddr ssize newAddr ans = (r, inst, mem', orig) := ⟨_, _, _, _, rfl⟩
    obtain ⟨hkept, hnew⟩ := hook_together h hwrap hroomy hapart hhook
    rw [Process.step, Process.switchHookUniqueInvisible, hhook]
    simp only
    split_ifs with hr
    · exact hkept
    · exact (hnew (not_not.mp hr)).perm List.perm_middle.symm
  | unhook targetAddr ans =>
    rw [Process.step]
    cases hfind : p.find targetAddr with
    | none => rwa [switchUnhookUnique_of_none hfind]
    | some switch =>
      obtain ⟨hmem, rfl⟩ := find_eq_some hfind
      have hplace := h.inPlace switch (List.mem_append_left _ hmem)
      have hothers := h.others hfind
      have hrest : Together p.mem
          (p.switches.filter (·.targetAddr ≠ switch.targetAddr) ++ p.lost) :=
        h.sublist (List.filter_sublist.append_right _)
      by_cases hreach : ans.Reaches
      · rw [switchUnhookUnique_of_reaches hfind hplace hreach]
        refine hrest.congr fun s hs b hb => ?_
        exact instUnhook_out hplace fun hb' => hothers s hs b hb' hb
      · rw [switchUnhookUnique_of_not hfind hreach]
        exact (hrest.cons hplace hothers).perm List.perm_middle.symm
  | store a byte =>
    refine h.congr fun switch hs b hb => Function.update_of_ne ?_ _ _
    rintro rfl
    exact hop switch hs hb

/-- A hook that is done: what it does to the process. -/
theorem Process.step_hook_of_ne {found memalign : Bool} (hne : (p.step (.hook found memalign
      targetAddr newAddr ssize ans)).2.switches ≠ p.switches) :
    found = false ∧ memalign = true ∧ p.find targetAddr = none ∧
      ∃ inst mem' orig, instHook .zero p.mem targetAddr ssize newAddr ans = (0, inst, mem', orig) ∧
        (p.step (.hook found memalign targetAddr newAddr ssize ans)).2 =
          { p with mem := mem', switches := ⟨targetAddr, newAddr, inst⟩ :: p.switches } := by
  rw [Process.step, Process.switchHookUnique] at hne ⊢
  split_ifs at hne ⊢ with hfound hmemalign hfind
  · exact absurd rfl hne
  · exact absurd rfl hne
  · exact absurd rfl hne
  obtain ⟨r, inst, mem', orig, hhook⟩ : ∃ r inst mem' orig,
    instHook .zero p.mem targetAddr ssize newAddr ans = (r, inst, mem', orig) := ⟨_, _, _, _, rfl⟩
  rw [hhook] at hne ⊢
  simp only at hne ⊢
  split_ifs at hne ⊢ with hr
  · exact absurd rfl hne
  · obtain rfl : r = 0 := not_not.mp hr
    exact ⟨by simpa using hfound, by simpa using hmemalign, by simpa using hfind, inst, mem', orig,
      rfl, rfl⟩

/-- A patch without a switch stays, and so does it without a switch. -/
theorem Process.step_lost {op : Op} (hop : p.Allows op) (hsound : p.Sound)
    (hs : switch ∈ p.lost) (hfind : p.find switch.targetAddr = none) :
    switch ∈ (p.step op).2.lost ∧ (p.step op).2.find switch.targetAddr = none := by
  cases op with
  | hook found memalign targetAddr newAddr ssize ans =>
    have hlost : (p.step (.hook found memalign targetAddr newAddr ssize ans)).2.lost = p.lost := by
      rw [Process.step, Process.switchHookUnique]
      simp only
      split_ifs <;> rfl
    refine ⟨hlost.symm ▸ hs, ?_⟩
    by_cases hsame : (p.step (.hook found memalign targetAddr newAddr ssize ans)).2.switches =
        p.switches
    · rwa [Process.find, hsame]
    · obtain ⟨hfound, hmemalign, hnew, inst, mem', orig, hhook, hstep⟩ :=
        Process.step_hook_of_ne hsame
      obtain ⟨-, hroomy, hapart⟩ := hop hfound hmemalign hnew
      have hspec := (instHook_spec hroomy rfl hhook).1
      have hfits := hspec.fits rfl
      have hpos := (hspec.patches rfl).pos
      -- The function is patched, so it is not the one that has been hooked.
      have hne : targetAddr ≠ switch.targetAddr := by
        rintro rfl
        have hpos' := (hsound.inPlace switch (List.mem_append_right _ hs)).patches.pos
        refine hapart switch (List.mem_append_right _ hs) switch.targetAddr (.inl ?_) (.inl ?_)
        · rw [Spans, BitVec.sub_self]
          exact Nat.lt_min.mpr ⟨Nat.lt_of_lt_of_le (Nat.mul_pos (by omega) hpos) hfits, by decide⟩
        · rw [Switch.Head, Spans, BitVec.sub_self]
          exact Nat.mul_pos (by omega) hpos'
      rw [hstep, Process.find, List.find?_cons_of_neg (by simpa using hne)]
      exact hfind
  | hookInvisible targetAddr newAddr ssize ans =>
    rw [Process.step, Process.switchHookUniqueInvisible]
    simp only
    split_ifs
    · exact ⟨hs, hfind⟩
    · exact ⟨List.mem_cons_of_mem _ hs, hfind⟩
  | unhook targetAddr ans =>
    rw [Process.step]
    cases hfind' : p.find targetAddr with
    | none =>
      rw [switchUnhookUnique_of_none hfind']
      exact ⟨hs, hfind⟩
    | some other =>
      have hrest : (p.switches.filter (·.targetAddr ≠ targetAddr)).find?
          (·.targetAddr = switch.targetAddr) = none := by
        rw [Process.find, List.find?_eq_none] at hfind
        rw [List.find?_eq_none]
        exact fun s hs => hfind s (List.mem_filter.mp hs).1
      by_cases hreach : ans.Reaches
      · have hplace := hsound.inPlace other (List.mem_append_left _ (find_eq_some hfind').1)
        rw [switchUnhookUnique_of_reaches hfind' hplace hreach]
        exact ⟨hs, hrest⟩
      · rw [switchUnhookUnique_of_not hfind' hreach]
        exact ⟨List.mem_cons_of_mem _ hs, hrest⟩
  | store a byte => exact ⟨hs, hfind⟩

theorem Process.run_lost {ops : List Op} (hsound : p.Sound) (hrun : Process.Run p ops q)
    (hs : switch ∈ p.lost) (hfind : p.find switch.targetAddr = none) :
    switch ∈ q.lost ∧ q.find switch.targetAddr = none := by
  induction hrun with
  | nil p => exact ⟨hs, hfind⟩
  | cons hop _ ih =>
    obtain ⟨hs', hfind'⟩ := Process.step_lost hop hsound hs hfind
    exact ih (hsound.step hop) hs' hfind'

/-- The patches are in place all the way. -/
theorem Process.Sound.run {ops : List Op} (h : p.Sound) (hrun : Process.Run p ops q) :
    q.Sound := by
  induction hrun with
  | nil p => exact h
  | cons hop _ ih => exact ih (h.step hop)

end NativeLib.ShadowHook
