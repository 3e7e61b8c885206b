import NativeLib.ShadowHook.Processes

/-! The memory of a process as it would be if nothing were hooked, and that hooking and unhooking
leave it alone. -/

namespace NativeLib.ShadowHook

open Arm64

/-- The memory with the head of every function put back. -/
def unhooked (mem : Mem) : List Switch → Mem
  | [] => mem
  | switch :: switches =>
    putWords (unhooked mem switches) switch.targetAddr switch.inst.backup

/-- What the program itself has written. -/
def stored (mem : Mem) : List Op → Mem
  | [] => mem
  | .store a byte :: ops => stored (Function.update mem a byte) ops
  | _ :: ops => stored mem ops

/-- The bytes that the allocators hand out for a step. -/
def Op.Private : Op → BitVec 64 → Prop
  | .hook _ _ _ _ _ ans, b | .hookInvisible _ _ _ ans, b => ans.Private b
  | _, _ => False

variable {mem mem' : Mem} {switch : Switch} {switches switches' : List Switch} {p q : Process}
  {b targetAddr newAddr : BitVec 64} {ssize : ℕ} {ans : HookAnswers} {inst : Inst} {r : ℤ}
  {orig : Option (BitVec 64)} {op : Op} {ops : List Op}

theorem unhooked_of_out (h : ∀ switch ∈ switches, ¬ switch.Head b) :
    unhooked mem switches b = mem b := by
  induction switches with
  | nil => rfl
  | cons switch switches ih =>
    rw [unhooked, putWords_out (h switch List.mem_cons_self)]
    exact ih fun s hs => h s (List.mem_cons_of_mem _ hs)

/-- A byte of a function that is patched. -/
theorem unhooked_of_head (mem' : Mem) (hapart : switches.Pairwise Switch.Apart)
    (hs : switch ∈ switches) (hb : switch.Head b) :
    unhooked mem switches b = putWords mem' switch.targetAddr switch.inst.backup b := by
  induction switches with
  | nil => exact absurd hs List.not_mem_nil
  | cons first switches ih =>
    obtain ⟨hfirst, hrest⟩ := List.pairwise_cons.mp hapart
    rw [unhooked]
    rcases List.mem_cons.mp hs with rfl | hs
    · exact putWords_in hb
    · rw [putWords_out fun hb' => hfirst switch hs b (.inl hb') (.inl hb)]
      exact ih hrest hs

/-- The order of the patches does not matter, nor what is in their place. -/
theorem unhooked_congr (hapart : switches.Pairwise Switch.Apart)
    (hapart' : switches'.Pairwise Switch.Apart)
    (hsame : ∀ switch, switch.Head b → (switch ∈ switches' ↔ switch ∈ switches))
    (hmem : (∀ switch ∈ switches, ¬ switch.Head b) → mem' b = mem b) :
    unhooked mem' switches' b = unhooked mem switches b := by
  by_cases hhead : ∃ switch ∈ switches, switch.Head b
  · obtain ⟨switch, hs, hb⟩ := hhead
    rw [unhooked_of_head mem hapart hs hb]
    exact unhooked_of_head mem hapart' ((hsame switch hb).mpr hs) hb
  · push Not at hhead
    rw [unhooked_of_out hhead, ← hmem hhead]
    exact unhooked_of_out fun switch hs hb => hhead switch ((hsame switch hb).mp hs) hb

/-- The instructions that a patch has displaced are back. -/
theorem codeAt_unhooked (h : Together mem switches) (hs : switch ∈ switches) :
    CodeAt (unhooked mem switches) switch.targetAddr switch.inst.backup := by
  have hle := (h.inPlace switch hs).patches.le
  exact (codeAt_putWords mem switch.targetAddr (by omega)).congr fun b hb =>
    unhooked_of_head mem h.apart hs hb

/-! One step. -/

/-- A hook shows in the memory of the function only. -/
theorem unhooked_hook (h : Together mem switches) (hroomy : ans.Roomy targetAddr ssize)
    (hapart : ∀ switch ∈ switches, ∀ b, Spans targetAddr (min ssize 16) b ∨ ans.Private b →
      ¬ switch.Region b)
    (hhook : instHook .zero mem targetAddr ssize newAddr ans = (r, inst, mem', orig))
    (hb : ¬ ans.Private b) :
    (r ≠ 0 → unhooked mem' switches b = unhooked mem switches b) ∧
      (r = 0 →
        unhooked mem' (⟨targetAddr, newAddr, inst⟩ :: switches) b = unhooked mem switches b) := by
  obtain ⟨hspec, -, -⟩ := instHook_spec hroomy rfl hhook
  refine ⟨fun hr => ?_, fun hr => ?_⟩
  · refine unhooked_congr h.apart h.apart (fun _ _ => Iff.rfl) fun _ => ?_
    exact hspec.out b hb fun hr' => absurd hr' hr
  · have hle := (hspec.patches hr).le
    have hfits := hspec.fits hr
    rw [unhooked]
    by_cases hhead : Spans targetAddr (4 * inst.backup.length) b
    · have htarget : Spans targetAddr (min ssize 16) b := Nat.lt_of_lt_of_le hhead (by omega)
      -- The backup is what was there.
      have hback : putWords (unhooked mem' switches) targetAddr inst.backup b = mem b := by
        refine (putWords_in hhead).trans (congrFun (?_ : putWords mem _ _ = mem) b)
        rw [hspec.backup hr, putWords_loadWords]
      rw [hback]
      exact (unhooked_of_out fun s hs hb' => hapart s hs b (.inl htarget) (.inl hb')).symm
    · rw [putWords_out hhead]
      refine unhooked_congr h.apart h.apart (fun _ _ => Iff.rfl) fun _ => ?_
      exact hspec.out b hb fun _ => hhead

/-- The exits and the enters of a process are bytes that were handed out. -/
theorem not_room_of_hook (hroomy : ans.Roomy targetAddr ssize)
    (hhook : instHook .zero mem targetAddr ssize newAddr ans = (0, inst, mem', orig))
    (hb : ¬ ans.Private b) : ¬ Switch.Room ⟨targetAddr, newAddr, inst⟩ b := by
  obtain ⟨hspec, -, -⟩ := instHook_spec hroomy rfl hhook
  rintro (henter | ⟨hne, hexit⟩)
  · exact hb (.inl (hspec.enterAddr ▸ henter))
  · exact hb (.inr (.inl ⟨_, (hspec.exitAddr.resolve_left hne).2, hexit⟩))

/-- Unhooking puts back what was there. -/
theorem unhooked_unhook {uans : UnhookAnswers} (h : p.Sound)
    (hfind : p.find targetAddr = some switch) (hreach : uans.Reaches)
    (hroom : ¬ switch.Room b) :
    unhooked (instUnhook switch.inst p.mem targetAddr uans).2
      (p.switches.filter (·.targetAddr ≠ targetAddr) ++ p.lost) b = unhooked p.mem p.patches b := by
  obtain ⟨hmem, rfl⟩ := find_eq_some hfind
  have hswitch : switch ∈ p.patches := List.mem_append_left _ hmem
  have hplace := h.inPlace switch hswitch
  have hothers := h.others hfind
  have hsub : (p.switches.filter (·.targetAddr ≠ switch.targetAddr) ++ p.lost).Sublist p.patches :=
    List.filter_sublist.append_right _
  by_cases hhead : switch.Head b
  · rw [unhooked_of_head p.mem h.apart hswitch hhead]
    rw [unhooked_of_out fun s hs hb' => hothers s hs b (.inl hhead) (.inl hb')]
    rw [instUnhook_of_reaches hplace.patches hreach]
    split_ifs with hexit
    · exact exitFree_out fun hs => hroom (.inr ⟨hexit, hs⟩)
    · rfl
  · refine unhooked_congr h.apart (h.apart.sublist hsub) (fun s hb => ?_) fun _ => ?_
    · refine ⟨fun hs => hsub.subset hs, fun hs => ?_⟩
      rcases List.mem_append.mp hs with hs | hs
      · refine List.mem_append_left _ (List.mem_filter.mpr ⟨hs, ?_⟩)
        rw [decide_eq_true_iff]
        intro htarget
        have hsame := h.eq_of_targetAddr (List.mem_append_left _ hs) hswitch htarget
        exact hhead (hsame ▸ hb)
      · exact List.mem_append_right _ hs
    · exact instUnhook_out hplace fun hb => hb.elim hhead hroom

/-- No step shows in the memory without the patches, but for the stores of the program. -/
theorem unhooked_step (h : p.Sound) (hop : p.Allows op) (hb : ¬ op.Private b)
    (hroom : ∀ switch ∈ p.patches, ¬ switch.Room b) :
    unhooked (p.step op).2.mem (p.step op).2.patches b =
        stored (unhooked p.mem p.patches) [op] b ∧
      ∀ switch ∈ (p.step op).2.patches, ¬ switch.Room b := by
  have hsound := h.step hop
  cases op with
  | hook found memalign targetAddr newAddr ssize ans =>
    rw [Process.step, Process.switchHookUnique] at hsound ⊢
    split_ifs at hsound ⊢ with hfound hmemalign hfind
    · exact ⟨rfl, hroom⟩
    · exact ⟨rfl, hroom⟩
    · exact ⟨rfl, hroom⟩
    obtain ⟨-, hroomy, hapart⟩ := hop (by simpa using hfound) (by simpa using hmemalign)
      (by simpa using hfind)
    obtain ⟨r, inst, mem', orig, hhook⟩ : ∃ r inst mem' orig,
      instHook .zero p.mem targetAddr ssize newAddr ans = (r, inst, mem', orig) := ⟨_, _, _, _, rfl⟩
    obtain ⟨hfailed, hdone⟩ := unhooked_hook h hroomy hapart hhook hb
    rw [hhook]
    simp only
    split_ifs with hr
    · exact ⟨hfailed hr, hroom⟩
    · obtain rfl : r = 0 := not_not.mp hr
      exact ⟨hdone rfl, List.forall_mem_cons.mpr ⟨not_room_of_hook hroomy hhook hb, hroom⟩⟩
  | hookInvisible targetAddr newAddr ssize ans =>
    obtain ⟨-, hroomy, hapart⟩ := hop
    obtain ⟨r, inst, mem', orig, hhook⟩ : ∃ r inst mem' orig,
      instHook .zero p.mem targetAddr ssize newAddr ans = (r, inst, mem', orig) := ⟨_, _, _, _, rfl⟩
    obtain ⟨hfailed, hdone⟩ := unhooked_hook h hroomy hapart hhook hb
    rw [Process.step, Process.switchHookUniqueInvisible, hhook] at hsound ⊢
    simp only at hsound ⊢
    split_ifs at hsound ⊢ with hr
    · exact ⟨hfailed hr, hroom⟩
    · obtain rfl : r = 0 := not_not.mp hr
      have hperm : (p.switches ++ (⟨targetAddr, newAddr, inst⟩ : Switch) :: p.lost).Perm
          (⟨targetAddr, newAddr, inst⟩ :: p.patches) := List.perm_middle
      refine ⟨Eq.trans ?_ (hdone rfl), fun s hs => ?_⟩
      · exact unhooked_congr (hsound.perm hperm).apart hsound.apart (fun _ _ => hperm.mem_iff)
          fun _ => rfl
      · rcases List.mem_cons.mp (hperm.mem_iff.mp hs) with rfl | hs
        · exact not_room_of_hook hroomy hhook hb
        · exact hroom s hs
  | unhook targetAddr ans =>
    rw [Process.step] at hsound ⊢
    cases hfind : p.find targetAddr with
    | none =>
      rw [switchUnhookUnique_of_none hfind]
      exact ⟨rfl, hroom⟩
    | some switch =>
      obtain ⟨hmem, htarget⟩ := find_eq_some hfind
      have hswitch : switch ∈ p.patches := List.mem_append_left _ hmem
      by_cases hreach : ans.Reaches
      · rw [switchUnhookUnique_of_reaches hfind (h.inPlace switch hswitch) hreach]
        refine ⟨unhooked_unhook h hfind hreach (hroom switch hswitch), fun s hs => hroom s ?_⟩
        exact (List.filter_sublist.append_right _).subset hs
      · rw [switchUnhookUnique_of_not hfind hreach] at hsound ⊢
        have hsame : ∀ s, s ∈ p.switches.filter (·.targetAddr ≠ targetAddr) ++ switch :: p.lost ↔
            s ∈ p.patches := by
          intro s
          simp only [Process.patches, List.mem_append, List.mem_filter, List.mem_cons,
            decide_eq_true_iff]
          refine ⟨?_, ?_⟩
          · rintro (hs | rfl | hs)
            exacts [.inl hs.1, .inl hmem, .inr hs]
          · rintro (hs | hs)
            · by_cases ht : s.targetAddr = targetAddr
              · exact .inr (.inl (h.eq_of_targetAddr (List.mem_append_left _ hs) hswitch
                  (ht.trans htarget.symm)))
              · exact .inl ⟨hs, ht⟩
            · exact .inr (.inr hs)
        refine ⟨unhooked_congr h.apart hsound.apart (fun s _ => hsame s) fun _ => rfl, ?_⟩
        exact fun s hs => hroom s ((hsame s).mp hs)
  | store a byte =>
    refine ⟨?_, hroom⟩
    have hout : ∀ switch ∈ p.patches, ¬ switch.Head a := fun s hs ha => hop s hs (.inl ha)
    rw [stored, stored]
    by_cases hba : b = a
    · subst hba
      rw [Function.update_self]
      exact (unhooked_of_out hout).trans (Function.update_self ..)
    · rw [Function.update_of_ne hba]
      exact unhooked_congr h.apart h.apart (fun _ _ => Iff.rfl)
        fun _ => Function.update_of_ne hba ..

/-! A run. -/

theorem stored_cons (op : Op) (ops : List Op) :
    stored mem (op :: ops) = stored (stored mem [op]) ops := by
  cases op <;> rfl

theorem stored_congr (h : mem' b = mem b) : stored mem' ops b = stored mem ops b := by
  induction ops generalizing mem mem' with
  | nil => exact h
  | cons op ops ih =>
    cases op with
    | store a byte =>
      refine ih ?_
      rw [Function.update_apply, Function.update_apply, h]
    | hook | hookInvisible | unhook => exact ih h

/-- However functions are hooked and unhooked, the memory without the patches is what the program
has made of it. -/
theorem unhooked_run (h : p.Sound) (hrun : Process.Run p ops q) (hb : ∀ op ∈ ops, ¬ op.Private b)
    (hroom : ∀ switch ∈ p.patches, ¬ switch.Room b) :
    unhooked q.mem q.patches b = stored (unhooked p.mem p.patches) ops b := by
  induction hrun with
  | nil p => rfl
  | cons hop _ ih =>
    obtain ⟨hfirst, hrest⟩ := List.forall_mem_cons.mp hb
    obtain ⟨hstep, hroom'⟩ := unhooked_step h hop hfirst hroom
    rw [ih (h.step hop) hrest hroom', stored_cons]
    exact stored_congr hstep

end NativeLib.ShadowHook
