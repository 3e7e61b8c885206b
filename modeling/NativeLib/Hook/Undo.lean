import NativeLib.Hook.OrderedList

/-! When `unHook` undoes `Hooker`. Callers hand `unHook` the address they hooked. A Dobby
record is looked up by that address, a ShadowHook record by the stub the engine returned. -/

namespace NativeLib.Hook

open Interaction Collections

variable {ε : Type} {env : ε → EngineCall → Word → ε → Prop}

/-- Engines that may answer anything. -/
def anyAnswer (_ : Unit) (_ : EngineCall) (_ : Word) (_ : Unit) : Prop := True

/-- Every run of `unHook(sym)` from `s₂` passes the record `info` to the engine and, if the
engine succeeds, returns true and leaves the list as it was in `s`. -/
def Undone (s s₂ : HookUtils) (sym : Ptr) (info : HookAddrInfo) : Prop :=
  ∀ tr ret s', (s₂.unHook sym).Exec anyAnswer () tr (ret, s') () →
    ∃ code, tr = [(s₂.unhookCall info, code)] ∧
      (code = HookUtils.unhookOk s₂.hookutilsModel →
        ret = true ∧ s'.hookedList = s.hookedList)

/-- The record a successful hook leaves behind. -/
theorem HookUtils.HookerStep.pushed {s s' : HookUtils} {dysym newrep org : Ptr} {e e' : ε}
    {tr : Trace EngineCall Word} (h : s.HookerStep env dysym newrep org e tr true s' e')
    (hr : s.recorded dysym = false) :
    ∃ sub, s'.hookedList = s.hookedList ++ [⟨dysym, sub, s.hookutilsModel⟩] ∧
      dysym ≠ nullptr ∧ ∀ stub, s.hookutilsModel = .shadowhook →
        ((.shadowhookHookFuncAddr dysym newrep org, stub) ∈ tr ↔ sub = stub) := by
  generalize hb : true = b at h
  cases h with
  | null h => simp at hb
  | recorded h hi hr' => simp [hr'] at hr
  | @dobby _ _ _ ret _ h hi _ hm hc =>
    have hret : ret = RT_SUCCESS := by simpa using hb
    exact ⟨nullptr, by simp [hret, hi.keeps.1, hm], h, by simp [hm]⟩
  | @shadowhook tr _ _ sub _ h hi _ hm hc =>
    have hsub : sub ≠ nullptr := by simpa using hb
    refine ⟨sub, by simp [hsub, hi.keeps.1, hm], h, fun stub _ => ?_⟩
    have hinit : (.shadowhookHookFuncAddr dysym newrep org, stub) ∉ tr := by
      cases hi <;> simp
    simp [hinit, eq_comm]

/-- A record at the back is found by its key when no older record has that key. -/
theorem HookUtils.selected_push {s s₂ : HookUtils} {sym : Ptr} {info : HookAddrInfo}
    (hn : sym ≠ nullptr) (hl : s₂.hookedList = s.hookedList ++ [info])
    (hnew : info ∉ s.hookedList) :
    s₂.selected sym = some info ↔ s.selected sym = none ∧ HookUtils.keyedBy sym info = true := by
  unfold HookUtils.selected
  rw [if_neg hn, if_neg hn, hl, List.find?_append]
  cases hf : s.hookedList.find? (HookUtils.keyedBy sym) with
  | none => simp
  | some old =>
    have : old ≠ info := by
      rintro rfl
      exact hnew (List.mem_of_find?_eq_some hf)
    simpa using this

/-- `unHook` undoes a hook exactly when it selects the record the hook pushed. -/
theorem undone_iff_selected {s s₂ : HookUtils} {sym : Ptr} {info : HookAddrInfo}
    (hl : s₂.hookedList = s.hookedList ++ [info]) (hnew : info ∉ s.hookedList) :
    Undone s s₂ sym info ↔ s₂.selected sym = some info := by
  have hall : s.hookedList.filter (· ≠ info) = s.hookedList := by
    rw [List.filter_eq_self]
    intro i hi
    have : i ≠ info := fun h => hnew (h ▸ hi)
    simpa using this
  refine ⟨?_, ?_⟩
  · intro h
    cases hsel : s₂.selected sym with
    | none =>
      obtain ⟨code, htr, -⟩ := h [] false s₂ (by
        rw [HookUtils.unHook_none hsel]
        exact ⟨rfl, rfl, rfl⟩)
      simp at htr
    | some old =>
      by_contra hne
      have hne : info ≠ old := fun he => hne (by rw [he])
      obtain ⟨code, htr, hrest⟩ := h [(s₂.unhookCall old, HookUtils.unhookOk s₂.hookutilsModel)]
        _ _ (by
          rw [HookUtils.unHook_some hsel]
          exact ⟨_, (), [], rfl, trivial, rfl, rfl, rfl⟩)
      obtain ⟨-, hcode⟩ := Prod.mk.inj (List.singleton_inj.mp htr)
      have hlist : s₂.hookedList.filter (· ≠ old) = s.hookedList := (hrest hcode.symm).2
      have : info ∈ s₂.hookedList.filter (· ≠ old) := by simp [hl, hne]
      rw [hlist] at this
      exact hnew this
  · intro hsel tr ret s' h
    cases HookUtils.unHook_step h with
    | absent hnone => simp [hnone] at hsel
    | @found info' code _ hsel' hc =>
      obtain rfl : info = info' := Option.some.inj (hsel.symm.trans hsel')
      refine ⟨code, rfl, fun hcode => ⟨by simp [hcode], ?_⟩⟩
      simpa [hl] using hall

/-- A successful `Hooker(a)` is undone by a later `unHook(a)`, with the model and the list as
the hook left them, exactly when no older record has the key `a` and the record is a Dobby
one or has `a` itself as its stub. -/
theorem hooker_undone_iff {s s₁ s₂ : HookUtils} {a newrep org : Ptr} {e e₁ : ε}
    {tr : Trace EngineCall Word} (hrec : s.recorded a = false)
    (hhook : (s.hooker a newrep org).Exec env e tr (true, s₁) e₁)
    (hmodel : s₂.hookutilsModel = s.hookutilsModel) (hlist : s₂.hookedList = s₁.hookedList) :
    ∃ info, s₁.hookedList = s.hookedList ++ [info] ∧ info.hookOrig = a ∧
      info.hookMoudle = s₂.hookutilsModel ∧
      (Undone s s₂ a info ↔ s.selected a = none ∧
        (s.hookutilsModel = .dobby ∨ (.shadowhookHookFuncAddr a newrep org, a) ∈ tr)) := by
  obtain ⟨sub, hpush, hn, hstub⟩ := (HookUtils.hooker_step hhook).pushed hrec
  have hnew : (⟨a, sub, s.hookutilsModel⟩ : HookAddrInfo) ∉ s.hookedList := by
    intro hmem
    have : s.recorded a = true :=
      HookUtils.recorded_iff.mpr (List.mem_map_of_mem (f := HookAddrInfo.hookOrig) hmem)
    simp [this] at hrec
  refine ⟨_, hpush, rfl, hmodel.symm, ?_⟩
  rw [undone_iff_selected (hlist.trans hpush) hnew,
    HookUtils.selected_push hn (hlist.trans hpush) hnew]
  refine and_congr_right fun _ => ?_
  cases hm : s.hookutilsModel with
  | dobby => simp [HookUtils.keyedBy]
  | shadowhook => simp [HookUtils.keyedBy, hstub a hm]

theorem hooker_undone_iff_dobby :
    Undone HookUtils.initial ⟨.dobby, [⟨0x1000, nullptr, .dobby⟩], true⟩ 0x1000
      ⟨0x1000, nullptr, .dobby⟩ := by
  have hhook : (HookUtils.initial.hooker 0x1000 0x2000 0x3000).Exec anyAnswer ()
      [(.dobbyHook 0x1000 0x2000 0x3000, 0)]
      (true, ⟨.dobby, [⟨0x1000, nullptr, .dobby⟩], true⟩) () :=
    ⟨0, (), [], rfl, trivial, rfl, rfl, rfl⟩
  have hrec : HookUtils.initial.recorded 0x1000 = false := by decide
  obtain ⟨info, hl, -, -, hiff⟩ := @hooker_undone_iff _ _ _ _
    ⟨.dobby, [⟨0x1000, nullptr, .dobby⟩], true⟩ _ _ _ _ _ _ hrec hhook rfl rfl
  obtain rfl : _ = info := List.singleton_inj.mp hl
  exact hiff.mpr ⟨by decide, .inl rfl⟩

/-- A ShadowHook record is not found by the address of the hooked function. -/
theorem shadow_hook_not_undone :
    ¬ ∀ (evs : List (HookEvent Unit)) (s s₁ : HookUtils) (a newrep org : Ptr)
      (tr : Trace EngineCall Word) (info : HookAddrInfo),
      HookSession anyAnswer (HookUtils.initial, ()) evs (s, ()) → s.recorded a = false →
      (s.hooker a newrep org).Exec anyAnswer () tr (true, s₁) () →
      s₁.hookedList = s.hookedList ++ [info] → Undone s s₁ a info := by
  intro hall
  let switch : HookEvent Unit :=
    ⟨.setHookerModle .shadowhook, (HookUtils.initial, ()), [], none, (⟨.shadowhook, [], false⟩, ())⟩
  have hswitch : switch.Fires HookOp.body anyAnswer := ⟨rfl, rfl, rfl⟩
  have hundone := hall _ _ ⟨.shadowhook, [⟨0x1000, 0x5000, .shadowhook⟩], true⟩
    0x1000 0x2000 0x3000 _ ⟨0x1000, 0x5000, .shadowhook⟩ (.single hswitch) (by decide)
    ⟨0, (), _, rfl, trivial, 0x5000, (), [], rfl, trivial, rfl, rfl, rfl⟩ rfl
  obtain ⟨code, htr, -⟩ := hundone [] false _ ⟨rfl, rfl, rfl⟩
  simp at htr

end NativeLib.Hook
