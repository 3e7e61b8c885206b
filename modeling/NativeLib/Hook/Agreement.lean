import NativeLib.Hook.Engines
import NativeLib.Hook.Steps

/-! When the registry agrees with the engines: its records are the patches they hold. A
`Hooker` call keeps the agreement. An `unHook` call keeps it exactly when the record goes to
the engine that holds its patch, and that engine takes the patch back. -/

namespace NativeLib.Hook

open Interaction

/-- The registry and the engines tell the same. -/
structure Agrees (s : HookUtils) (e : Engines) : Prop where
  patched : ∀ a m, e.Patched a m ↔
    ∃ info ∈ s.hookedList, info.hookOrig = a ∧ info.hookMoudle = m
  nodup : (s.hookedList.map HookAddrInfo.hookOrig).Nodup
  one : ∀ a, ¬ (e.Patched a .dobby ∧ e.Patched a .shadowhook)

/-- The records are the patches, stubs included. -/
structure Linked (s : HookUtils) (e : Engines) : Prop where
  nodup : (s.hookedList.map HookAddrInfo.hookOrig).Nodup
  holds : ∀ info, info ∈ s.hookedList ↔ e.Holds info

theorem linked_initial : Linked HookUtils.initial Engines.none :=
  ⟨List.nodup_nil, fun info => by simp [HookUtils.initial, Engines.holds_none info]⟩

namespace Linked

variable {s : HookUtils} {e : Engines}

/-- An address has one record. -/
theorem unique (h : Linked s e) {i j : HookAddrInfo} (hi : i ∈ s.hookedList)
    (hj : j ∈ s.hookedList) (hij : i.hookOrig = j.hookOrig) : i = j :=
  List.inj_on_of_nodup_map h.nodup hi hj hij

theorem agrees (h : Linked s e) : Agrees s e := by
  have hp : ∀ a m, e.Patched a m ↔
      ∃ info ∈ s.hookedList, info.hookOrig = a ∧ info.hookMoudle = m := by
    intro a m
    simp only [Engines.patched_iff, h.holds]
  refine ⟨hp, h.nodup, ?_⟩
  intro a hboth
  obtain ⟨i, hi, hia, him⟩ := (hp a .dobby).mp hboth.1
  obtain ⟨j, hj, hja, hjm⟩ := (hp a .shadowhook).mp hboth.2
  have hij := h.unique hi hj (hia.trans hja.symm)
  rw [← hij, him] at hjm
  exact HookModel.noConfusion hjm

theorem of_eq {s' : HookUtils} (h : Linked s e) (hl : s'.hookedList = s.hookedList) :
    Linked s' e :=
  ⟨hl ▸ h.nodup, hl ▸ h.holds⟩

/-- A new record for a new patch. -/
theorem push {s' : HookUtils} {e' : Engines} (info : HookAddrInfo) (h : Linked s e)
    (hnew : info.hookOrig ∉ s.hookedList.map HookAddrInfo.hookOrig)
    (hl : s'.hookedList = s.hookedList ++ [info])
    (he : ∀ i, e'.Holds i ↔ e.Holds i ∨ i = info) : Linked s' e' := by
  refine ⟨?_, ?_⟩
  · rw [hl, List.map_append, List.map_singleton, List.nodup_append]
    refine ⟨h.nodup, List.nodup_singleton _, ?_⟩
    intro a ha b hb hab
    rw [List.mem_singleton] at hb
    apply hnew
    rwa [← hb, ← hab]
  · intro i
    rw [hl, List.mem_append, List.mem_singleton, he, h.holds]

/-- One record and its patch less. -/
theorem erase {s' : HookUtils} {e' : Engines} {info : HookAddrInfo} (h : Linked s e)
    (hl : s'.hookedList = s.hookedList.filter (· ≠ info))
    (he : ∀ i, e'.Holds i ↔ e.Holds i ∧ i ≠ info) : Linked s' e' := by
  refine ⟨?_, ?_⟩
  · rw [hl]
    exact h.nodup.sublist (List.filter_sublist.map _)
  · intro i
    rw [hl, List.mem_filter, decide_eq_true_iff, he, h.holds]

/-- A record less while its patch stays: the two no longer agree. -/
theorem not_agrees_of_erase {s' : HookUtils} {info : HookAddrInfo} (h : Linked s e)
    (hmem : info ∈ s.hookedList) (hl : s'.hookedList = s.hookedList.filter (· ≠ info)) :
    ¬ Agrees s' e := by
  intro ha
  have hp : e.Patched info.hookOrig info.hookMoudle :=
    Engines.patched_iff.mpr ⟨info, (h.holds info).mp hmem, rfl, rfl⟩
  obtain ⟨i, hi, hio, -⟩ := (ha.patched _ _).mp hp
  rw [hl, List.mem_filter, decide_eq_true_iff] at hi
  exact hi.2 (h.unique hi.1 hmem hio)

/-- Only the engine that holds the patch of a record can take it back. -/
theorem unhook_ok {info : HookAddrInfo} {e' : Engines} (h : Linked s e)
    (hmem : info ∈ s.hookedList)
    (hc : e.Step (s.unhookCall info) (HookUtils.unhookOk s.hookutilsModel) e') :
    info.hookMoudle = s.hookutilsModel ∧ ∀ i, e'.Holds i ↔ e.Holds i ∧ i ≠ info := by
  have hinfo := (h.holds info).mp hmem
  obtain ⟨orig, ret, moudle⟩ := info
  unfold HookUtils.unhookCall HookUtils.unhookOk at hc
  cases hm : s.hookutilsModel with
  | dobby =>
    rw [hm] at hc
    cases hc with
    | dobbyDestroyFailed _ hne => exact absurd rfl hne
    | dobbyDestroyed hd =>
      have hdobby := (h.holds ⟨orig, nullptr, .dobby⟩).mpr ⟨rfl, hd⟩
      obtain ⟨-, rfl, rfl⟩ := HookAddrInfo.mk.inj (h.unique hdobby hmem rfl)
      exact ⟨rfl, fun i => Engines.holds_unpatchDobby⟩
  | shadowhook =>
    rw [hm] at hc
    cases hc with
    | shadowUnhookFailed _ hne => exact absurd rfl hne
    | shadowUnhooked hs =>
      obtain ⟨⟨a, stub⟩, hp, hstub⟩ := Finset.mem_image.mp hs
      cases moudle with
      | dobby => exact absurd (hstub.trans hinfo.1) (e.stub_ne _ hp)
      | shadowhook => exact ⟨rfl, fun i => Engines.holds_unpatchShadow hinfo⟩

theorem unhook_failed {info : HookAddrInfo} {code : Word} {e' : Engines}
    (hc : e.Step (s.unhookCall info) code e') (hne : code ≠ HookUtils.unhookOk s.hookutilsModel) :
    e' = e := by
  unfold HookUtils.unhookCall at hc
  unfold HookUtils.unhookOk at hne
  cases hm : s.hookutilsModel with
  | dobby =>
    rw [hm] at hc hne
    cases hc with
    | dobbyDestroyed => exact absurd rfl hne
    | dobbyDestroyFailed => rfl
  | shadowhook =>
    rw [hm] at hc hne
    cases hc with
    | shadowUnhooked => exact absurd rfl hne
    | shadowUnhookFailed => rfl

end Linked

theorem HookUtils.InitStep.engines {s s' : HookUtils} {e e' : Engines}
    {tr : Trace EngineCall Word} (h : s.InitStep Engines.Step e tr s' e') : e' = e := by
  cases h with
  | done h => rfl
  | dobby h hm => rfl
  | shadowhook h hm hr =>
    cases hr
    rfl

/-- `Hooker` keeps records and patches together. -/
theorem HookUtils.HookerStep.linked {s s' : HookUtils} {dysym newrep org : Ptr}
    {e e' : Engines} {tr : Trace EngineCall Word} {b : Bool}
    (h : s.HookerStep Engines.Step dysym newrep org e tr b s' e') (hl : Linked s e) :
    Linked s' e' := by
  cases h with
  | null h => exact hl
  | recorded h hi hr =>
    rw [hi.engines]
    exact hl.of_eq hi.keeps.1
  | @dobby tr s₀ e₀ ret _ h hi hr hm hc =>
    have hnew : dysym ∉ s.hookedList.map HookAddrInfo.hookOrig := by
      rw [← HookUtils.recorded_iff, hr]
      simp
    rw [hi.engines] at hc
    cases hc with
    | dobbyHooked _ _ hd =>
      rw [if_pos rfl]
      exact hl.push ⟨dysym, nullptr, .dobby⟩ hnew (by simp [hi.keeps.1])
        fun i => Engines.holds_patchDobby
    | dobbyHookFailed _ _ _ hne =>
      rw [if_neg hne]
      exact hl.of_eq hi.keeps.1
  | @shadowhook tr s₀ e₀ sub _ h hi hr hm hc =>
    have hnew : dysym ∉ s.hookedList.map HookAddrInfo.hookOrig := by
      rw [← HookUtils.recorded_iff, hr]
      simp
    rw [hi.engines] at hc
    cases hc with
    | shadowHooked _ _ hf =>
      rw [if_pos hf.1]
      exact hl.push ⟨dysym, sub, .shadowhook⟩ hnew (by simp [hi.keeps.1])
        fun i => Engines.holds_patchShadow
    | shadowHookFailed =>
      rw [if_neg (by simp)]
      exact hl.of_eq hi.keeps.1

/-- If the operation is an `unHook` that finds a record, then the record is one of the
current model and the engine of that model takes the patch back. -/
def UnhookedByOwner (ev : HookEvent Engines) : Prop :=
  ∀ info ∈ removedBy ev.pre.1 ev.op, info.hookMoudle = ev.pre.1.hookutilsModel ∧
    ∀ r ∈ ev.trace, r.2 = HookUtils.unhookOk ev.pre.1.hookutilsModel

instance (ev : HookEvent Engines) : Decidable (UnhookedByOwner ev) :=
  inferInstanceAs (Decidable (∀ info ∈ _, _))

theorem UnhookedByOwner.linked {ev : HookEvent Engines} (h : UnhookedByOwner ev)
    (hev : ev.Fires HookOp.body Engines.Step) (hl : Linked ev.pre.1 ev.pre.2) :
    Linked ev.post.1 ev.post.2 := by
  obtain ⟨op, ⟨s, e⟩, tr, b, ⟨s', e'⟩⟩ := ev
  have hs : HookStep Engines.Step s e op tr b s' e' := HookOp.body_step hev
  cases hs with
  | setHookerModle modle => exact hl.of_eq rfl
  | hooker hs => exact hs.linked hl
  | unHook hs =>
    cases hs with
    | absent hsel => exact hl
    | @found info code _ hsel hc =>
      obtain ⟨-, hcode⟩ := h info hsel
      obtain rfl : code = HookUtils.unhookOk s.hookutilsModel := hcode _ (List.mem_singleton_self _)
      have hok := hl.unhook_ok (HookUtils.selected_mem hsel).1 hc
      exact hl.erase rfl hok.2

/-- Any other `unHook` drops a record whose patch stays. -/
theorem unhookedByOwner_of_agrees {ev : HookEvent Engines}
    (hev : ev.Fires HookOp.body Engines.Step) (hl : Linked ev.pre.1 ev.pre.2)
    (ha : Agrees ev.post.1 ev.post.2) : UnhookedByOwner ev := by
  obtain ⟨op, ⟨s, e⟩, tr, b, ⟨s', e'⟩⟩ := ev
  have hs : HookStep Engines.Step s e op tr b s' e' := HookOp.body_step hev
  intro info hsel
  cases hs with
  | setHookerModle modle => simp [removedBy] at hsel
  | hooker hs => simp [removedBy] at hsel
  | unHook hs =>
    cases hs with
    | absent hsel' => simp [removedBy, hsel'] at hsel
    | @found info' code _ hsel' hc =>
      obtain rfl : info' = info := Option.some.inj (hsel'.symm.trans hsel)
      have hmem := (HookUtils.selected_mem hsel').1
      by_cases hcode : code = HookUtils.unhookOk s.hookutilsModel
      · subst hcode
        exact ⟨(hl.unhook_ok hmem hc).1, by simp⟩
      · obtain rfl := Linked.unhook_failed hc hcode
        exact absurd ha (hl.not_agrees_of_erase hmem rfl)

/-- Records and patches agree throughout a run exactly when every `unHook` of the run that
finds a record happens under the model of that record and is carried out by its engine. -/
theorem agrees_iff_unhookedByOwner {evs : List (HookEvent Engines)} {d : HookUtils × Engines}
    (h : HookSession Engines.Step (HookUtils.initial, Engines.none) evs d) :
    (∀ ev ∈ evs, Agrees ev.post.1 ev.post.2) ↔ ∀ ev ∈ evs, UnhookedByOwner ev := by
  refine Session.forall_post_iff (I := fun d => Linked d.1 d.2) (P := fun d => Agrees d.1 d.2)
    linked_initial ?_ ?_ ?_ h
  · intro d hl
    exact hl.agrees
  · intro ev hev hl hgood
    exact hgood.linked hev hl
  · intro ev hev hl ha
    exact unhookedByOwner_of_agrees hev hl ha

/-- A hook in each model, both taken back under their own. -/
def hookBoth : List HookOp :=
  [.hooker 0x1000 0x2000 0x3000, .setHookerModle .shadowhook, .hooker 0x1100 0x2000 0x3000,
    .unHook 0x11100, .setHookerModle .dobby, .unHook 0x1000]

theorem agrees_iff_unhookedByOwner_hookBoth :
    (Session.play HookOp.body Engines.oblige hookBoth (HookUtils.initial, Engines.none)).map
        (fun ev => ev.post.1.hookedList.length) = [1, 1, 2, 1, 1, 0] ∧
      ∀ ev ∈ Session.play HookOp.body Engines.oblige hookBoth (HookUtils.initial, Engines.none),
        Agrees ev.post.1 ev.post.2 := by
  obtain ⟨d, h⟩ := Session.play_session HookOp.body Engines.Step Engines.oblige_step hookBoth
    (HookUtils.initial, Engines.none)
  refine ⟨by decide, (agrees_iff_unhookedByOwner h).mpr ?_⟩
  decide

/-- An address hooked by Dobby, unhooked after a switch to ShadowHook and hooked again, is
patched by both engines. -/
def hookSwitched : List HookOp :=
  [.hooker 0x1000 0x2000 0x3000, .setHookerModle .shadowhook, .unHook 0x1000,
    .hooker 0x1000 0x2000 0x3000]

theorem agrees_fails_after_switch :
    ¬ ∀ evs d, HookSession Engines.Step (HookUtils.initial, Engines.none) evs d →
      ∀ ev ∈ evs, Agrees ev.post.1 ev.post.2 := by
  intro hall
  obtain ⟨d, h⟩ := Session.play_session HookOp.body Engines.Step Engines.oblige_step hookSwitched
    (HookUtils.initial, Engines.none)
  have ha := hall _ _ h _ (List.mem_of_getElem? (i := 3) rfl)
  exact ha.one 0x1000 (by decide)

end NativeLib.Hook
