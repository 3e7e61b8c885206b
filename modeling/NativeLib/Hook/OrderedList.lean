import NativeLib.Collections.Ledger
import NativeLib.Hook.Steps

/-! `hookedList` as an insertion-ordered map. Each operation is at most one ledger entry, an
addition for a hook that an engine carried out and a removal for a record that `unHook`
selected, and the list refines the ordered map that the ledger describes. -/

namespace NativeLib.Hook

open Interaction Collections

variable {ε : Type} {env : ε → EngineCall → Word → ε → Prop}

/-- The record that stands for a hook call an engine carried out. -/
def hookedBy : EngineCall × Word → Option HookAddrInfo
  | (.dobbyHook address _ _, ret) =>
      if ret = RT_SUCCESS then some ⟨address, nullptr, .dobby⟩ else none
  | (.shadowhookHookFuncAddr funcAddr _ _, sub) =>
      if sub ≠ nullptr then some ⟨funcAddr, sub, .shadowhook⟩ else none
  | _ => none

/-- The ledger entries of one operation. -/
def ledgerOf (ev : HookEvent ε) : List (Entry HookAddrInfo) :=
  (ev.trace.filterMap hookedBy).map .added ++ (removedBy ev.pre.1 ev.op).toList.map .removed

/-- The `Hooker` calls of a run that reached an engine and succeeded, and the records its
`unHook` calls selected, in order. -/
def ledger (evs : List (HookEvent ε)) : List (Entry HookAddrInfo) := evs.flatMap ledgerOf

theorem ledger_snoc (evs : List (HookEvent ε)) (ev : HookEvent ε) :
    ledger (evs ++ [ev]) = ledger evs ++ ledgerOf ev := by
  simp [ledger]

/-- The initialisation of an engine hooks nothing. -/
theorem HookUtils.InitStep.hookedBy_nil {s s' : HookUtils} {e e' : ε}
    {tr : Trace EngineCall Word} (h : s.InitStep env e tr s' e') :
    tr.filterMap hookedBy = [] := by
  cases h <;> rfl

/-- What an operation does to the list: nothing, one record more, or one less. -/
inductive ListStep (s s' : HookUtils) : List (Entry HookAddrInfo) → Prop
  | same (h : s'.hookedList = s.hookedList) : ListStep s s' []
  | pushed (info) (hnull : info.hookOrig ≠ nullptr)
      (hnew : info.hookOrig ∉ s.hookedList.map HookAddrInfo.hookOrig)
      (h : s'.hookedList = s.hookedList ++ [info]) : ListStep s s' [.added info]
  | erased (info) (hmem : info ∈ s.hookedList)
      (h : s'.hookedList = s.hookedList.filter (· ≠ info)) : ListStep s s' [.removed info]

theorem HookUtils.HookerStep.list {s s' : HookUtils} {dysym newrep org : Ptr} {e e' : ε}
    {tr : Trace EngineCall Word} {b : Bool}
    (h : s.HookerStep env dysym newrep org e tr b s' e') :
    ListStep s s' ((tr.filterMap hookedBy).map .added) ∧
      (b = false → s'.hookedList = s.hookedList) := by
  cases h with
  | null h => exact ⟨.same rfl, fun _ => rfl⟩
  | recorded h hi hr =>
    rw [hi.hookedBy_nil]
    exact ⟨.same hi.keeps.1, by simp⟩
  | @dobby tr s₀ e₀ ret _ h hi hr hm hc =>
    have hnew : dysym ∉ s.hookedList.map HookAddrInfo.hookOrig := by
      rw [← HookUtils.recorded_iff, hr]
      simp
    rw [List.filterMap_append, hi.hookedBy_nil]
    by_cases hok : ret = RT_SUCCESS
    · simp only [hok, hookedBy, List.filterMap_cons, List.filterMap_nil, if_true]
      exact ⟨.pushed _ h hnew (by simp [hi.keeps.1]), by simp⟩
    · simp only [hok, hookedBy, List.filterMap_cons, List.filterMap_nil, if_false]
      exact ⟨.same hi.keeps.1, fun _ => hi.keeps.1⟩
  | @shadowhook tr s₀ e₀ sub _ h hi hr hm hc =>
    have hnew : dysym ∉ s.hookedList.map HookAddrInfo.hookOrig := by
      rw [← HookUtils.recorded_iff, hr]
      simp
    rw [List.filterMap_append, hi.hookedBy_nil]
    by_cases hok : sub = nullptr
    · simp only [hok, hookedBy, List.filterMap_cons, List.filterMap_nil, ne_eq, not_true,
        if_false]
      exact ⟨.same hi.keeps.1, fun _ => hi.keeps.1⟩
    · simp only [hok, hookedBy, List.filterMap_cons, List.filterMap_nil, ne_eq, not_false_eq_true,
        if_true]
      exact ⟨.pushed _ h hnew (by simp [hi.keeps.1]), by simp⟩

theorem HookUtils.unhookCall_hookedBy (s : HookUtils) (info : HookAddrInfo) (code : Word) :
    hookedBy (s.unhookCall info, code) = none := by
  unfold HookUtils.unhookCall
  cases s.hookutilsModel <;> rfl

theorem HookStep.list {s s' : HookUtils} {e e' : ε} {op : HookOp}
    {tr : Trace EngineCall Word} {b : Option Bool} (h : HookStep env s e op tr b s' e') :
    ListStep s s'
      ((tr.filterMap hookedBy).map .added ++ (removedBy s op).toList.map .removed) := by
  cases h with
  | setHookerModle modle => exact .same rfl
  | hooker h => simpa [removedBy] using h.list.1
  | unHook h =>
    cases h with
    | absent hsel =>
      rw [removedBy, hsel]
      exact .same rfl
    | @found info code _ hsel hc =>
      rw [removedBy, hsel, List.filterMap_cons_none (HookUtils.unhookCall_hookedBy s info code)]
      exact .erased info (HookUtils.selected_mem hsel).1 rfl

theorem ledgerOf_step (ev : HookEvent ε) (h : ev.Fires HookOp.body env) :
    ListStep ev.pre.1 ev.post.1 (ledgerOf ev) := (HookOp.body_step h).list

/-- The list refines the ordered map of its run. -/
theorem hookedList_refines {s : HookUtils} {e e₀ : ε} {evs : List (HookEvent ε)}
    (h : HookSession env (HookUtils.initial, e₀) evs (s, e)) :
    ∃ m : OrderedMap HookAddrInfo.hookOrig,
      OrderedMap.Replays (ledger evs) m ∧ m.entries = s.hookedList := by
  refine Session.inv_history (I := fun evs d => ∃ m : OrderedMap HookAddrInfo.hookOrig,
    OrderedMap.Replays (ledger evs) m ∧ m.entries = d.1.hookedList) ⟨.empty, .nil, rfl⟩ ?_ h
  rintro evs ev - hev ⟨m, hm, hl⟩
  rw [ledger_snoc]
  generalize hled : ledgerOf ev = l
  have hstep := ledgerOf_step ev hev
  rw [hled] at hstep
  cases hstep with
  | same h => exact ⟨m, by rwa [List.append_nil], hl.trans h.symm⟩
  | pushed info _ hnew h =>
    rw [← hl] at hnew h
    exact ⟨_, .snoc hm (.added info hnew), h.symm⟩
  | erased info hmem h =>
    rw [← hl] at hmem h
    exact ⟨_, .snoc hm (.removed info hmem), h.symm⟩

/-- In every state a run reaches the records have distinct addresses. -/
theorem hookedList_nodup {s : HookUtils} {e e₀ : ε} {evs : List (HookEvent ε)}
    (h : HookSession env (HookUtils.initial, e₀) evs (s, e)) :
    (s.hookedList.map HookAddrInfo.hookOrig).Nodup := by
  obtain ⟨m, -, hl⟩ := hookedList_refines h
  exact hl ▸ m.nodup

/-- No record is for the null address. -/
theorem hookedList_ne_nullptr {s : HookUtils} {e e₀ : ε} {evs : List (HookEvent ε)}
    (h : HookSession env (HookUtils.initial, e₀) evs (s, e)) :
    ∀ info ∈ s.hookedList, info.hookOrig ≠ nullptr := by
  refine Session.inv (I := fun d => ∀ info ∈ d.1.hookedList, info.hookOrig ≠ nullptr)
    (by simp [HookUtils.initial]) ?_ h
  intro ev hev ih
  have hstep := ledgerOf_step ev hev
  generalize ledgerOf ev = l at hstep
  cases hstep with
  | same h => rwa [h]
  | pushed info hnull _ h =>
    rw [h, List.forall_mem_append]
    exact ⟨ih, by simpa using hnull⟩
  | erased info _ h =>
    rw [h]
    exact fun i hi => ih i (List.mem_of_mem_filter hi)

/-- The cell in which a call asks its engine to store the original function. -/
def EngineCall.orgCell : EngineCall → Option Ptr
  | .dobbyHook _ _ originCall => some originCall
  | .shadowhookHookFuncAddr _ _ origAddr => some origAddr
  | _ => none

/-- Engines that answer anything, over the memory cells of the process: a call writes at most
the cell that it is given. -/
def anyEngine (cells : Ptr → Word) (c : EngineCall) (_ : Word) (cells' : Ptr → Word) : Prop :=
  ∀ p, c.orgCell ≠ some p → cells' p = cells p

/-- What each call promises about the list, the engines and the memory. -/
structure CallLaws (ev : HookEvent (Ptr → Word)) : Prop where
  /-- `Hooker` on an address with a record: at most an initialisation is made up for. -/
  recorded : ∀ dysym newrep org, ev.op = .hooker dysym newrep org →
    ev.pre.1.recorded dysym = true →
      ev.result = some true ∧ ev.post.1.hookedList = ev.pre.1.hookedList ∧
      ev.post.2 = ev.pre.2 ∧
      (ev.trace = [] ∨ ev.pre.1.isInted = false ∧ ev.pre.1.hookutilsModel = .shadowhook ∧
        ∃ ret, ev.trace = [(.shadowhookInit SHADOWHOOK_MODE_UNIQUE false, ret)])
  /-- A `Hooker` call that fails. -/
  failed : ∀ dysym newrep org, ev.op = .hooker dysym newrep org → ev.result = some false →
    ev.post.1.hookedList = ev.pre.1.hookedList
  /-- `unHook` without a matching record. -/
  absent : ∀ sym, ev.op = .unHook sym →
    (∀ info ∈ ev.pre.1.hookedList, HookUtils.keyedBy sym info = false) →
      ev.result = some false ∧ ev.trace = [] ∧ ev.post.1.hookedList = ev.pre.1.hookedList

theorem HookUtils.InitStep.cells {s s' : HookUtils} {e e' : Ptr → Word}
    {tr : Trace EngineCall Word} (h : s.InitStep anyEngine e tr s' e') :
    e' = e ∧ (tr = [] ∨ s.isInted = false ∧ s.hookutilsModel = .shadowhook ∧
      ∃ ret, tr = [(.shadowhookInit SHADOWHOOK_MODE_UNIQUE false, ret)]) := by
  cases h with
  | done h => exact ⟨rfl, .inl rfl⟩
  | dobby h hm => exact ⟨rfl, .inl rfl⟩
  | shadowhook h hm hr =>
    exact ⟨funext fun p => hr p (by simp [EngineCall.orgCell]), .inr ⟨h, hm, _, rfl⟩⟩

theorem callLaws (ev : HookEvent (Ptr → Word)) (hev : ev.Fires HookOp.body anyEngine)
    (hnull : ∀ info ∈ ev.pre.1.hookedList, info.hookOrig ≠ nullptr) : CallLaws ev := by
  obtain ⟨op, ⟨s, e⟩, tr, b, ⟨s', e'⟩⟩ := ev
  have hs : HookStep anyEngine s e op tr b s' e' := HookOp.body_step hev
  refine ⟨?_, ?_, ?_⟩
  · rintro dysym newrep org rfl hr
    cases hs with
    | hooker h =>
      have hn : dysym ≠ nullptr := by
        obtain ⟨info, hmem, rfl⟩ := List.mem_map.mp (HookUtils.recorded_iff.mp hr)
        exact hnull info hmem
      cases h with
      | null h => exact absurd h hn
      | recorded _ hi _ => exact ⟨rfl, hi.keeps.1, hi.cells⟩
      | dobby _ _ hr' => simp_all
      | shadowhook _ _ hr' => simp_all
  · rintro dysym newrep org rfl hb
    cases hs with
    | hooker h => exact h.list.2 (Option.some.inj hb)
  · rintro sym rfl hno
    cases hs with
    | unHook h =>
      cases h with
      | absent h => exact ⟨rfl, rfl, rfl⟩
      | found hsel hc =>
        obtain ⟨hmem, hkey⟩ := HookUtils.selected_mem hsel
        exact absurd hkey (by simp [hno _ hmem])

/-- Along every run the list is the insertion-ordered map of the hooks that were carried out
and not undone, and every call keeps its laws. -/
theorem hookedList_ordered_map {s : HookUtils} {cells cells₀ : Ptr → Word}
    {evs : List (HookEvent (Ptr → Word))}
    (h : HookSession anyEngine (HookUtils.initial, cells₀) evs (s, cells)) :
    (s.hookedList.map HookAddrInfo.hookOrig).Nodup ∧
      s.hookedList = survivors (ledger evs) ∧ ∀ ev ∈ evs, CallLaws ev := by
  refine ⟨hookedList_nodup h, ?_, ?_⟩
  · obtain ⟨m, hm, hl⟩ := hookedList_refines h
    rw [← hl, hm.entries]
  · intro ev hmem
    obtain ⟨pre, post, rfl⟩ := List.append_of_mem hmem
    obtain ⟨hpre, hev⟩ := Session.at_event h
    exact callLaws ev hev (hookedList_ne_nullptr hpre)

/-- Engines that refuse the initialisation and hook all the same. -/
def initRefused (cells : Ptr → Word) : EngineCall → Word × (Ptr → Word)
  | .shadowhookInit _ _ => (12, cells)
  | .shadowhookHookFuncAddr _ _ _ => (0x5000, cells)
  | _ => (0, cells)

theorem initRefused_any (cells : Ptr → Word) (c : EngineCall) :
    anyEngine cells c (initRefused cells c).1 (initRefused cells c).2 := by
  intro p _
  cases c <;> rfl

/-- A ShadowHook hook after a refused initialisation, and the same hook again. -/
def hookTwice : List (HookEvent (Ptr → Word)) :=
  Session.play HookOp.body initRefused
    [.setHookerModle .shadowhook, .hooker 0x1000 0x2000 0x3000, .hooker 0x1000 0x2000 0x3000]
    (HookUtils.initial, fun _ => 0)

theorem hookedList_ordered_map_hookTwice :
    survivors (ledger hookTwice) = [⟨0x1000, 0x5000, .shadowhook⟩] ∧
      ∀ ev ∈ hookTwice, CallLaws ev := by
  obtain ⟨⟨s, cells⟩, h⟩ := Session.play_session HookOp.body anyEngine initRefused_any
    [.setHookerModle .shadowhook, .hooker 0x1000 0x2000 0x3000, .hooker 0x1000 0x2000 0x3000]
    (HookUtils.initial, fun _ => 0)
  exact ⟨by rfl, (hookedList_ordered_map h).2.2⟩

/-- `Hooker` on an address that has a record does call an engine: it asks once more for the
initialisation that was refused before. -/
theorem recorded_hooker_calls_engine :
    ¬ ∀ (cells₀ : Ptr → Word) (evs : List (HookEvent (Ptr → Word))) (d : HookUtils × (Ptr → Word)),
      HookSession anyEngine (HookUtils.initial, cells₀) evs d →
      ∀ ev ∈ evs, ∀ dysym newrep org, ev.op = .hooker dysym newrep org →
        ev.pre.1.recorded dysym = true → ev.trace = [] := by
  intro hall
  obtain ⟨d, h⟩ := Session.play_session HookOp.body anyEngine initRefused_any
    [.setHookerModle .shadowhook, .hooker 0x1000 0x2000 0x3000, .hooker 0x1000 0x2000 0x3000]
    (HookUtils.initial, fun _ => 0)
  have := hall _ _ d h _ (List.mem_of_getElem? (i := 2) rfl) 0x1000 0x2000 0x3000 rfl rfl
  exact absurd this (by decide)

end NativeLib.Hook
