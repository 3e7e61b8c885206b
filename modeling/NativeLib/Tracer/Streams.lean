import Mathlib.Data.List.DropRight
import Mathlib.Data.List.Nodup
import NativeLib.Collections.Positions
import NativeLib.Tracer.Stopping

/-! Who owns the trace stream. `stop` deletes the stream and leaves `traceOs` as it is, so
that the next `stop`, of whatever tracer, deletes it again unless an `init` brought another
stream in between. -/

namespace NativeLib.Tracer

open Interaction Collections

variable {ε : Type} {env : ε → TracerCall → Bool → ε → Prop} {t t' t'' : Tracers} {e e' : ε}
  {tr tr' : Trace TracerCall Bool}

/-- The stream that is passed to an `init`. -/
def passed : TracerOp → Option Ptr
  | .init _ _ _ _ os => if os = nullptr then none else some os
  | _ => none

/-- Whether the operation is a `stop`. -/
def isStop : TracerOp → Bool
  | .stop _ => true
  | _ => false

/-- The stream that the tracers take over: that of an `init` they do not turn away. -/
def taken (op : TracerOp) (t : Tracers) : Option Ptr :=
  match op with
  | .init tracer _ _ _ _ => if t.isInited tracer then none else passed op
  | _ => none

def closedBy : TracerCall → Option Ptr
  | .close os => some os
  | _ => none

def deletedBy : TracerCall → Option Ptr
  | .delete os => some os
  | _ => none

/-- The streams that were closed. -/
def closed (tr : Trace TracerCall Bool) : List Ptr := tr.filterMap fun c => closedBy c.1

/-- The streams that were deleted. -/
def deleted (tr : Trace TracerCall Bool) : List Ptr := tr.filterMap fun c => deletedBy c.1

@[simp] theorem closed_append : closed (tr ++ tr') = closed tr ++ closed tr' :=
  List.filterMap_append

@[simp] theorem deleted_append : deleted (tr ++ tr') = deleted tr ++ deleted tr' :=
  List.filterMap_append

/-- Every stream is freshly allocated: none is passed twice. -/
def FreshStreams (evs : List (TracerEvent ε)) : Prop :=
  (evs.filterMap fun ev => passed ev.op).Nodup

instance (evs : List (TracerEvent ε)) : Decidable (FreshStreams evs) :=
  inferInstanceAs (Decidable (List.Nodup _))

/-- The streams taken over, in order. -/
def takenOver (evs : List (TracerEvent ε)) : List Ptr :=
  evs.filterMap fun ev => taken ev.op ev.pre.1

/-- No stream is closed or deleted twice, and what is written to is a stream that exists. -/
structure Owned (evs : List (TracerEvent ε)) : Prop where
  closed : (closed (calls evs)).Nodup
  deleted : (deleted (calls evs)).Nodup
  saved : AtEach (fun before ev => ev.post.1.isSave = true → ev.post.1.traceOs ≠ nullptr ∧
    ev.post.1.traceOs ∉ Tracer.deleted (calls (before ++ [ev]))) evs

/-- An `init` that brought a stream came after the last `stop`. -/
def Open (evs : List (TracerEvent ε)) : Prop :=
  ∃ ev ∈ evs.rtakeWhile fun ev => !isStop ev.op, (taken ev.op ev.pre.1).isSome = true

instance (evs : List (TracerEvent ε)) : Decidable (Open evs) :=
  inferInstanceAs (Decidable (∃ ev ∈ _, _))

/-- A `stop` comes after an `init` that brought a stream since the last `stop`, or before the
first stream. -/
def Restocked (before : List (TracerEvent ε)) (ev : TracerEvent ε) : Prop :=
  isStop ev.op = true → Open before ∨ takenOver before = []

instance (before : List (TracerEvent ε)) (ev : TracerEvent ε) :
    Decidable (Restocked before ev) := inferInstanceAs (Decidable (_ → _))

/-- What one operation does to the streams. -/
structure StreamStep (op : TracerOp) (t : Tracers) (tr : Trace TracerCall Bool) (t' : Tracers) :
    Prop where
  traceOs : t'.traceOs = (taken op t).getD t.traceOs
  isSave : t'.isSave = (!isStop op && ((taken op t).isSome || t.isSave))
  closed : (closed tr).Sublist (deleted tr)
  deleted : deleted tr = if isStop op = true ∧ t.traceOs ≠ nullptr then [t.traceOs] else []

/-- The command is not about a stream it closes or deletes. -/
def Quiet (c : TracerCall) : Prop := closedBy c = none ∧ deletedBy c = none

theorem quiet_trace (h : ∀ c ∈ tr, Quiet c.1) : closed tr = [] ∧ deleted tr = [] :=
  ⟨List.filterMap_eq_nil_iff.mpr fun c hc => (h c hc).1,
    List.filterMap_eq_nil_iff.mpr fun c hc => (h c hc).2⟩

theorem hookEach_quiet {ι : Type} {c : ι → TracerCall} {hook : ι → TraceHook}
    (hc : ∀ func, Quiet (c func)) (funcs : List ι) (t : Tracers) :
    (t.hookEach c hook funcs).Asks Quiet := by
  induction funcs generalizing t with
  | nil => trivial
  | cons func funcs ih => exact Prog.asks_call_bind.mpr ⟨hc func, fun success => ih _⟩

theorem initJnitracer_quiet (t : Tracers) : t.initJnitracer.Asks Quiet :=
  hookEach_quiet (fun _ => ⟨rfl, rfl⟩) _ t

theorem initStringHandler_quiet (t : Tracers) : t.initStringHandler.Asks Quiet := by
  refine Prog.asks_call_bind.mpr ⟨⟨rfl, rfl⟩, fun found => ?_⟩
  cases found with
  | false => trivial
  | true => exact hookEach_quiet (fun _ => ⟨rfl, rfl⟩) _ t

theorem hookString_quiet (path : List Char) (t : Tracers) : (t.hookString path).Asks Quiet :=
  hookEach_quiet (fun _ => ⟨rfl, rfl⟩) _ t

theorem loadAfter_quiet (path : List Char) (t : Tracers) : (t.loadAfter path).Asks Quiet := by
  unfold Tracers.loadAfter
  generalize t.filterSoList = items
  induction items generalizing t with
  | nil => trivial
  | cons item items ih =>
    rw [List.foldlM_cons]
    refine Prog.Asks.bind ?_ fun t' => ih t'
    split
    · exact hookString_quiet path t
    · trivial

theorem streamStep_quiet {op : TracerOp} (htr : ∀ c ∈ tr, Quiet c.1) (hop : isStop op = false)
    (hos : t'.traceOs = (taken op t).getD t.traceOs)
    (hsave : t'.isSave = ((taken op t).isSome || t.isSave)) : StreamStep op t tr t' := by
  obtain ⟨hc, hd⟩ := quiet_trace htr
  exact ⟨hos, by simp [hop, hsave], by rw [hc]; exact List.nil_sublist _, by simp [hd, hop]⟩

theorem init_streams {tracer : TracerKind} {install : Tracers → TracerProg Tracers}
    {hookAll : Bool} {forbidList filterList : List (List Char)} {os : Ptr}
    (hinstall : ∀ t e tr t' e', (install t).Exec env e tr t' e' → Installs t tr t')
    (hquiet : ∀ t, (install t).Asks Quiet)
    (he : (t.init tracer install hookAll forbidList filterList os).Exec env e tr t' e') :
    StreamStep (.init tracer hookAll forbidList filterList os) t tr t' := by
  unfold Tracers.init at he
  split at he
  · next hinited =>
    obtain ⟨rfl, rfl, -⟩ := he
    exact streamStep_quiet (by simp) rfl (by simp [taken, hinited]) (by simp [taken, hinited])
  · next hinited =>
    have hbase := (hinstall _ _ _ _ _ he).base
    refine streamStep_quiet (he.asks (hquiet _)) rfl ?_ ?_
    · rw [hbase]
      by_cases hos : os = nullptr
      · simp [taken, passed, hinited, hos]
      · simp [taken, passed, hinited, hos]
    · rw [hbase]
      by_cases hos : os = nullptr
      · simp [taken, passed, hinited, hos]
      · simp [taken, passed, hinited, hos]

theorem stop_streams {tracer : TracerKind} (he : t.stop.Exec env e tr t' e') :
    StreamStep (.stop tracer) t tr t' := by
  unfold Tracers.stop at he
  split at he
  · next hos =>
    obtain ⟨isOpen, u, tr', rfl, -, he⟩ := he
    cases isOpen with
    | false =>
      obtain ⟨_, v, tr'', rfl, -, rfl, rfl, -⟩ := he
      exact ⟨rfl, rfl, List.nil_sublist _, by rw [if_pos ⟨rfl, hos⟩]; rfl⟩
    | true =>
      obtain ⟨_, v, tr'', rfl, -, _, w, tr₃, rfl, -, rfl, rfl, -⟩ := he
      exact ⟨rfl, rfl, List.Sublist.refl _, by rw [if_pos ⟨rfl, hos⟩]; rfl⟩
  · next hos =>
    obtain ⟨rfl, rfl, -⟩ := he
    exact ⟨rfl, rfl, List.nil_sublist _, by rw [if_neg fun h => hos h.2]; rfl⟩

theorem streamStep {op : TracerOp} (he : (op.run t).Exec env e tr t' e') :
    StreamStep op t tr t' := by
  cases op with
  | init tracer hookAll forbidList filterList os =>
    cases tracer with
    | jnitrace =>
      exact init_streams (fun _ _ _ _ _ => initJnitracer_installs) initJnitracer_quiet he
    | stringHandler =>
      exact init_streams (fun _ _ _ _ _ => initStringHandler_installs) initStringHandler_quiet he
    | stringHooker =>
      refine init_streams (fun _ _ _ _ _ => stringHookerInit_installs) (fun t => ?_) he
      exact Prog.asks_call_bind.mpr ⟨⟨rfl, rfl⟩, fun _ => trivial⟩
  | stop tracer => exact stop_streams he
  | loadAfter path =>
    rw [TracerOp.run] at he
    split at he
    · have hbase := (loadAfter_installs he).base
      exact streamStep_quiet (he.asks (loadAfter_quiet path t)) rfl (by rw [hbase]; rfl)
        (by rw [hbase]; rfl)
    · obtain ⟨rfl, rfl, -⟩ := he
      exact streamStep_quiet (by simp) rfl rfl rfl

/-- The same of an event. -/
theorem event_streams {ev : TracerEvent ε} (hev : ev.Fires TracerOp.body env) :
    StreamStep ev.op ev.pre.1 ev.trace ev.post.1 := by
  obtain ⟨t₁, u, tr₁, tr₂, htr, he, rfl, hres, -⟩ := Prog.exec_bind.mp hev
  rw [htr, List.append_nil, (Prod.mk.inj hres).2]
  exact streamStep he

/-- A stream that is taken over was passed. -/
theorem passed_of_taken {op : TracerOp} {os : Ptr} (h : taken op t = some os) :
    passed op = some os ∧ os ≠ nullptr := by
  cases op with
  | init tracer hookAll forbidList filterList os' =>
    rw [taken] at h
    split at h
    · simp at h
    · refine ⟨h, ?_⟩
      rw [passed] at h
      split at h
      · simp at h
      · next hos => rwa [Option.some_inj.mp h] at hos
  | stop tracer => simp [taken] at h
  | loadAfter path => simp [taken] at h

theorem taken_stop {op : TracerOp} (h : isStop op = true) : taken op t = none := by
  cases op with
  | stop tracer => rfl
  | init tracer hookAll forbidList filterList os => simp [isStop] at h
  | loadAfter path => simp [isStop] at h

theorem open_snoc {evs : List (TracerEvent ε)} {ev : TracerEvent ε} :
    Open (evs ++ [ev]) ↔
      isStop ev.op = false ∧ (Open evs ∨ (taken ev.op ev.pre.1).isSome = true) := by
  rw [Open, List.rtakeWhile_concat]
  cases hstop : isStop ev.op with
  | true => simp
  | false => simp [Open, or_and_right, exists_or]

/-- What the members of the tracers say about the streams taken over. -/
structure Holding (evs : List (TracerEvent ε)) (t : Tracers) : Prop where
  none : takenOver evs = [] ↔ t.traceOs = nullptr
  current : t.traceOs ≠ nullptr → t.traceOs ∈ takenOver evs
  known : ∀ os ∈ deleted (calls evs), os ∈ takenOver evs
  gone : t.traceOs ≠ nullptr → (t.traceOs ∈ deleted (calls evs) ↔ ¬ Open evs)
  save : t.isSave = true → Open evs
  closed : (closed (calls evs)).Sublist (deleted (calls evs))

theorem takenOver_snoc {evs : List (TracerEvent ε)} {ev : TracerEvent ε} :
    takenOver (evs ++ [ev]) = takenOver evs ++ (taken ev.op ev.pre.1).toList := by
  rw [takenOver, List.filterMap_append]
  cases h : taken ev.op ev.pre.1 <;> simp [takenOver, h]

theorem FreshStreams.init {evs : List (TracerEvent ε)} {ev : TracerEvent ε}
    (h : FreshStreams (evs ++ [ev])) : FreshStreams evs := by
  rw [FreshStreams, List.filterMap_append, List.nodup_append] at h
  exact h.1

/-- A fresh stream is none of those taken over before. -/
theorem FreshStreams.notMem {evs : List (TracerEvent ε)} {ev : TracerEvent ε}
    (h : FreshStreams (evs ++ [ev])) {os : Ptr} (hos : taken ev.op ev.pre.1 = some os) :
    os ∉ takenOver evs := by
  intro hmem
  obtain ⟨ev', hev', htaken⟩ := List.mem_filterMap.mp hmem
  rw [FreshStreams, List.filterMap_append, List.nodup_append] at h
  refine h.2.2 os ?_ os ?_ rfl
  · exact List.mem_filterMap.mpr ⟨ev', hev', (passed_of_taken htaken).1⟩
  · exact List.mem_filterMap.mpr ⟨ev, List.mem_singleton_self _, (passed_of_taken hos).1⟩

theorem takenOver_ne_nil {evs : List (TracerEvent ε)} (h : Open evs) : takenOver evs ≠ [] := by
  obtain ⟨ev, hev, htaken⟩ := h
  obtain ⟨os, hos⟩ := Option.isSome_iff_exists.mp htaken
  have hmem := (List.rtakeWhile_suffix _ _).subset hev
  exact List.ne_nil_of_mem (List.mem_filterMap.mpr ⟨ev, hmem, hos⟩)

theorem deleted_snoc (evs : List (TracerEvent ε)) (ev : TracerEvent ε) :
    deleted (calls (evs ++ [ev])) = deleted (calls evs) ++ deleted ev.trace := by
  rw [calls_append, calls_singleton, deleted_append]

section

variable {evs : List (TracerEvent ε)} {ev : TracerEvent ε} (hev : ev.Fires TracerOp.body env)
  (h : Holding evs ev.pre.1)

include hev h

theorem Holding.closed_snoc :
    (Tracer.closed (calls (evs ++ [ev]))).Sublist (deleted (calls (evs ++ [ev]))) := by
  rw [deleted_snoc, calls_append, calls_singleton, closed_append]
  exact h.closed.append (event_streams hev).closed

/-- A new stream: nothing has happened to it yet. -/
theorem holding_taken {os : Ptr} (htaken : taken ev.op ev.pre.1 = some os)
    (hfresh : FreshStreams (evs ++ [ev])) : Holding (evs ++ [ev]) ev.post.1 := by
  have hstep := event_streams hev
  have hstop : isStop ev.op = false := by
    by_contra hstop
    rw [Bool.not_eq_false] at hstop
    simp [taken_stop hstop] at htaken
  have hos : ev.post.1.traceOs = os := by rw [hstep.traceOs, htaken, Option.getD_some]
  have hover : takenOver (evs ++ [ev]) = takenOver evs ++ [os] := by
    rw [takenOver_snoc, htaken, Option.toList_some]
  have hdel : deleted (calls (evs ++ [ev])) = deleted (calls evs) := by
    rw [deleted_snoc, hstep.deleted, if_neg (by simp [hstop]), List.append_nil]
  have hopen : Open (evs ++ [ev]) := open_snoc.mpr ⟨hstop, .inr (by rw [htaken]; rfl)⟩
  have hne := (passed_of_taken htaken).2
  have hnew : os ∉ deleted (calls evs) := fun hmem => hfresh.notMem htaken (h.known os hmem)
  refine ⟨?_, ?_, ?_, ?_, fun _ => hopen, h.closed_snoc hev⟩
  · rw [hover, hos]
    simp [hne]
  · rw [hover, hos]
    simp
  · rw [hdel, hover]
    exact fun os' hmem => List.mem_append_left _ (h.known os' hmem)
  · rw [hdel, hos]
    simp [hnew, hopen]

/-- After a `stop` the stream is gone, and stays the current one. -/
theorem holding_stopped (hstop : isStop ev.op = true) : Holding (evs ++ [ev]) ev.post.1 := by
  have hstep := event_streams hev
  have htaken := taken_stop (t := ev.pre.1) hstop
  have hos : ev.post.1.traceOs = ev.pre.1.traceOs := by
    rw [hstep.traceOs, htaken, Option.getD_none]
  have hover : takenOver (evs ++ [ev]) = takenOver evs := by
    rw [takenOver_snoc, htaken, Option.toList_none, List.append_nil]
  have hdel := deleted_snoc evs ev
  rw [hstep.deleted] at hdel
  refine ⟨by rw [hover, hos]; exact h.none, by rw [hover, hos]; exact h.current, ?_, ?_, ?_,
    h.closed_snoc hev⟩
  · rw [hdel, hover]
    intro os' hmem
    rcases List.mem_append.mp hmem with hmem | hmem
    · exact h.known os' hmem
    · split at hmem
      · next hne => exact List.mem_singleton.mp hmem ▸ h.current hne.2
      · simp at hmem
  · rw [hos]
    intro hne
    refine iff_of_true ?_ fun hopen => by simp [open_snoc, hstop] at hopen
    rw [hdel, if_pos ⟨hstop, hne⟩]
    exact List.mem_append_right _ (List.mem_singleton_self _)
  · rw [hstep.isSave, hstop]
    simp

/-- Any other operation leaves the stream as it is. -/
theorem holding_kept (htaken : taken ev.op ev.pre.1 = none) (hstop : isStop ev.op = false) :
    Holding (evs ++ [ev]) ev.post.1 := by
  have hstep := event_streams hev
  have hos : ev.post.1.traceOs = ev.pre.1.traceOs := by
    rw [hstep.traceOs, htaken, Option.getD_none]
  have hsave : ev.post.1.isSave = ev.pre.1.isSave := by
    rw [hstep.isSave, hstop, htaken, Option.isSome_none, Bool.false_or, Bool.not_false,
      Bool.true_and]
  have hover : takenOver (evs ++ [ev]) = takenOver evs := by
    rw [takenOver_snoc, htaken, Option.toList_none, List.append_nil]
  have hdel : deleted (calls (evs ++ [ev])) = deleted (calls evs) := by
    rw [deleted_snoc, hstep.deleted, if_neg (by simp [hstop]), List.append_nil]
  have hopen : Open (evs ++ [ev]) ↔ Open evs := by simp [open_snoc, hstop, htaken]
  refine ⟨by rw [hover, hos]; exact h.none, by rw [hover, hos]; exact h.current,
    by rw [hdel, hover]; exact h.known, by rw [hdel, hos, hopen]; exact h.gone,
    by rw [hsave, hopen]; exact h.save, h.closed_snoc hev⟩

theorem holding_step (hfresh : FreshStreams (evs ++ [ev])) : Holding (evs ++ [ev]) ev.post.1 := by
  cases htaken : taken ev.op ev.pre.1 with
  | some os => exact holding_taken hev h htaken hfresh
  | none =>
    cases hstop : isStop ev.op with
    | true => exact holding_stopped hev h hstop
    | false => exact holding_kept hev h htaken hstop

end

theorem holding {isInited : TracerKind → Bool} {evs : List (TracerEvent ε)} {d : Tracers × ε}
    (h : TracerSession env (Tracers.initial isInited, e) evs d) (hfresh : FreshStreams evs) :
    Holding evs d.1 := by
  refine Session.inv_history (I := fun evs d => FreshStreams evs → Holding evs d.1)
    ?_ ?_ h hfresh
  · intro _
    refine ⟨by simp [takenOver, Tracers.initial, TracerBase.initial], ?_, by simp [deleted], ?_,
      ?_, List.Sublist.refl _⟩
    · simp [Tracers.initial, TracerBase.initial]
    · simp [Tracers.initial, TracerBase.initial]
    · simp [Tracers.initial, TracerBase.initial]
  · intro evs ev _ hev ih hfresh
    exact holding_step hev (ih hfresh.init) hfresh

/-- What is written to is a stream that exists, in every run. -/
theorem Holding.saved {evs : List (TracerEvent ε)} (h : Holding evs t) (hsave : t.isSave = true) :
    t.traceOs ≠ nullptr ∧ t.traceOs ∉ deleted (calls evs) := by
  have hopen := h.save hsave
  have hne : t.traceOs ≠ nullptr := fun hnull => takenOver_ne_nil hopen (h.none.mpr hnull)
  exact ⟨hne, fun hgone => (h.gone hne).mp hgone hopen⟩

/-- One more operation deletes nothing a second time exactly when it is restocked. -/
theorem deleted_snoc_nodup {evs : List (TracerEvent ε)} {ev : TracerEvent ε}
    (hev : ev.Fires TracerOp.body env) (h : Holding evs ev.pre.1) :
    (deleted (calls (evs ++ [ev]))).Nodup ↔
      (deleted (calls evs)).Nodup ∧ Restocked evs ev := by
  have hrestocked : Restocked evs ev ↔
      ¬ (isStop ev.op = true ∧ ev.pre.1.traceOs ≠ nullptr ∧
        ev.pre.1.traceOs ∈ deleted (calls evs)) := by
    rw [Restocked, h.none]
    have hgone := h.gone
    tauto
  rw [deleted_snoc, (event_streams hev).deleted, hrestocked]
  split
  · next hstop =>
    rw [List.nodup_append]
    refine and_congr_right fun _ => ⟨?_, ?_⟩
    · intro hnew hall
      exact hnew.2 _ hall.2.2 _ (List.mem_singleton_self _) rfl
    · intro hnew
      refine ⟨List.nodup_singleton _, ?_⟩
      rintro os hmem _ hos rfl
      exact hnew ⟨hstop.1, hstop.2, List.mem_singleton.mp hos ▸ hmem⟩
  · next hstop =>
    rw [List.append_nil]
    exact (and_iff_left fun hall => hstop ⟨hall.1, hall.2.1⟩).symm

/-- In any run of the tracers, each stream passed to them being a fresh one: no stream is
closed or deleted twice, and the stream written to exists, exactly when no `stop` follows
another one without an `init` in between that brought a stream. -/
theorem owned_iff_restocked {isInited : TracerKind → Bool} {evs : List (TracerEvent ε)}
    {d : Tracers × ε} (h : TracerSession env (Tracers.initial isInited, e) evs d)
    (hfresh : FreshStreams evs) : Owned evs ↔ AtEach Restocked evs := by
  have hdeleted : (deleted (calls evs)).Nodup ↔ AtEach Restocked evs := by
    refine Session.inv_history (I := fun evs _ => FreshStreams evs →
      ((deleted (calls evs)).Nodup ↔ AtEach Restocked evs)) ?_ ?_ h hfresh
    · intro _
      simp [deleted]
    · intro evs ev hs hev ih hfresh
      rw [deleted_snoc_nodup hev (holding hs hfresh.init), atEach_snoc, ih hfresh.init]
  refine ⟨fun howned => hdeleted.mp howned.deleted, fun hrest => ?_⟩
  have honce := hdeleted.mpr hrest
  refine ⟨honce.sublist (holding h hfresh).closed, honce, ?_⟩
  rintro pre ev post rfl hsave
  obtain ⟨hs, hev⟩ := Session.at_event h
  have hfresh' : FreshStreams (pre ++ [ev]) := by
    rw [List.append_cons, FreshStreams, List.filterMap_append, List.nodup_append] at hfresh
    exact hfresh.1
  exact (holding (.snoc hs hev) hfresh').saved hsave

/-- Two tracers, each with a stream of its own, one after the other. -/
def traceTwice : List TracerOp :=
  [.init .stringHooker false [] ["libapp.so".toList] 0x5000, .stop .stringHooker,
    .init .jnitrace false [] ["libapp.so".toList] 0x5100, .stop .jnitrace]

theorem owned_iff_restocked_traceTwice :
    closed (calls (allowed traceTwice)) = [0x5000, 0x5100] ∧ Owned (allowed traceTwice) := by
  obtain ⟨d, h⟩ := allowed_session traceTwice
  exact ⟨by decide, (owned_iff_restocked h (by decide)).mpr (by decide)⟩

/-- Two tracers with one stream, both stopped. -/
def stopBoth : List TracerOp :=
  [.init .stringHooker false [] [] 0x5000, .init .stringHandler false [] [] nullptr,
    .stop .stringHooker, .stop .stringHandler]

/-- The second `stop` deletes the stream again. -/
theorem stop_deletes_again :
    ¬ ∀ (env : Unit → TracerCall → Bool → Unit → Prop) (evs : List (TracerEvent Unit))
      (d : Tracers × Unit), TracerSession env (Tracers.initial fun _ => false, ()) evs d →
      FreshStreams evs → Owned evs := by
  intro hall
  obtain ⟨d, h⟩ := allowed_session stopBoth
  have howned := hall _ _ d h (by decide)
  exact absurd howned.deleted (by decide)

end NativeLib.Tracer
