import NativeLib.Tracer.Tracers

/-! What `stop` leaves behind. It clears both lists but not `isHookAll`, so that every
library of an application is still listened to if the last `init` asked for all; and one hook
of `hook_string` writes whether it is listened to or not. -/

namespace NativeLib.Tracer

open Interaction

variable {ε : Type} {env : ε → TracerCall → Bool → ε → Prop} {t t' t'' : Tracers} {e e' : ε}
  {tr tr' : Trace TracerCall Bool}

/-- Whether the operation is an `init`. -/
def isInit : TracerOp → Bool
  | .init _ _ _ _ _ => true
  | _ => false

/-- The `hookAll` of an `init` that `isInited` does not turn away. -/
def accepted (op : TracerOp) (t : Tracers) : Option Bool :=
  match op with
  | .init tracer hookAll _ _ _ => if t.isInited tracer then none else some hookAll
  | _ => none

/-- The `hookAll` of the last `init` that was accepted. -/
def lastHookAll (evs : List (TracerEvent ε)) : Bool :=
  (evs.filterMap fun ev => accepted ev.op ev.pre.1).getLast?.getD false

/-- The hook that does not ask `IS_MATCH` was installed. -/
def installsUnmatched (c : TracerCall × Bool) : Bool :=
  match c with
  | (.stringHookerSym _ .construction_1, ok) => ok
  | _ => false

/-- No library is listened to, and no hook that is installed writes a record. -/
structure Ended (t : Tracers) : Prop where
  verdict : ∀ info, t.isLister info = some false
  silent : ∀ hook ∈ t.hooks, ∀ fastInfo msgs, hook.records t.toTracerBase fastInfo msgs = some []

/-- What installing hooks does. -/
structure Installs (t : Tracers) (tr : Trace TracerCall Bool) (t' : Tracers) : Prop where
  base : t'.toTracerBase = t.toTracerBase
  hooks : .stringHooker .construction_1 ∈ t'.hooks ↔
    .stringHooker .construction_1 ∈ t.hooks ∨ ∃ c ∈ tr, installsUnmatched c = true

theorem Installs.refl (t : Tracers) : Installs t [] t := ⟨rfl, by simp⟩

theorem Installs.trans (h : Installs t tr t') (h' : Installs t' tr' t'') :
    Installs t (tr ++ tr') t'' := by
  refine ⟨h'.base.trans h.base, ?_⟩
  rw [h'.hooks, h.hooks, or_assoc]
  simp only [List.mem_append, or_and_right, exists_or]

theorem hookEach_installs {ι : Type} {c : ι → TracerCall} {hook : ι → TraceHook}
    (hc : ∀ func, installsUnmatched (c func, true) = true ↔
      hook func = .stringHooker .construction_1)
    (hno : ∀ func, installsUnmatched (c func, false) = false) {funcs : List ι}
    (he : (t.hookEach c hook funcs).Exec env e tr t' e') : Installs t tr t' := by
  induction funcs generalizing t e tr with
  | nil =>
    obtain ⟨rfl, rfl, rfl⟩ := he
    exact Installs.refl t'
  | cons func funcs ih =>
    obtain ⟨success, u, tr', rfl, -, he⟩ := Prog.exec_call_bind.mp he
    have hrest := ih he
    rw [← List.singleton_append]
    refine Installs.trans ?_ hrest
    cases success with
    | false => exact ⟨rfl, by simp [hno]⟩
    | true =>
      refine ⟨rfl, ?_⟩
      have hnew : .stringHooker .construction_1 ∈ [hook func] ↔
          installsUnmatched (c func, true) = true := by rw [hc, List.mem_singleton, eq_comm]
      rw [if_pos rfl, List.mem_append, hnew]
      simp

theorem initJnitracer_installs (he : t.initJnitracer.Exec env e tr t' e') : Installs t tr t' :=
  hookEach_installs (by simp [installsUnmatched]) (by simp [installsUnmatched]) he

theorem initStringHandler_installs (he : t.initStringHandler.Exec env e tr t' e') :
    Installs t tr t' := by
  obtain ⟨found, u, tr', rfl, -, he⟩ := Prog.exec_call_bind.mp he
  have hdlopen : Installs t [(.dlopenLibc, found)] t := ⟨rfl, by simp [installsUnmatched]⟩
  rw [← List.singleton_append]
  refine hdlopen.trans ?_
  cases found with
  | false =>
    obtain ⟨rfl, rfl, -⟩ := he
    exact Installs.refl t'
  | true => exact hookEach_installs (by simp [installsUnmatched]) (by simp [installsUnmatched]) he

theorem hookString_installs {path : List Char} (he : (t.hookString path).Exec env e tr t' e') :
    Installs t tr t' := by
  refine hookEach_installs ?_ ?_ he
  · intro func
    cases func <;> simp [installsUnmatched]
  · intro func
    cases func <;> rfl

theorem loadAfter_installs {path : List Char} (he : (t.loadAfter path).Exec env e tr t' e') :
    Installs t tr t' := by
  unfold Tracers.loadAfter at he
  generalize t.filterSoList = items at he
  induction items generalizing t e tr with
  | nil =>
    obtain ⟨rfl, rfl, -⟩ := he
    exact Installs.refl t'
  | cons item items ih =>
    rw [List.foldlM_cons] at he
    obtain ⟨t₁, u, tr₁, tr₂, rfl, hitem, he⟩ := Prog.exec_bind.mp he
    refine Installs.trans ?_ (ih he)
    split at hitem
    · exact hookString_installs hitem
    · obtain ⟨rfl, rfl, -⟩ := hitem
      exact Installs.refl t₁

/-- Nothing is asked for by name. -/
def Cleared (t : Tracers) : Prop := t.filterSoList = [] ∧ t.forbidSoList = []

/-- What one operation does to the verdicts, and to the hook that writes without asking. -/
structure OpStep (op : TracerOp) (t : Tracers) (tr : Trace TracerCall Bool) (t' : Tracers) :
    Prop where
  hookAll : t'.isHookAll = (accepted op t).getD t.isHookAll
  hooks : .stringHooker .construction_1 ∈ t'.hooks ↔
    .stringHooker .construction_1 ∈ t.hooks ∨ ∃ c ∈ tr, installsUnmatched c = true
  cleared : isInit op = false → Cleared t → Cleared t'
  stopped : ∀ tracer, op = .stop tracer → Cleared t'

/-- An `init`: it is turned away, or it sets the members and installs hooks. -/
theorem init_step {tracer : TracerKind} {install : Tracers → TracerProg Tracers} {hookAll : Bool}
    {forbidList filterList : List (List Char)} {os : Ptr}
    (hinstall : ∀ t e tr t' e', (install t).Exec env e tr t' e' → Installs t tr t')
    (he : (t.init tracer install hookAll forbidList filterList os).Exec env e tr t' e') :
    OpStep (.init tracer hookAll forbidList filterList os) t tr t' := by
  unfold Tracers.init at he
  split at he
  · next hinited =>
    obtain ⟨rfl, rfl, -⟩ := he
    exact ⟨by simp [accepted, hinited], by simp, by simp [isInit], by simp⟩
  · next hinited =>
    have h := hinstall _ _ _ _ _ he
    exact ⟨by simp [accepted, hinited, h.base], h.hooks, by simp [isInit], by simp⟩

theorem stringHookerInit_installs {t' : Tracers} {e' : ε}
    (he : (Prog.call TracerCall.linkerHandlerInit >>= fun _ =>
      pure { t with listening := true }).Exec env e tr t' e') : Installs t tr t' := by
  obtain ⟨_, u, tr', rfl, -, rfl, rfl, -⟩ := Prog.exec_call_bind.mp he
  exact ⟨rfl, by simp [installsUnmatched]⟩

/-- A `stop` clears the lists, and that is all it does to the verdicts. -/
theorem stop_step {tracer : TracerKind} (he : t.stop.Exec env e tr t' e') :
    OpStep (.stop tracer) t tr t' := by
  have hstop : t' = { t with filterSoList := [], forbidSoList := [], isSave := false } ∧
      ∀ c ∈ tr, installsUnmatched c = false := by
    unfold Tracers.stop at he
    split at he
    · obtain ⟨isOpen, u, tr', rfl, -, he⟩ := he
      cases isOpen with
      | false =>
        obtain ⟨_, v, tr'', rfl, -, rfl, rfl, -⟩ := he
        exact ⟨rfl, by simp [installsUnmatched]⟩
      | true =>
        obtain ⟨_, v, tr'', rfl, -, _, w, tr₃, rfl, -, rfl, rfl, -⟩ := he
        exact ⟨rfl, by simp [installsUnmatched]⟩
    · obtain ⟨rfl, rfl, -⟩ := he
      exact ⟨rfl, by simp⟩
  obtain ⟨rfl, hno⟩ := hstop
  have hnone : ¬ ∃ c ∈ tr, installsUnmatched c = true := by
    rintro ⟨c, hc, hins⟩
    simp [hno c hc] at hins
  refine ⟨rfl, ?_, fun _ _ => ⟨rfl, rfl⟩, fun _ _ => ⟨rfl, rfl⟩⟩
  rw [or_iff_left hnone]

theorem opStep {op : TracerOp} (he : (op.run t).Exec env e tr t' e') : OpStep op t tr t' := by
  cases op with
  | init tracer hookAll forbidList filterList os =>
    cases tracer with
    | jnitrace => exact init_step (fun _ _ _ _ _ => initJnitracer_installs) he
    | stringHandler => exact init_step (fun _ _ _ _ _ => initStringHandler_installs) he
    | stringHooker => exact init_step (fun _ _ _ _ _ => stringHookerInit_installs) he
  | stop tracer => exact stop_step he
  | loadAfter path =>
    have h : Installs t tr t' := by
      rw [TracerOp.run] at he
      split at he
      · exact loadAfter_installs he
      · obtain ⟨rfl, rfl, -⟩ := he
        exact Installs.refl t'
    refine ⟨by rw [h.base]; rfl, h.hooks, ?_, by simp⟩
    rintro - hcleared
    rwa [Cleared, h.base]

/-- The same of an event. -/
theorem event_step {ev : TracerEvent ε} (hev : ev.Fires TracerOp.body env) :
    OpStep ev.op ev.pre.1 ev.trace ev.post.1 := by
  obtain ⟨t₁, u, tr₁, tr₂, htr, he, rfl, hres, -⟩ := Prog.exec_bind.mp hev
  rw [htr, List.append_nil, (Prod.mk.inj hres).2]
  exact opStep he

/-- The flag is that of the last accepted `init`, and the hook is there once it was
installed. -/
theorem run_flags {isInited : TracerKind → Bool} {evs : List (TracerEvent ε)} {d : Tracers × ε}
    (h : TracerSession env (Tracers.initial isInited, e) evs d) :
    d.1.isHookAll = lastHookAll evs ∧
      (.stringHooker .construction_1 ∈ d.1.hooks ↔
        ∃ c ∈ calls evs, installsUnmatched c = true) := by
  refine Session.inv_history (I := fun evs d => d.1.isHookAll = lastHookAll evs ∧
    (.stringHooker .construction_1 ∈ d.1.hooks ↔
      ∃ c ∈ calls evs, installsUnmatched c = true)) ?_ ?_ h
  · exact ⟨rfl, by simp [Tracers.initial]⟩
  · rintro evs ev - hev ⟨hflag, hhooks⟩
    have hstep := event_step hev
    refine ⟨?_, ?_⟩
    · rw [hstep.hookAll, hflag, lastHookAll, lastHookAll, List.filterMap_append]
      cases hacc : accepted ev.op ev.pre.1 with
      | none => simp [hacc]
      | some hookAll => simp [hacc]
    · rw [hstep.hooks, hhooks, calls_append, calls_singleton]
      simp only [List.mem_append, or_and_right, exists_or]

/-- After a `stop` the lists stay empty until the next `init`. -/
theorem cleared_after_stop {c d : Tracers × ε} {pre post : List (TracerEvent ε)}
    {ev : TracerEvent ε} {tracer : TracerKind} (h : TracerSession env c (pre ++ ev :: post) d)
    (hstop : ev.op = .stop tracer) (hpost : ∀ ev' ∈ post, isInit ev'.op = false) :
    Cleared d.1 := by
  rw [List.append_cons] at h
  obtain ⟨m, hpre, hrest⟩ := Session.split _ _ h
  obtain ⟨-, hev, rfl⟩ := Session.snoc_inv hpre
  have key : (∀ ev' ∈ post, isInit ev'.op = false) → Cleared d.1 := by
    refine Session.inv_history (I := fun post d =>
      (∀ ev' ∈ post, isInit ev'.op = false) → Cleared d.1) ?_ ?_ hrest
    · exact fun _ => (event_step hev).stopped tracer hstop
    · intro evs ev' _ hev' ih hno
      rw [List.forall_mem_append, List.forall_mem_singleton] at hno
      exact (event_step hev').cleared hno.2 (ih hno.1)
  exact key hpost

/-- A library of an application. -/
def appInfo : DlInfo := ⟨some (cStr "/data/app/libapp.so".toList), by simp [nul_mem_cStr]⟩

/-- With empty lists, `isHookAll` is the verdict on every library of an application. -/
theorem isLister_cleared (hc : Cleared t) (info : DlInfo) :
    t.isLister (some info) = some (t.isHookAll && match info.dliFname with
      | none => false
      | some name => decide ("/data/".toList <:+: text name)) := by
  rw [isLister_eq, hc.1, hc.2]
  cases info.dliFname with
  | none => simp
  | some name =>
    simp only [List.any_nil, Bool.not_false, Bool.and_true, Bool.or_false]
    rw [Bool.and_comm]

/-- Where the lists are empty, only the flag and the one hook stand in the way. -/
theorem ended_iff (hc : Cleared t) :
    Ended t ↔ t.isHookAll = false ∧ .stringHooker .construction_1 ∉ t.hooks := by
  refine ⟨?_, ?_⟩
  · rintro ⟨hverdict, hsilent⟩
    refine ⟨?_, ?_⟩
    · have happ := hverdict (some appInfo)
      have hdata : decide ("/data/".toList <:+: text (cStr "/data/app/libapp.so".toList)) =
          true := by decide
      rw [isLister_cleared hc, appInfo] at happ
      simpa only [hdata, Bool.and_true, Option.some_inj] using happ
    · intro hhook
      have hwrite := hsilent _ hhook appInfo [['x']]
      simp [TraceHook.records, TraceHook.isMatch, TracerBase.write, TracerBase.writeInline,
        myStrlen, strlenLoop, cStr, NUL] at hwrite
  · rintro ⟨hflag, hhook⟩
    have hverdict : ∀ info, t.isLister info = some false := by
      intro info
      cases info with
      | none => rfl
      | some info => rw [isLister_cleared hc, hflag, Bool.false_and]
    refine ⟨hverdict, ?_⟩
    intro hook hmem fastInfo msgs
    have hmatch : hook.isMatch = true := by
      unfold TraceHook.isMatch
      split
      · exact absurd hmem hhook
      · rfl
    rw [TraceHook.records, if_pos hmatch, hverdict]
    rfl

/-- After a `stop` and no later `init`, nothing is listened to and no hook writes, exactly when
the last accepted `init` did not ask for all libraries and the hook that writes without asking
was never installed. -/
theorem stop_ends_iff {isInited : TracerKind → Bool} {pre post : List (TracerEvent ε)}
    {ev : TracerEvent ε} {d : Tracers × ε} {tracer : TracerKind}
    (h : TracerSession env (Tracers.initial isInited, e) (pre ++ ev :: post) d)
    (hstop : ev.op = .stop tracer) (hpost : ∀ ev' ∈ post, isInit ev'.op = false) :
    Ended d.1 ↔ lastHookAll (pre ++ ev :: post) = false ∧
      ∀ c ∈ calls (pre ++ ev :: post), installsUnmatched c = false := by
  obtain ⟨hflag, hhooks⟩ := run_flags h
  rw [ended_iff (cleared_after_stop h hstop hpost), hflag, hhooks]
  simp only [not_exists, not_and, Bool.not_eq_true]

/-- Everything can be done. -/
def allowing (_ : Unit) (_ : TracerCall) : Bool × Unit := (true, ())

def Allowed (e : Unit) (c : TracerCall) (r : Bool) (e' : Unit) : Prop := allowing e c = (r, e')

/-- The events of operations on tracers that were never initialised. -/
def allowed (ops : List TracerOp) : List (TracerEvent Unit) :=
  Session.play TracerOp.body allowing ops (Tracers.initial fun _ => false, ())

theorem allowed_session (ops : List TracerOp) :
    ∃ d, TracerSession Allowed (Tracers.initial fun _ => false, ()) (allowed ops) d :=
  Session.play_session TracerOp.body (h := allowing) Allowed (fun _ _ => rfl) ops _

/-- A tracer that listens to one library, with a stream, and then stops. -/
def traceOne : List TracerOp :=
  [.init .stringHooker false [] ["libapp.so".toList] 0x5000, .stop .stringHooker]

theorem stop_ends_iff_traceOne :
    ∃ d, TracerSession Allowed (Tracers.initial fun _ => false, ()) (allowed traceOne) d ∧
      Ended d.1 := by
  obtain ⟨d, h⟩ := allowed_session traceOne
  obtain ⟨first, last, hevs, hstop⟩ : ∃ first last, allowed traceOne = [first] ++ last :: [] ∧
    last.op = .stop .stringHooker := ⟨_, _, rfl, rfl⟩
  refine ⟨d, h, (stop_ends_iff (hevs ▸ h) hstop (by simp)).mpr ?_⟩
  rw [← hevs]
  decide

/-- A tracer that listens to all libraries, and then stops. -/
def traceAll : List TracerOp := [.init .stringHooker true [] [] 0x5000, .stop .stringHooker]

/-- It goes on listening. -/
theorem stop_keeps_listening :
    ¬ ∀ (env : Unit → TracerCall → Bool → Unit → Prop) (pre post : List (TracerEvent Unit))
      (ev : TracerEvent Unit) (d : Tracers × Unit) (tracer : TracerKind),
      TracerSession env (Tracers.initial fun _ => false, ()) (pre ++ ev :: post) d →
      ev.op = .stop tracer → (∀ ev' ∈ post, isInit ev'.op = false) → Ended d.1 := by
  intro hall
  obtain ⟨d, h⟩ := allowed_session traceAll
  have hflag : lastHookAll (allowed traceAll) = true := by decide
  rw [← (run_flags h).1] at hflag
  obtain ⟨first, last, hevs, hstop⟩ : ∃ first last, allowed traceAll = [first] ++ last :: [] ∧
    last.op = .stop .stringHooker := ⟨_, _, rfl, rfl⟩
  rw [hevs] at h
  have hended := hall _ _ _ _ d _ h hstop (by simp)
  have hoff := ((ended_iff (cleared_after_stop h hstop (by simp))).mp hended).1
  rw [hflag] at hoff
  exact absurd hoff (by decide)

end NativeLib.Tracer
