import NativeLib.Tracer.Streams

/-! Whose configuration decides. The flag and both lists are static members, so that all
tracers listen to what the last `init` asked for, whichever tracer it was called on, and to
nothing by name after the next `stop` of any of them. -/

namespace NativeLib.Tracer

open Interaction

variable {ε : Type} {env : ε → TracerCall → Bool → ε → Prop} {t t' : Tracers} {e e' : ε}
  {tr : Trace TracerCall Bool}

/-- What an `init` is told to listen to. -/
structure Config where
  hookAll : Bool
  forbidList : List (List Char)
  filterList : List (List Char)
  deriving DecidableEq, Repr

namespace Config

/-- Listen to nothing. -/
def none : Config := ⟨false, [], []⟩

/-- Forget all names. -/
def cleared (c : Config) : Config := { c with forbidList := [], filterList := [] }

/-- Whether to listen to a library: one of an application, not forbidden, and asked for. -/
def verdict (c : Config) (info : DlInfo) : Bool :=
  match info.dliFname with
  | .none => false
  | some name =>
    decide ("/data/".toList <:+: text name) &&
      !(c.forbidList.any fun forbid => decide (text (cStr forbid) <:+: text name)) &&
      (c.hookAll || c.filterList.any fun filter => decide (text (cStr filter) <:+: text name))

end Config

/-- The configuration passed to an `init` of `tracer`. -/
def configFor (tracer : TracerKind) : TracerOp → Option Config
  | .init tracer' hookAll forbidList filterList _ =>
    if tracer' = tracer then some ⟨hookAll, forbidList, filterList⟩ else none
  | _ => none

/-- The configuration of an `init` that is not turned away. -/
def acceptedConfig (op : TracerOp) (t : Tracers) : Option Config :=
  match op with
  | .init tracer hookAll forbidList filterList _ =>
    if t.isInited tracer then none else some ⟨hookAll, forbidList, filterList⟩
  | _ => none

/-- The configuration of the last accepted `init`, on whatever tracer; without its names if
some tracer was stopped since. -/
def inForce (evs : List (TracerEvent ε)) : Config :=
  let config := (evs.filterMap fun ev => acceptedConfig ev.op ev.pre.1).getLast?.getD .none
  let since := evs.rtakeWhile fun ev => (acceptedConfig ev.op ev.pre.1).isNone
  if since.any fun ev => isStop ev.op then config.cleared else config

/-- The configuration that the members hold. -/
def TracerBase.config (t : TracerBase) : Config := ⟨t.isHookAll, t.forbidSoList, t.filterSoList⟩

theorem isLister_config (t : TracerBase) (info : DlInfo) :
    t.isLister (some info) = some (t.config.verdict info) := isLister_eq info

/-- What one operation does to the configuration. -/
def ConfigStep (op : TracerOp) (t t' : Tracers) : Prop :=
  t'.config = if isStop op then t.config.cleared else (acceptedConfig op t).getD t.config

theorem init_config {tracer : TracerKind} {install : Tracers → TracerProg Tracers}
    {hookAll : Bool} {forbidList filterList : List (List Char)} {os : Ptr}
    (hinstall : ∀ t e tr t' e', (install t).Exec env e tr t' e' → Installs t tr t')
    (he : (t.init tracer install hookAll forbidList filterList os).Exec env e tr t' e') :
    ConfigStep (.init tracer hookAll forbidList filterList os) t t' := by
  unfold Tracers.init at he
  split at he
  · next hinited =>
    obtain ⟨-, rfl, -⟩ := he
    simp [ConfigStep, isStop, acceptedConfig, hinited]
  · next hinited =>
    have hbase := (hinstall _ _ _ _ _ he).base
    simp [ConfigStep, isStop, acceptedConfig, hinited, TracerBase.config, hbase]

theorem stop_config {tracer : TracerKind} (he : t.stop.Exec env e tr t' e') :
    ConfigStep (.stop tracer) t t' := by
  have hstep : OpStep (.stop tracer) t tr t' := stop_step he
  have hflag : t'.isHookAll = t.isHookAll := hstep.hookAll
  obtain ⟨hfilter, hforbid⟩ := hstep.stopped tracer rfl
  simp [ConfigStep, isStop, TracerBase.config, Config.cleared, hflag, hfilter, hforbid]

theorem configStep {op : TracerOp} (he : (op.run t).Exec env e tr t' e') :
    ConfigStep op t t' := by
  cases op with
  | init tracer hookAll forbidList filterList os =>
    cases tracer with
    | jnitrace => exact init_config (fun _ _ _ _ _ => initJnitracer_installs) he
    | stringHandler => exact init_config (fun _ _ _ _ _ => initStringHandler_installs) he
    | stringHooker => exact init_config (fun _ _ _ _ _ => stringHookerInit_installs) he
  | stop tracer => exact stop_config he
  | loadAfter path =>
    rw [TracerOp.run] at he
    split at he
    · have hbase := (loadAfter_installs he).base
      simp [ConfigStep, isStop, acceptedConfig, TracerBase.config, hbase]
    · obtain ⟨-, rfl, -⟩ := he
      simp [ConfigStep, isStop, acceptedConfig]

/-- The same of an event. -/
theorem event_config {ev : TracerEvent ε} (hev : ev.Fires TracerOp.body env) :
    ConfigStep ev.op ev.pre.1 ev.post.1 := by
  obtain ⟨t₁, u, tr₁, tr₂, htr, he, rfl, hres, -⟩ := Prog.exec_bind.mp hev
  rw [(Prod.mk.inj hres).2]
  exact configStep he

theorem acceptedConfig_stop {op : TracerOp} (h : isStop op = true) :
    acceptedConfig op t = none := by
  cases op with
  | stop tracer => rfl
  | init tracer hookAll forbidList filterList os => simp [isStop] at h
  | loadAfter path => simp [isStop] at h

/-- The configuration in force, one operation later. -/
theorem inForce_snoc (evs : List (TracerEvent ε)) (ev : TracerEvent ε) :
    inForce (evs ++ [ev]) =
      if isStop ev.op then (inForce evs).cleared
      else (acceptedConfig ev.op ev.pre.1).getD (inForce evs) := by
  rw [inForce, List.rtakeWhile_concat, List.filterMap_append]
  cases hacc : acceptedConfig ev.op ev.pre.1 with
  | some c =>
    have hstop : isStop ev.op = false := by
      by_contra hstop
      rw [Bool.not_eq_false] at hstop
      simp [acceptedConfig_stop hstop] at hacc
    simp [hacc, hstop]
  | none =>
    cases hstop : isStop ev.op with
    | false => simp [hacc, hstop, inForce]
    | true =>
      simp only [hacc, inForce, Option.isNone_none, if_true, List.any_append, List.any_cons,
        List.any_nil, hstop, Bool.or_true, List.filterMap_cons, List.filterMap_nil,
        List.append_nil, Bool.true_or]
      split <;> rfl

theorem run_config {isInited : TracerKind → Bool} {evs : List (TracerEvent ε)}
    {d : Tracers × ε} (h : TracerSession env (Tracers.initial isInited, e) evs d) :
    d.1.config = inForce evs := by
  refine Session.inv_history (I := fun evs d => d.1.config = inForce evs) rfl ?_ h
  intro evs ev _ hev ih
  rw [event_config hev, inForce_snoc, ih]

/-- In any run of the tracers, whatever hook asks: the verdict on a library is that of the
last accepted configuration. -/
theorem verdict_inForce {isInited : TracerKind → Bool} {evs : List (TracerEvent ε)}
    {d : Tracers × ε} (h : TracerSession env (Tracers.initial isInited, e) evs d)
    (info : DlInfo) : d.1.isLister (some info) = some ((inForce evs).verdict info) := by
  rw [isLister_config, run_config h]

/-- The library at a path. -/
def libraryAt (path : List Char) : DlInfo :=
  ⟨some (cStr path), by
    intro name hname
    rw [← Option.some_inj.mp hname]
    exact nul_mem_cStr path⟩

/-- A tracer for one library, and then another one for another. -/
def traceOther : List TracerOp :=
  [.init .jnitrace false [] ["libapp.so".toList] nullptr,
    .init .stringHandler false [] ["libother.so".toList] nullptr]

theorem verdict_inForce_traceOther :
    ∃ d, TracerSession Allowed (Tracers.initial fun _ => false, ()) (allowed traceOther) d ∧
      d.1.isLister (some (libraryAt "/data/app/libother.so".toList)) = some true := by
  obtain ⟨d, h⟩ := allowed_session traceOther
  refine ⟨d, h, ?_⟩
  rw [verdict_inForce h]
  decide

/-- The configurations that were passed to a tracer. -/
def passedTo (tracer : TracerKind) (evs : List (TracerEvent ε)) : List Config :=
  evs.filterMap fun ev => configFor tracer ev.op

/-- Each tracer was initialised once, and the first goes by the list of the second. -/
theorem verdict_of_other_tracer :
    ¬ ∀ (env : Unit → TracerCall → Bool → Unit → Prop) (evs : List (TracerEvent Unit))
      (d : Tracers × Unit) (tracer : TracerKind) (c : Config),
      TracerSession env (Tracers.initial fun _ => false, ()) evs d →
      (∀ ev ∈ evs, isInit ev.op = true) → (∀ other, (passedTo other evs).length ≤ 1) →
      passedTo tracer evs = [c] → ∀ info, d.1.isLister (some info) = some (c.verdict info) := by
  intro hall
  obtain ⟨d, h⟩ := allowed_session traceOther
  have honce : ∀ other, (passedTo other (allowed traceOther)).length ≤ 1 := by
    intro other
    cases other <;> decide
  have hown := hall _ _ d .jnitrace ⟨false, [], ["libapp.so".toList]⟩ h (by decide) honce
    (by decide) (libraryAt "/data/app/libapp.so".toList)
  have hconfig : inForce (allowed traceOther) = ⟨false, [], ["libother.so".toList]⟩ := by decide
  rw [isLister_config, run_config h, hconfig] at hown
  exact absurd hown (by decide)

end NativeLib.Tracer
