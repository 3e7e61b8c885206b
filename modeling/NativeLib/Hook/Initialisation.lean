import NativeLib.Collections.Positions
import NativeLib.Hook.Steps

/-! Whether ShadowHook is initialised before it is used. `isInted` stands for both engines: a
first `Hooker` call under the Dobby model sets it for ShadowHook too, and a refused
`shadowhook_init` does not keep `Hooker` from going on to the hook. -/

namespace NativeLib.Hook

open Interaction Collections

variable {ε : Type} {env : ε → EngineCall → Word → ε → Prop}

/-- The call hooks by ShadowHook. -/
def shadowHooks (c : EngineCall × Word) : Bool :=
  match c.1 with
  | .shadowhookHookFuncAddr _ _ _ => true
  | _ => false

/-- The call initialised ShadowHook. -/
def shadowInits (c : EngineCall × Word) : Bool :=
  match c.1 with
  | .shadowhookInit _ _ => c.2 == SHADOWHOOK_ERRNO_OK
  | _ => false

/-- Every ShadowHook hook comes after an initialisation that succeeded. -/
def InitBeforeHook (tr : Trace EngineCall Word) : Prop :=
  AtEach (fun before c => shadowHooks c = true → ∃ i ∈ before, shadowInits i = true) tr

/-- The operation is a `Hooker` call that gets as far as `shadowhook_hook_func_addr`. -/
def reachesShadow (ev : HookEvent ε) : Bool :=
  match ev.op with
  | .hooker dysym _ _ =>
      decide (dysym ≠ nullptr) && !ev.pre.1.recorded dysym
        && decide (ev.pre.1.hookutilsModel = .shadowhook)
  | _ => false

/-- The operation is a `Hooker` call that sets `isInted` on behalf of Dobby. -/
def initsDobby (ev : HookEvent ε) : Bool :=
  match ev.op with
  | .hooker dysym _ _ =>
      decide (dysym ≠ nullptr) && !ev.pre.1.isInted
        && decide (ev.pre.1.hookutilsModel = .dobby)
  | _ => false

/-- A `Hooker` call that gets to the ShadowHook hook: where it has to initialise the engine
itself it was answered with success, and no earlier call set `isInted` for Dobby. -/
def Prepared (before : List (HookEvent ε)) (ev : HookEvent ε) : Prop :=
  reachesShadow ev = true →
    (ev.pre.1.isInted = false → ∃ i ∈ ev.trace, shadowInits i = true) ∧
      ∀ ev' ∈ before, initsDobby ev' = false

instance (before : List (HookEvent ε)) (ev : HookEvent ε) : Decidable (Prepared before ev) :=
  inferInstanceAs (Decidable (_ → (_ → ∃ i ∈ ev.trace, _) ∧ ∀ ev' ∈ before, _))

instance (tr : Trace EngineCall Word) : Decidable (InitBeforeHook tr) :=
  inferInstanceAs (Decidable (AtEach (fun before _ => _ → ∃ i ∈ before, _) tr))

/-- A hook by ShadowHook after an initialisation, in the part of a run after `seen`. -/
def InitBeforeHookAfter (seen tr : Trace EngineCall Word) : Prop :=
  AtEach (fun before c => shadowHooks c = true → ∃ i ∈ seen ++ before, shadowInits i = true) tr

theorem initBeforeHook_append {tr tr' : Trace EngineCall Word} :
    InitBeforeHook (tr ++ tr') ↔ InitBeforeHook tr ∧ InitBeforeHookAfter tr tr' := atEach_append

theorem initBeforeHookAfter_of_no_hook (seen : Trace EngineCall Word)
    {tr : Trace EngineCall Word} (h : ∀ c ∈ tr, shadowHooks c = false) :
    InitBeforeHookAfter seen tr := by
  intro pre c post htr hc
  have := h c (by simp [htr])
  simp [this] at hc

theorem initBeforeHookAfter_snoc {seen tr : Trace EngineCall Word} {c : EngineCall × Word}
    (h : ∀ c ∈ tr, shadowHooks c = false) :
    InitBeforeHookAfter seen (tr ++ [c]) ↔
      (shadowHooks c = true → ∃ i ∈ seen ++ tr, shadowInits i = true) := by
  rw [InitBeforeHookAfter, atEach_snoc]
  exact and_iff_right (initBeforeHookAfter_of_no_hook seen h)

/-- The first block of `Hooker`: what it does to the flag, and when it calls no engine. -/
theorem HookUtils.InitStep.flag {s s' : HookUtils} {e e' : ε} {tr : Trace EngineCall Word}
    (h : s.InitStep env e tr s' e') :
    (s'.isInted = true ↔ s.isInted = true ∨
        (s.isInted = false ∧ s.hookutilsModel = .dobby) ∨ ∃ i ∈ tr, shadowInits i = true) ∧
      (s.isInted = true ∨ s.hookutilsModel = .dobby → tr = []) ∧
      ∀ c ∈ tr, shadowHooks c = false := by
  cases h with
  | done h => simp [h]
  | dobby h hm => simp [h, hm]
  | shadowhook h hm hr => simp [h, hm, shadowInits, shadowHooks]

/-- What one operation does to the flag, on behalf of which engine, and when it comes to a
ShadowHook hook. -/
structure FlagStep (ev : HookEvent ε) : Prop where
  set : ev.post.1.isInted = true ↔
    ev.pre.1.isInted = true ∨ initsDobby ev = true ∨ ∃ i ∈ ev.trace, shadowInits i = true
  once : ev.pre.1.isInted = true ∨ initsDobby ev = true →
    ∀ i ∈ ev.trace, shadowInits i = false
  unset : initsDobby ev = true → ev.pre.1.isInted = false
  hook : ∀ seen, InitBeforeHookAfter seen ev.trace ↔
    (reachesShadow ev = true → ∃ i ∈ seen ++ ev.trace, shadowInits i = true)

/-- A `Hooker` call past its null check: the first block, and then at most one hook. -/
theorem flagStep_hooker {s s₀ s' : HookUtils} {e e₀ e' : ε} {tr : Trace EngineCall Word}
    {dysym newrep org : Ptr} {b : Option Bool} (extra : Option (EngineCall × Word))
    (hn : dysym ≠ nullptr) (hi : s.InitStep env e tr s₀ e₀) (hs' : s'.isInted = s₀.isInted)
    (hextra : ∀ c ∈ extra, shadowInits c = false)
    (hreach : reachesShadow (ε := ε)
        ⟨.hooker dysym newrep org, (s, e), tr ++ extra.toList, b, (s', e')⟩ = true ↔
      ∃ c ∈ extra, shadowHooks c = true) :
    FlagStep (ε := ε) ⟨.hooker dysym newrep org, (s, e), tr ++ extra.toList, b, (s', e')⟩ := by
  obtain ⟨hset, honce, hno⟩ := hi.flag
  have hinits : initsDobby (ε := ε)
      ⟨.hooker dysym newrep org, (s, e), tr ++ extra.toList, b, (s', e')⟩ = true ↔
        s.isInted = false ∧ s.hookutilsModel = .dobby := by
    simp [initsDobby, hn]
  have hmem : (∃ i ∈ tr ++ extra.toList, shadowInits i = true) ↔
      ∃ i ∈ tr, shadowInits i = true := by
    cases extra with
    | none => simp
    | some c => simp [hextra c rfl]
  refine ⟨?_, ?_, ?_, ?_⟩
  · rw [hinits, hmem, ← hset, hs']
  · rw [hinits]
    intro h
    have : ¬ ∃ i ∈ tr ++ extra.toList, shadowInits i = true := by
      rw [hmem, honce (h.imp_right And.right)]
      simp
    simpa using this
  · rw [hinits]
    exact And.left
  · intro seen
    rw [hreach]
    cases extra with
    | none =>
      refine ⟨by simp, fun _ => ?_⟩
      rw [Option.toList_none, List.append_nil]
      exact initBeforeHookAfter_of_no_hook seen hno
    | some c =>
      rw [Option.toList_some, initBeforeHookAfter_snoc hno, ← List.append_assoc]
      simp [or_and_right, exists_or, hextra c rfl]

theorem flagStep (ev : HookEvent ε) (hev : ev.Fires HookOp.body env) : FlagStep ev := by
  obtain ⟨op, ⟨s, e⟩, tr, b, ⟨s', e'⟩⟩ := ev
  have hs : HookStep env s e op tr b s' e' := HookOp.body_step hev
  cases hs with
  | setHookerModle modle =>
    exact ⟨by simp [initsDobby, HookUtils.setHookerModle], by simp, by simp [initsDobby],
      fun seen => by simp [InitBeforeHookAfter, reachesShadow]⟩
  | @unHook sym _ _ _ _ hs =>
    have hcall : ∀ info, (∀ code, shadowInits (s.unhookCall info, code) = false) ∧
        ∀ code, shadowHooks (s.unhookCall info, code) = false := by
      intro info
      unfold HookUtils.unhookCall
      cases s.hookutilsModel <;> exact ⟨fun _ => rfl, fun _ => rfl⟩
    cases hs with
    | absent hsel =>
      exact ⟨by simp [initsDobby], by simp, by simp [initsDobby],
        fun seen => by simp [InitBeforeHookAfter, reachesShadow]⟩
    | @found info code _ hsel hc =>
      refine ⟨by simp [initsDobby, hcall], by simp [hcall], by simp [initsDobby], ?_⟩
      intro seen
      have hno : ∀ c ∈ [(s.unhookCall info, code)], shadowHooks c = false := by simp [hcall]
      simp [initBeforeHookAfter_of_no_hook seen hno, reachesShadow]
  | @hooker dysym newrep org _ _ _ _ hs =>
    cases hs with
    | null h =>
      exact ⟨by simp [initsDobby, h], by simp, by simp [initsDobby, h],
        fun seen => by simp [InitBeforeHookAfter, reachesShadow, h]⟩
    | recorded h hi hr =>
      simpa using flagStep_hooker none h hi rfl (by simp) (by simp [reachesShadow, hr])
    | @dobby _ _ _ ret _ h hi hr hm hc =>
      refine flagStep_hooker (some (.dobbyHook dysym newrep org, ret)) h hi ?_
        (by simp [shadowInits]) (by simp [reachesShadow, hm, shadowHooks])
      split <;> rfl
    | @shadowhook _ _ _ sub _ h hi hr hm hc =>
      refine flagStep_hooker (some (.shadowhookHookFuncAddr dysym newrep org, sub)) h hi ?_
        (by simp [shadowInits]) (by simp [reachesShadow, h, hr, hm, shadowHooks])
      split <;> rfl

/-- The flag tells that one engine was initialised, and not which. -/
structure FlagTells (evs : List (HookEvent ε)) (s : HookUtils) : Prop where
  set : s.isInted = true ↔
    (∃ ev ∈ evs, initsDobby ev = true) ∨ ∃ i ∈ calls evs, shadowInits i = true
  either : (∃ ev ∈ evs, initsDobby ev = true) → ∀ i ∈ calls evs, shadowInits i = false

theorem flagTells_snoc {evs : List (HookEvent ε)} {ev : HookEvent ε} (h : FlagStep ev)
    (hi : FlagTells evs ev.pre.1) : FlagTells (evs ++ [ev]) ev.post.1 := by
  have hset : (∃ ev' ∈ evs, initsDobby ev' = true) ∨ (∃ i ∈ calls evs, shadowInits i = true) ↔
      ev.pre.1.isInted = true := hi.set.symm
  refine ⟨?_, ?_⟩
  · simp only [h.set, hi.set, calls_append, calls_singleton, List.mem_append,
      List.mem_singleton, or_and_right, exists_or, exists_eq_left]
    exact or_or_or_comm
  · simp only [calls_append, calls_singleton, List.forall_mem_append]
    rintro ⟨ev', hmem, hd⟩
    rw [List.mem_append, List.mem_singleton] at hmem
    rcases hmem with hmem | rfl
    · exact ⟨hi.either ⟨ev', hmem, hd⟩, h.once (.inl (hset.mp (.inl ⟨ev', hmem, hd⟩)))⟩
    · refine ⟨?_, h.once (.inr hd)⟩
      intro i hmem
      have := h.unset hd
      rw [← Bool.not_eq_true, hi.set] at this
      simpa using fun hi' => this (.inr ⟨i, hmem, hi'⟩)

/-- One more operation: its hook comes after an initialisation exactly when it is prepared. -/
theorem initBeforeHookAfter_iff_prepared {evs : List (HookEvent ε)} {ev : HookEvent ε}
    (h : FlagStep ev) (hi : FlagTells evs ev.pre.1) :
    InitBeforeHookAfter (calls evs) ev.trace ↔ Prepared evs ev := by
  rw [h.hook, Prepared]
  refine imp_congr_right fun _ => ?_
  simp only [List.mem_append, or_and_right, exists_or]
  refine ⟨?_, ?_⟩
  · intro hok
    refine ⟨?_, ?_⟩
    · intro hflag
      have hcalls : ¬ ∃ i ∈ calls evs, shadowInits i = true := fun hc => by
        simp [hi.set.mpr (.inr hc)] at hflag
      exact hok.resolve_left hcalls
    · intro ev' hmem
      by_contra hd
      have hd : ∃ ev ∈ evs, initsDobby ev = true := ⟨ev', hmem, by simpa using hd⟩
      rcases hok with ⟨i, hmem, hok⟩ | ⟨i, hmem, hok⟩
      · simp [hi.either hd i hmem] at hok
      · simp [h.once (.inl (hi.set.mpr (.inl hd))) i hmem] at hok
  · rintro ⟨hown, hdobby⟩
    by_cases hflag : ev.pre.1.isInted = true
    · rcases hi.set.mp hflag with ⟨ev', hmem, hd⟩ | hcalls
      · simp [hdobby ev' hmem] at hd
      · exact .inl hcalls
    · exact .inr (hown (by simpa using hflag))

/-- Every ShadowHook hook of a run comes after a successful `shadowhook_init` exactly when
every `Hooker` call that gets to one is prepared. -/
theorem initBeforeHook_iff_prepared {evs : List (HookEvent ε)} {d : HookUtils × ε} {e₀ : ε}
    (h : HookSession env (HookUtils.initial, e₀) evs d) :
    InitBeforeHook (calls evs) ↔ AtEach Prepared evs := by
  have key : FlagTells evs d.1 ∧ (InitBeforeHook (calls evs) ↔ AtEach Prepared evs) := by
    refine Session.inv_history (I := fun evs d => FlagTells evs d.1 ∧
      (InitBeforeHook (calls evs) ↔ AtEach Prepared evs)) ?_ ?_ h
    · exact ⟨⟨by simp [HookUtils.initial], by simp⟩, by simp [InitBeforeHook]⟩
    · rintro evs ev - hev ⟨hi, ih⟩
      have hstep := flagStep ev hev
      refine ⟨flagTells_snoc hstep hi, ?_⟩
      rw [calls_append, calls_singleton, initBeforeHook_append, atEach_snoc, ih,
        initBeforeHookAfter_iff_prepared hstep hi]
  exact key.2

/-- Engines that carry everything out. -/
def obeying (_ : Unit) : EngineCall → Word × Unit
  | .shadowhookHookFuncAddr funcAddr _ _ => (funcAddr, ())
  | _ => (0, ())

/-- A hook in each model, ShadowHook first. -/
def hookShadowFirst : List HookOp :=
  [.setHookerModle .shadowhook, .hooker 0x1000 0x2000 0x3000, .setHookerModle .dobby,
    .hooker 0x1100 0x2000 0x3000]

theorem initBeforeHook_iff_prepared_hookShadowFirst :
    InitBeforeHook
      (calls (Session.play HookOp.body obeying hookShadowFirst (HookUtils.initial, ()))) := by
  obtain ⟨d, h⟩ := Session.play_session HookOp.body (fun e c r e' => obeying e c = (r, e'))
    (fun _ _ => rfl) hookShadowFirst (HookUtils.initial, ())
  exact (initBeforeHook_iff_prepared h).mpr (by decide)

/-- A Dobby hook, and then the first ShadowHook hook: the engine was never initialised. -/
def hookDobbyFirst : List HookOp :=
  [.hooker 0x1000 0x2000 0x3000, .setHookerModle .shadowhook, .hooker 0x1100 0x2000 0x3000]

theorem initBeforeHook_fails_after_dobby :
    ¬ ∀ (env : Unit → EngineCall → Word → Unit → Prop) evs d,
      HookSession env (HookUtils.initial, ()) evs d → InitBeforeHook (calls evs) := by
  intro hall
  obtain ⟨d, h⟩ := Session.play_session HookOp.body (fun e c r e' => obeying e c = (r, e'))
    (fun _ _ => rfl) hookDobbyFirst (HookUtils.initial, ())
  exact absurd (hall _ _ d h) (by decide)

end NativeLib.Hook
