import NativeLib.Adapter.Adapter

/-! Which environment `ensureEnvCreated` returns: one that some thread was given by the VM
and left in `mEnv`, or, if `mEnv` is found empty, the one of the calling thread. -/

namespace NativeLib.Adapter

open Interaction

variable {T : Type} [DecidableEq T] {vm : JavaVM T} {t : T} {env : Ptr}

/-- What was done by whom. -/
abbrev AdapterWorld (T : Type) := World AdapterOp T AdapterCall Ptr Ptr (Globals T)

variable {w w' : AdapterWorld T}

/-- Some thread asked the VM for its environment, and got `env`. -/
def Cached (vm : JavaVM T) (w : AdapterWorld T) (env : Ptr) : Prop :=
  ∃ t, env = vm.envOf t ∧ (t, .ask .getEnv env) ∈ w.log

/-- What is in `mEnv` is an environment that some thread was given. -/
def CacheFilled (vm : JavaVM T) (w : AdapterWorld T) : Prop :=
  w.shared.mEnv ≠ nullptr → Cached vm w w.shared.mEnv

theorem Cached.step {t' : T} {a : Act AdapterOp AdapterCall Ptr Ptr} (h : Cached vm w env)
    (hstep : w.Step vm.Env t' a w') : Cached vm w' env := by
  obtain ⟨t, henv, hmem⟩ := h
  exact ⟨t, henv, hstep.mem_log hmem⟩

theorem Cached.others (h : Cached vm w env) (ho : w.Others vm.Env t w') : Cached vm w' env :=
  ho.inv (I := fun w => Cached vm w env) (fun _ _ _ _ _ hstep hc => hc.step hstep) h

theorem cacheFilled_step {t' : T} {a : Act AdapterOp AdapterCall Ptr Ptr}
    (hstep : w.Step vm.Env t' a w') (h : CacheFilled vm w) : CacheFilled vm w' := by
  have hkeep : w'.shared.mEnv = w.shared.mEnv → CacheFilled vm w' := by
    intro hsame hne
    rw [hsame] at hne ⊢
    exact (h hne).step hstep
  cases hstep with
  | enter op => exact hkeep rfl
  | leave op b => exact hkeep rfl
  | @ask c r s hr =>
    cases c with
    | readEnv =>
      obtain ⟨rfl, rfl⟩ := Prod.mk.inj hr
      exact hkeep rfl
    | getEnv =>
      obtain ⟨rfl, rfl⟩ := Prod.mk.inj hr
      intro hne
      refine ⟨t', ?_, List.mem_append_right _ (List.mem_singleton_self _)⟩
      by_cases hatt : w.shared.attached t' = true
      · simp [hatt]
      · simp [hatt] at hne
    | attachCurrentThread =>
      obtain ⟨rfl, rfl⟩ := Prod.mk.inj hr
      exact hkeep rfl
    | detachCurrentThread =>
      obtain ⟨rfl, rfl⟩ := Prod.mk.inj hr
      exact hkeep rfl

theorem CacheFilled.others (h : CacheFilled vm w) (ho : w.Others vm.Env t w') :
    CacheFilled vm w' :=
  ho.inv (fun _ _ _ _ _ hstep => cacheFilled_step hstep) h

/-- Only a thread itself attaches and detaches it. -/
theorem attached_others (h : w.shared.attached t = true) (ho : w.Others vm.Env t w') :
    w'.shared.attached t = true := by
  refine ho.inv (I := fun w => w.shared.attached t = true) ?_ h
  intro w t' a w' hne hstep hatt
  cases hstep with
  | enter op => exact hatt
  | leave op b => exact hatt
  | @ask c r s hr =>
    cases c with
    | readEnv | getEnv =>
      obtain ⟨rfl, rfl⟩ := Prod.mk.inj hr
      exact hatt
    | attachCurrentThread | detachCurrentThread =>
      obtain ⟨rfl, rfl⟩ := Prod.mk.inj hr
      simpa [Function.update_of_ne (Ne.symm hne)] using hatt

/-- What `ensureEnvCreated` returns in thread `t`. -/
def Ensured (vm : JavaVM T) (t : T) (env : Ptr) (w : AdapterWorld T) : Prop :=
  env ≠ nullptr → Cached vm w env ∨ (env = vm.envOf t ∧ w.shared.attached t = true)

/-- The end of `ensureEnvCreated`, from the second read of `mEnv` on. -/
def readAgain : AdapterProg Ptr :=
  .ask .readEnv fun env => if env = nullptr then .ask .attachCurrentThread .ret else .ret env

theorem ensureEnvCreated_eq : ensureEnvCreated = .ask .readEnv fun env =>
    if env = nullptr then .ask .getEnv fun _ => readAgain else readAgain := by
  unfold ensureEnvCreated getRunTimeEnv readAgain
  rw [Prog.call_bind, Prog.ask_bind]
  congr 1
  funext env
  split <;> rfl

theorem readAgain_ensures (h : CacheFilled vm w) :
    readAgain.Ensures vm.Env t (Ensured vm t) w := by
  rw [readAgain, Prog.ensures_ask]
  intro w₁ ho₁ r s hr
  have h₁ := h.others ho₁
  obtain ⟨rfl, rfl⟩ := Prod.mk.inj hr
  by_cases hnull : w₁.shared.mEnv = nullptr
  · rw [if_pos hnull, Prog.ensures_ask]
    intro w₂ ho₂ r s hr
    obtain ⟨rfl, rfl⟩ := Prod.mk.inj hr
    rw [Prog.ensures_ret]
    intro w₃ ho₃ _
    exact .inr ⟨rfl, attached_others (by simp) ho₃⟩
  · rw [if_neg hnull, Prog.ensures_ret]
    intro w₂ ho₂ _
    exact .inl (((h₁ hnull).step (.ask hr)).others ho₂)

theorem ensureEnvCreated_ensures (h : CacheFilled vm w) :
    ensureEnvCreated.Ensures vm.Env t (Ensured vm t) w := by
  rw [ensureEnvCreated_eq, Prog.ensures_ask]
  intro w₁ ho₁ r s hr
  have h₁ := cacheFilled_step (.ask hr) (h.others ho₁)
  by_cases hnull : r = nullptr
  · rw [if_pos hnull, Prog.ensures_ask]
    intro w₂ ho₂ r s hr
    exact readAgain_ensures (cacheFilled_step (.ask hr) (h₁.others ho₂))
  · rw [if_neg hnull]
    exact readAgain_ensures h₁

/-- `ensureEnvCreated` promises `Ensured`, and the other operations promise nothing. -/
def Promised (vm : JavaVM T) (t : T) (op : AdapterOp) (env : Ptr) (w : AdapterWorld T) : Prop :=
  op = .ensureEnvCreated → Ensured vm t env w

/-- Whatever the threads do, in any order: a non-null environment that `ensureEnvCreated`
returns is one that a thread was given by the VM and that was left in `mEnv`, or it is the
caller's, and the caller is attached. -/
theorem ensureEnvCreated_returns {attached : T → Bool} {P : Process T}
    (h : vm.Runs attached P) (hret : Returns P t env) (hne : env ≠ nullptr) :
    Cached vm P.toWorld env ∨ (env = vm.envOf t ∧ P.shared.attached t = true) := by
  have hpromised : Promised vm t .ensureEnvCreated env P.toWorld := by
    refine h.returns (I := CacheFilled vm) (Q := Promised vm) ?_ ?_ ?_ hret
    · intro hne
      exact absurd rfl hne
    · exact fun _ _ _ _ hstep => cacheFilled_step hstep
    · intro t op w hw
      by_cases hop : op = .ensureEnvCreated
      · subst hop
        refine (ensureEnvCreated_ensures hw).mono ?_
        exact fun env w h _ => h
      · exact Prog.ensures_of_forall (fun _ _ h => absurd h hop) _ w
  exact hpromised rfl hne

/-- Two threads. -/
def twoThreads : JavaVM Bool where
  envOf t := if t then 0x200 else 0x100
  envOf_ne t := by cases t <;> decide
  envOf_inj t t' h := by
    cases t <;> cases t' <;> simp at h ⊢

/-- The run of the threads in the given order. -/
def scheduled (attached : Bool → Bool) (schedule : List (Bool × AdapterOp)) : Process Bool :=
  Pool.play AdapterOp.body twoThreads.answer schedule (Pool.idle (Globals.initial attached))

theorem scheduled_runs (attached : Bool → Bool) (schedule : List (Bool × AdapterOp)) :
    twoThreads.Runs attached (scheduled attached schedule) :=
  Pool.play_reaches (fun _ _ _ => rfl) schedule _

/-- A thread that is not attached finds `mEnv` empty. -/
def attachOne : List (Bool × AdapterOp) := List.replicate 5 (true, .ensureEnvCreated)

theorem ensureEnvCreated_returns_attachOne :
    Returns (scheduled (fun _ => false) attachOne) true 0x200 ∧
      (Cached twoThreads (scheduled (fun _ => false) attachOne).toWorld 0x200 ∨
        ((0x200 : Ptr) = twoThreads.envOf true ∧
          (scheduled (fun _ => false) attachOne).shared.attached true = true)) := by
  have hret : Returns (scheduled (fun _ => false) attachOne) true 0x200 := rfl
  exact ⟨hret, ensureEnvCreated_returns (scheduled_runs _ _) hret (by decide)⟩

/-- One thread fills `mEnv`, and another one asks. -/
def askAfterOther : List (Bool × AdapterOp) :=
  List.replicate 5 (false, .getRunTimeEnv) ++ List.replicate 3 (true, .ensureEnvCreated)

/-- The second thread gets the environment of the first. -/
theorem ensureEnvCreated_returns_other :
    ¬ ∀ (vm : JavaVM Bool) (attached : Bool → Bool) (P : Process Bool) (t : Bool) (env : Ptr),
      vm.Runs attached P → Returns P t env → env ≠ nullptr →
      env = vm.envOf t ∧ P.shared.attached t = true := by
  intro hall
  have hret : Returns (scheduled (fun _ => true) askAfterOther) true 0x100 := rfl
  have hown := hall twoThreads _ _ true 0x100 (scheduled_runs _ _) hret (by decide)
  exact absurd hown.1 (by decide)

end NativeLib.Adapter
