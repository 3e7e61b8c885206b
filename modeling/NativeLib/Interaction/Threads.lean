import Mathlib.Logic.Function.Basic
import Mathlib.Logic.Relation
import NativeLib.Interaction.Prog

/-! Threads: each runs one operation after another, and the commands of all of them are
interleaved in any order. What a program ensures it ensures whatever the other threads do
between its commands. -/

namespace NativeLib.Interaction

variable {Op T C R β σ : Type}

/-- What a thread does next: enter an operation, have a command answered, or return. -/
inductive Act (Op C R β : Type) where
  | enter (op : Op)
  | ask (c : C) (r : R)
  | leave (op : Op) (b : β)

/-- The shared state, and what was done so far and by whom. -/
structure World (Op T C R β σ : Type) where
  shared : σ
  log : List (T × Act Op C R β)

/-- An act of thread `t`. Only commands change the shared state. -/
inductive World.Step (env : T → σ → C → R → σ → Prop) (w : World Op T C R β σ) (t : T) :
    Act Op C R β → World Op T C R β σ → Prop
  | enter (op) : Step env w t (.enter op) ⟨w.shared, w.log ++ [(t, .enter op)]⟩
  | ask {c r s} (h : env t w.shared c r s) :
      Step env w t (.ask c r) ⟨s, w.log ++ [(t, .ask c r)]⟩
  | leave (op b) : Step env w t (.leave op b) ⟨w.shared, w.log ++ [(t, .leave op b)]⟩

/-- Acts of threads other than `t`, any number of them. -/
def World.Others (env : T → σ → C → R → σ → Prop) (t : T) :
    World Op T C R β σ → World Op T C R β σ → Prop :=
  Relation.ReflTransGen fun w w' => ∃ t' a, t' ≠ t ∧ w.Step env t' a w'

variable {env : T → σ → C → R → σ → Prop} {t : T} {w w' w'' : World Op T C R β σ}

/-- What every act of another thread preserves stays. -/
theorem World.Others.inv {I : World Op T C R β σ → Prop}
    (hstep : ∀ w t' a w', t' ≠ t → w.Step env t' a w' → I w → I w') (h : w.Others env t w')
    (hw : I w) : I w' := by
  induction h with
  | refl => exact hw
  | tail _ hlast ih =>
    obtain ⟨t', a, hne, ha⟩ := hlast
    exact hstep _ _ _ _ hne ha ih

/-- The log only grows. -/
theorem World.Step.mem_log {a : Act Op C R β} (h : w.Step env t a w') {x : T × Act Op C R β}
    (hx : x ∈ w.log) : x ∈ w'.log := by
  cases h <;> exact List.mem_append_left _ hx

/-- Whatever the others do before each of its commands and in the end, the program returns
with `Q`. -/
def Prog.Ensures (env : T → σ → C → R → σ → Prop) (t : T)
    (Q : β → World Op T C R β σ → Prop) : Prog C R β → World Op T C R β σ → Prop
  | .ret b, w => ∀ w', w.Others env t w' → Q b w'
  | .ask c k, w => ∀ w', w.Others env t w' → ∀ r s, env t w'.shared c r s →
      (k r).Ensures env t Q ⟨s, w'.log ++ [(t, .ask c r)]⟩

variable {Q : β → World Op T C R β σ → Prop}

theorem Prog.ensures_ret {b : β} :
    (Prog.ret b : Prog C R β).Ensures env t Q w ↔ ∀ w', w.Others env t w' → Q b w' := Iff.rfl

theorem Prog.ensures_ask {c : C} {k : R → Prog C R β} :
    (Prog.ask c k).Ensures env t Q w ↔ ∀ w', w.Others env t w' → ∀ r s,
      env t w'.shared c r s → (k r).Ensures env t Q ⟨s, w'.log ++ [(t, .ask c r)]⟩ := Iff.rfl

theorem Prog.ensures_of_forall (h : ∀ b w, Q b w) (p : Prog C R β) (w : World Op T C R β σ) :
    p.Ensures env t Q w := by
  induction p generalizing w with
  | ret b => exact fun w' _ => h b w'
  | ask c k ih => exact fun w' _ r s _ => ih r _

theorem Prog.Ensures.mono {Q' : β → World Op T C R β σ → Prop} (hQ : ∀ b w, Q b w → Q' b w)
    {p : Prog C R β} (h : p.Ensures env t Q w) : p.Ensures env t Q' w := by
  induction p generalizing w with
  | ret b => exact fun w' ho => hQ _ _ (h w' ho)
  | ask c k ih => exact fun w' ho r s hr => ih r (h w' ho r s hr)

/-- The promise outlasts what the others do. -/
theorem Prog.Ensures.others {p : Prog C R β} (h : p.Ensures env t Q w)
    (ho : w.Others env t w') : p.Ensures env t Q w' := by
  cases p with
  | ret b => exact fun w'' ho' => h w'' (ho.trans ho')
  | ask c k => exact fun w'' ho' => h w'' (ho.trans ho')

/-- The threads, with what is left to do of the operations they are in. -/
structure Pool (Op T C R β σ : Type) extends World Op T C R β σ where
  running : T → Option (Op × Prog C R β)

/-- Nobody is in an operation, and nothing was done. -/
def Pool.idle (s : σ) : Pool Op T C R β σ := ⟨⟨s, []⟩, fun _ => none⟩

variable [DecidableEq T] {body : Op → Prog C R β} {P P' : Pool Op T C R β σ}

/-- One thread acts. -/
inductive Pool.Step (body : Op → Prog C R β) (env : T → σ → C → R → σ → Prop)
    (P : Pool Op T C R β σ) : Pool Op T C R β σ → Prop
  | enter {t op} (h : P.running t = none) :
      Step body env P ⟨⟨P.shared, P.log ++ [(t, .enter op)]⟩,
        Function.update P.running t (some (op, body op))⟩
  | ask {t op c k r s} (h : P.running t = some (op, .ask c k)) (hr : env t P.shared c r s) :
      Step body env P ⟨⟨s, P.log ++ [(t, .ask c r)]⟩,
        Function.update P.running t (some (op, k r))⟩
  | leave {t op b} (h : P.running t = some (op, .ret b)) :
      Step body env P ⟨⟨P.shared, P.log ++ [(t, .leave op b)]⟩,
        Function.update P.running t none⟩

/-- Any number of acts, in any order. -/
def Pool.Reaches (body : Op → Prog C R β) (env : T → σ → C → R → σ → Prop) :
    Pool Op T C R β σ → Pool Op T C R β σ → Prop :=
  Relation.ReflTransGen (Pool.Step body env)

/-- An act of the threads is an act in their world. -/
theorem Pool.Step.world (h : P.Step body env P') :
    ∃ t a, P.toWorld.Step env t a P'.toWorld := by
  cases h with
  | enter h => exact ⟨_, _, .enter _⟩
  | ask h hr => exact ⟨_, _, .ask hr⟩
  | leave h => exact ⟨_, _, .leave _ _⟩

/-- What every act preserves holds wherever the threads get to. -/
theorem Pool.Reaches.inv {I : World Op T C R β σ → Prop} {s : σ} (h0 : I ⟨s, []⟩)
    (hstep : ∀ w t a w', w.Step env t a w' → I w → I w')
    (h : (Pool.idle s).Reaches body env P) : I P.toWorld := by
  induction h with
  | refl => exact h0
  | tail _ hlast ih =>
    obtain ⟨t, a, ha⟩ := hlast.world
    exact hstep _ _ _ _ ha ih

/-- A promise made wherever an operation is entered is kept until it returns. -/
theorem Pool.Reaches.ensures {I : World Op T C R β σ → Prop}
    {Q : T → Op → β → World Op T C R β σ → Prop} {s : σ} (h0 : I ⟨s, []⟩)
    (hstep : ∀ w t a w', w.Step env t a w' → I w → I w')
    (hbody : ∀ t op w, I w → (body op).Ensures env t (Q t op) w)
    (h : (Pool.idle s).Reaches body env P) :
    ∀ t op p, P.running t = some (op, p) → p.Ensures env t (Q t op) P.toWorld := by
  -- a thread keeps its own promise by definition, and those of the others by `others`
  have hother : ∀ {P P' : Pool Op T C R β σ} {t₁ : T} {a : Act Op C R β}
      {x : Option (Op × Prog C R β)},
      (∀ t op p, P.running t = some (op, p) → p.Ensures env t (Q t op) P.toWorld) →
      P.toWorld.Step env t₁ a P'.toWorld → P'.running = Function.update P.running t₁ x →
      (∀ op p, x = some (op, p) → p.Ensures env t₁ (Q t₁ op) P'.toWorld) →
      ∀ t op p, P'.running t = some (op, p) → p.Ensures env t (Q t op) P'.toWorld := by
    intro P P' t₁ a x ih hstep hrun hown t op p hp
    rw [hrun] at hp
    by_cases ht : t = t₁
    · subst ht
      rw [Function.update_self] at hp
      exact hown op p hp
    · rw [Function.update_of_ne ht] at hp
      exact (ih t op p hp).others (.single ⟨t₁, a, Ne.symm ht, hstep⟩)
  induction h with
  | refl =>
    intro t op p hp
    simp [Pool.idle] at hp
  | tail hreach hlast ih =>
    cases hlast with
    | @enter t op hidle =>
      have hI := hstep _ _ _ _ (.enter (t := t) op) (Pool.Reaches.inv h0 hstep hreach)
      refine hother ih (.enter _) rfl ?_
      intro op p hp
      obtain ⟨rfl, rfl⟩ := Prod.mk.inj (Option.some_inj.mp hp)
      exact hbody _ _ _ hI
    | ask hask hr =>
      refine hother ih (.ask hr) rfl ?_
      intro op p hp
      obtain ⟨rfl, rfl⟩ := Prod.mk.inj (Option.some_inj.mp hp)
      exact Prog.ensures_ask.mp (ih _ _ _ hask) _ .refl _ _ hr
    | leave hret =>
      refine hother ih (.leave _ _) rfl ?_
      intro op p hp
      simp at hp

/-- When an operation returns, what it promised holds. -/
theorem Pool.Reaches.returns {I : World Op T C R β σ → Prop}
    {Q : T → Op → β → World Op T C R β σ → Prop} {s : σ} (h0 : I ⟨s, []⟩)
    (hstep : ∀ w t a w', w.Step env t a w' → I w → I w')
    (hbody : ∀ t op w, I w → (body op).Ensures env t (Q t op) w)
    (h : (Pool.idle s).Reaches body env P) {t : T} {op : Op} {b : β}
    (hret : P.running t = some (op, .ret b)) : Q t op b P.toWorld :=
  Prog.ensures_ret.mp (h.ensures h0 hstep hbody t op _ hret) _ .refl

/-- The next act of thread `t`, against an environment that answers by a function; an idle
thread enters `op`. -/
def Pool.next (body : Op → Prog C R β) (answer : T → σ → C → R × σ)
    (P : Pool Op T C R β σ) (t : T) (op : Op) : Pool Op T C R β σ :=
  match P.running t with
  | none => ⟨⟨P.shared, P.log ++ [(t, .enter op)]⟩,
      Function.update P.running t (some (op, body op))⟩
  | some (op, .ask c k) =>
      let (r, s) := answer t P.shared c
      ⟨⟨s, P.log ++ [(t, .ask c r)]⟩, Function.update P.running t (some (op, k r))⟩
  | some (op, .ret b) => ⟨⟨P.shared, P.log ++ [(t, .leave op b)]⟩,
      Function.update P.running t none⟩

/-- Let threads act in a given order. -/
def Pool.play (body : Op → Prog C R β) (answer : T → σ → C → R × σ) :
    List (T × Op) → Pool Op T C R β σ → Pool Op T C R β σ
  | [], P => P
  | (t, op) :: schedule, P => Pool.play body answer schedule (P.next body answer t op)

theorem Pool.next_step {answer : T → σ → C → R × σ}
    (henv : ∀ t s c, env t s c (answer t s c).1 (answer t s c).2) (P : Pool Op T C R β σ)
    (t : T) (op : Op) : P.Step body env (P.next body answer t op) := by
  unfold Pool.next
  split
  · next h => exact .enter h
  · next h => exact .ask h (henv _ _ _)
  · next h => exact .leave h

theorem Pool.play_reaches {answer : T → σ → C → R × σ}
    (henv : ∀ t s c, env t s c (answer t s c).1 (answer t s c).2) :
    ∀ (schedule : List (T × Op)) (P : Pool Op T C R β σ),
      P.Reaches body env (Pool.play body answer schedule P)
  | [], _ => .refl
  | (t, op) :: schedule, P =>
      (Relation.ReflTransGen.single (Pool.next_step henv P t op)).trans
        (Pool.play_reaches henv schedule _)

end NativeLib.Interaction
