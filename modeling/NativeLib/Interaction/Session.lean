import Mathlib.Data.List.Induction
import NativeLib.Interaction.Logic

/-! Sessions: a component with its own state is asked one operation after another, in any
order and number, and each operation is a program that asks the environment. An event
records an operation with the two states around it, its commands and its result. -/

namespace NativeLib.Interaction

variable {Op C R β σ ε : Type}

/-- One operation of a session. `pre` and `post` pair the state of the component with that
of the environment. -/
structure Event (Op C R β σ ε : Type) where
  op : Op
  pre : σ × ε
  trace : Trace C R
  result : β
  post : σ × ε

/-- What the commands of a session were, in order. -/
def calls (evs : List (Event Op C R β σ ε)) : Trace C R := evs.flatMap Event.trace

@[simp] theorem calls_nil : calls ([] : List (Event Op C R β σ ε)) = [] := rfl

@[simp] theorem calls_append (evs evs' : List (Event Op C R β σ ε)) :
    calls (evs ++ evs') = calls evs ++ calls evs' := List.flatMap_append

@[simp] theorem calls_singleton (ev : Event Op C R β σ ε) : calls [ev] = ev.trace := by
  simp [calls]

/-- The operation of the event, run from `pre`, can take this course. -/
def Event.Fires (body : Op → σ → Prog C R (β × σ)) (env : ε → C → R → ε → Prop)
    (ev : Event Op C R β σ ε) : Prop :=
  (body ev.op ev.pre.1).Exec env ev.pre.2 ev.trace (ev.result, ev.post.1) ev.post.2

/-- The session `evs` leads from the first pair of states to the second. -/
inductive Session (body : Op → σ → Prog C R (β × σ)) (env : ε → C → R → ε → Prop)
    (c : σ × ε) : List (Event Op C R β σ ε) → σ × ε → Prop
  | nil : Session body env c [] c
  | snoc {evs ev} : Session body env c evs ev.pre → ev.Fires body env →
      Session body env c (evs ++ [ev]) ev.post

namespace Session

variable {body : Op → σ → Prog C R (β × σ)} {env : ε → C → R → ε → Prop}
  {c d e : σ × ε} {evs evs' : List (Event Op C R β σ ε)}

theorem single {ev : Event Op C R β σ ε} (h : ev.Fires body env) :
    Session body env ev.pre [ev] ev.post := by
  rw [← List.nil_append [ev]]
  exact .snoc .nil h

theorem append (h : Session body env c evs d) (h' : Session body env d evs' e) :
    Session body env c (evs ++ evs') e := by
  induction h' with
  | nil => simpa using h
  | snoc _ hev ih =>
    rw [← List.append_assoc]
    exact .snoc ih hev

theorem snoc_inv {ev : Event Op C R β σ ε} (h : Session body env c (evs ++ [ev]) d) :
    Session body env c evs ev.pre ∧ ev.Fires body env ∧ d = ev.post := by
  generalize hl : evs ++ [ev] = l at h
  cases h with
  | nil => simp at hl
  | snoc hs hev =>
    obtain ⟨rfl, hlast⟩ := List.append_inj' hl rfl
    obtain rfl := List.singleton_inj.mp hlast
    exact ⟨hs, hev, rfl⟩

/-- A session can be cut anywhere. -/
theorem split (evs evs' : List (Event Op C R β σ ε)) :
    Session body env c (evs ++ evs') d →
      ∃ m, Session body env c evs m ∧ Session body env m evs' d := by
  induction evs' using List.reverseRecOn generalizing d with
  | nil => exact fun h => ⟨d, by simpa using h, .nil⟩
  | append_singleton evs' ev ih =>
    intro h
    rw [← List.append_assoc] at h
    obtain ⟨hs, hev, rfl⟩ := snoc_inv h
    obtain ⟨m, h₁, h₂⟩ := ih hs
    exact ⟨m, h₁, .snoc h₂ hev⟩

/-- Around any event of a session: a session before it, and the event itself. -/
theorem at_event {pre post : List (Event Op C R β σ ε)} {ev : Event Op C R β σ ε}
    (h : Session body env c (pre ++ ev :: post) d) :
    Session body env c pre ev.pre ∧ ev.Fires body env := by
  rw [List.append_cons] at h
  obtain ⟨m, h₁, _⟩ := split _ _ h
  exact ⟨(snoc_inv h₁).1, (snoc_inv h₁).2.1⟩

/-- What every operation preserves holds wherever a session leads. -/
theorem inv {I : σ × ε → Prop} (h0 : I c)
    (hstep : ∀ ev : Event Op C R β σ ε, ev.Fires body env → I ev.pre → I ev.post)
    (h : Session body env c evs d) : I d := by
  induction h with
  | nil => exact h0
  | snoc _ hev ih => exact hstep _ hev ih

/-- The same for a fact about the whole session so far. -/
theorem inv_history {I : List (Event Op C R β σ ε) → σ × ε → Prop} (h0 : I [] c)
    (hstep : ∀ evs ev, Session body env c evs ev.pre → ev.Fires body env → I evs ev.pre →
      I (evs ++ [ev]) ev.post)
    (h : Session body env c evs d) : I evs d := by
  induction h with
  | nil => exact h0
  | snoc hs hev ih => exact hstep _ _ hs hev ih

/-- `P` holds after every operation exactly when every operation is `good`: `I` carries the
induction, and from a state with `I` a step that is not `good` loses `P` at once. -/
theorem forall_post_iff {I P : σ × ε → Prop} {good : Event Op C R β σ ε → Prop}
    (h0 : I c) (hIP : ∀ x, I x → P x)
    (hgood : ∀ ev, ev.Fires body env → I ev.pre → good ev → I ev.post)
    (hbad : ∀ ev, ev.Fires body env → I ev.pre → P ev.post → good ev)
    (h : Session body env c evs d) :
    (∀ ev ∈ evs, P ev.post) ↔ ∀ ev ∈ evs, good ev := by
  have key : ((∀ ev ∈ evs, P ev.post) ↔ ∀ ev ∈ evs, good ev) ∧
      ((∀ ev ∈ evs, good ev) → I d) := by
    induction h with
    | nil => exact ⟨by simp, fun _ => h0⟩
    | @snoc evs ev _ hev ih =>
      simp only [List.forall_mem_append, List.forall_mem_singleton]
      refine ⟨⟨?_, ?_⟩, fun hg => hgood ev hev (ih.2 hg.1) hg.2⟩
      · rintro ⟨hP, hp⟩
        have hg := ih.1.mp hP
        exact ⟨hg, hbad ev hev (ih.2 hg) hp⟩
      · rintro ⟨hg, hge⟩
        exact ⟨ih.1.mpr hg, hIP _ (hgood ev hev (ih.2 hg) hge)⟩
  exact key.1

/-- Play operations against an environment that answers by a function. -/
def play (body : Op → σ → Prog C R (β × σ)) (h : ε → C → R × ε) :
    List Op → σ × ε → List (Event Op C R β σ ε)
  | [], _ => []
  | op :: ops, (s, e) =>
      let r := (body op s).runWith h e
      ⟨op, (s, e), r.1, r.2.1.1, (r.2.1.2, r.2.2)⟩ :: play body h ops (r.2.1.2, r.2.2)

theorem play_session (body : Op → σ → Prog C R (β × σ)) {h : ε → C → R × ε}
    (env : ε → C → R → ε → Prop) (henv : ∀ e c, env e c (h e c).1 (h e c).2) :
    ∀ (ops : List Op) (c : σ × ε), ∃ d, Session body env c (play body h ops c) d
  | [], c => ⟨c, .nil⟩
  | op :: ops, (s, e) => by
    set r := (body op s).runWith h e with hr
    obtain ⟨d, hd⟩ := play_session body env henv ops (r.2.1.2, r.2.2)
    have hev : Event.Fires body env ⟨op, (s, e), r.1, r.2.1.1, (r.2.1.2, r.2.2)⟩ :=
      Prog.runWith_exec henv (body op s) e
    exact ⟨d, append (single hev) hd⟩

end Session

end NativeLib.Interaction
