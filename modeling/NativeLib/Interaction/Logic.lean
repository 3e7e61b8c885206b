import NativeLib.Interaction.Prog

/-! Preconditions for programs that ask an environment. The program answers for the
commands of `must`: wherever it asks one, the environment has to be able to go on. For the
others the environment answers for itself, and a run that it does not continue is no run. -/

namespace NativeLib.Interaction.Prog

variable {C R α β ι σ : Type} {env : σ → C → R → σ → Prop} {must : C → Prop}

/-- No run gets stuck on a command of `must`, and every complete run ends in `Q`. -/
def wp (env : σ → C → R → σ → Prop) (must : C → Prop) :
    Prog C R α → σ → (Trace C R → α → σ → Prop) → Prop
  | ret a, s, Q => Q [] a s
  | ask c k, s, Q =>
      (must c → ∃ r t, env s c r t) ∧
        ∀ r t, env s c r t → (k r).wp env must t fun tr a u => Q ((c, r) :: tr) a u

/-- No run gets stuck on a command of `must`. -/
def Safe (env : σ → C → R → σ → Prop) (must : C → Prop) : Prog C R α → σ → Prop
  | ret _, _ => True
  | ask c k, s =>
      (must c → ∃ r t, env s c r t) ∧ ∀ r t, env s c r t → (k r).Safe env must t

@[simp] theorem wp_ret {a : α} {s : σ} {Q : Trace C R → α → σ → Prop} :
    (Prog.ret a : Prog C R α).wp env must s Q ↔ Q [] a s := Iff.rfl

@[simp] theorem wp_ask {c : C} {k : R → Prog C R α} {s : σ} {Q : Trace C R → α → σ → Prop} :
    (Prog.ask c k).wp env must s Q ↔
      (must c → ∃ r t, env s c r t) ∧
        ∀ r t, env s c r t → (k r).wp env must t fun tr a u => Q ((c, r) :: tr) a u := Iff.rfl

/-- The precondition says exactly what it is meant to say. -/
theorem wp_iff {p : Prog C R α} {s : σ} {Q : Trace C R → α → σ → Prop} :
    p.wp env must s Q ↔ p.Safe env must s ∧ ∀ tr a t, p.Exec env s tr a t → Q tr a t := by
  induction p generalizing s Q with
  | ret a =>
    refine ⟨fun h => ⟨trivial, ?_⟩, fun h => h.2 _ _ _ ⟨rfl, rfl, rfl⟩⟩
    rintro tr b t ⟨rfl, rfl, rfl⟩
    exact h
  | ask c k ih =>
    simp only [wp_ask, ih, Safe]
    refine ⟨?_, ?_⟩
    · rintro ⟨hgo, h⟩
      refine ⟨⟨hgo, fun r t hr => (h r t hr).1⟩, ?_⟩
      rintro _ a u ⟨r, t, tr, rfl, hr, hk⟩
      exact (h r t hr).2 tr a u hk
    · rintro ⟨⟨hgo, hsafe⟩, h⟩
      exact ⟨hgo, fun r t hr => ⟨hsafe r t hr, fun tr a u hk =>
        h _ a u ⟨r, t, tr, rfl, hr, hk⟩⟩⟩

theorem wp_exec {p : Prog C R α} {s t : σ} {tr : Trace C R} {a : α}
    {Q : Trace C R → α → σ → Prop} (h : p.wp env must s Q) (he : p.Exec env s tr a t) :
    Q tr a t := (wp_iff.mp h).2 tr a t he

theorem wp_mono {p : Prog C R α} {s : σ} {Q Q' : Trace C R → α → σ → Prop}
    (hQ : ∀ tr a t, Q tr a t → Q' tr a t) (h : p.wp env must s Q) : p.wp env must s Q' := by
  rw [wp_iff] at h ⊢
  exact ⟨h.1, fun tr a t he => hQ _ _ _ (h.2 tr a t he)⟩

/-- A run asks only what the program asks. -/
theorem wp_asks {P : C → Prop} {p : Prog C R α} {s : σ} {Q : Trace C R → α → σ → Prop}
    (hp : p.Asks P) (h : p.wp env must s Q) :
    p.wp env must s fun tr a t => (∀ x ∈ tr, P x.1) ∧ Q tr a t := by
  rw [wp_iff] at h ⊢
  exact ⟨h.1, fun tr a t he => ⟨he.asks hp, h.2 tr a t he⟩⟩

theorem wp_bind {p : Prog C R α} {f : α → Prog C R β} {s : σ}
    {Q : Trace C R → β → σ → Prop} :
    (p >>= f).wp env must s Q ↔
      p.wp env must s fun tr a t => (f a).wp env must t fun tr' b u => Q (tr ++ tr') b u := by
  induction p generalizing s Q with
  | ret a => rfl
  | ask c k ih => simp only [ask_bind, wp_ask, ih, List.cons_append]

theorem safe_bind {p : Prog C R α} {f : α → Prog C R β} {s : σ} :
    (p >>= f).Safe env must s ↔
      p.Safe env must s ∧ ∀ tr a t, p.Exec env s tr a t → (f a).Safe env must t := by
  have hsafe : ∀ (γ : Type) (q : Prog C R γ) (t : σ),
      q.Safe env must t ↔ q.wp env must t fun _ _ _ => True := by
    intro γ q t
    rw [wp_iff]
    exact ⟨fun h => ⟨h, fun _ _ _ _ => trivial⟩, fun h => h.1⟩
  simp only [hsafe, wp_bind]
  rw [wp_iff, hsafe]

/-- The loop rule: `I` relates what is done, the trace so far and the state. -/
theorem wp_forEach (f : ι → Prog C R Unit) (I : List ι → Trace C R → σ → Prop) :
    ∀ (xs done : List ι) (tr : Trace C R) (s : σ), I done tr s →
      (∀ pre x post tr s, done ++ xs = pre ++ x :: post → I pre tr s →
        (f x).wp env must s fun tr' _ t => I (pre ++ [x]) (tr ++ tr') t) →
      (forEach f xs).wp env must s fun tr' _ t => I (done ++ xs) (tr ++ tr') t
  | [], done, tr, s, h0, _ => by simpa [forEach] using h0
  | x :: xs, done, tr, s, h0, hstep => by
    rw [forEach, wp_bind]
    refine wp_mono (fun tr₁ _ t h1 => ?_) (hstep done x xs tr s rfl h0)
    have := wp_forEach f I xs (done ++ [x]) (tr ++ tr₁) t h1
      (fun pre y post tr' s' he => hstep pre y post tr' s' (by simpa using he))
    simpa [List.append_assoc] using this

end NativeLib.Interaction.Prog
