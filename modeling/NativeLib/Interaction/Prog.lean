import Mathlib.Tactic.Common

/-! Programs that ask an environment they do not control. A program is a finite tree of
commands; an environment is a relation between its state, a command, the answer it gives
and its next state. The trace of a run lists every command with its answer, in order. -/

namespace NativeLib.Interaction

variable {C R α β γ ι σ : Type}

/-- Either the program ends with a result, or it asks `c` and goes on with the answer. -/
inductive Prog (C R α : Type) where
  | ret (a : α)
  | ask (c : C) (k : R → Prog C R α)

/-- The commands of a run with the answers they got. -/
abbrev Trace (C R : Type) := List (C × R)

namespace Prog

/-- Ask one command and return its answer. -/
def call (c : C) : Prog C R R := .ask c .ret

protected def bind : Prog C R α → (α → Prog C R β) → Prog C R β
  | ret a, f => f a
  | ask c k, f => ask c fun r => (k r).bind f

instance : Monad (Prog C R) where
  pure := Prog.ret
  bind := Prog.bind

@[simp] theorem pure_eq_ret (a : α) : (pure a : Prog C R α) = .ret a := rfl

@[simp] theorem ask_bind (c : C) (k : R → Prog C R α) (f : α → Prog C R β) :
    (Prog.ask c k >>= f) = .ask c fun r => k r >>= f := rfl

@[simp] theorem call_bind (c : C) (f : R → Prog C R β) : (Prog.call c >>= f) = .ask c f := rfl

/-- A complete run: from environment state `s`, with trace `tr`, to a result and a state. -/
def Exec (env : σ → C → R → σ → Prop) :
    Prog C R α → σ → Trace C R → α → σ → Prop
  | ret a, s, tr, b, t => tr = [] ∧ b = a ∧ t = s
  | ask c k, s, tr, b, t =>
      ∃ r u tr', tr = (c, r) :: tr' ∧ env s c r u ∧ (k r).Exec env u tr' b t

variable {env : σ → C → R → σ → Prop}

@[simp] theorem exec_ret {a b : α} {s t : σ} {tr : Trace C R} :
    (Prog.ret a : Prog C R α).Exec env s tr b t ↔ tr = [] ∧ b = a ∧ t = s := Iff.rfl

@[simp] theorem exec_ask {c : C} {k : R → Prog C R α} {b : α} {s t : σ} {tr : Trace C R} :
    (Prog.ask c k).Exec env s tr b t ↔
      ∃ r u tr', tr = (c, r) :: tr' ∧ env s c r u ∧ (k r).Exec env u tr' b t := Iff.rfl

/-- Where a pair is returned, its parts are. -/
theorem exec_pure_pair {a a' : α} {b b' : β} {s t : σ} {tr : Trace C R} :
    (pure (a, b) : Prog C R (α × β)).Exec env s tr (a', b') t ↔
      tr = [] ∧ (a' = a ∧ b' = b) ∧ t = s := by
  rw [pure_eq_ret, exec_ret, Prod.mk.injEq]

theorem exec_call_bind {c : C} {f : R → Prog C R α} {b : α} {s t : σ} {tr : Trace C R} :
    (call c >>= f).Exec env s tr b t ↔
      ∃ r u tr', tr = (c, r) :: tr' ∧ env s c r u ∧ (f r).Exec env u tr' b t := Iff.rfl

/-- A run of a sequence is a run of its first half followed by one of its second. -/
theorem exec_bind {p : Prog C R α} {f : α → Prog C R β} {b : β} {s t : σ} {tr : Trace C R} :
    (p >>= f).Exec env s tr b t ↔
      ∃ a u tr₁ tr₂, tr = tr₁ ++ tr₂ ∧ p.Exec env s tr₁ a u ∧ (f a).Exec env u tr₂ b t := by
  induction p generalizing s tr with
  | ret a =>
    refine ⟨?_, ?_⟩
    · intro h
      exact ⟨a, s, [], tr, rfl, ⟨rfl, rfl, rfl⟩, h⟩
    · rintro ⟨_, _, _, tr₂, rfl, ⟨rfl, rfl, rfl⟩, h⟩
      exact h
  | ask c k ih =>
    simp only [ask_bind, exec_ask, ih]
    refine ⟨?_, ?_⟩
    · rintro ⟨r, u, _, rfl, hr, a, v, tr₁, tr₂, rfl, h₁, h₂⟩
      exact ⟨a, v, (c, r) :: tr₁, tr₂, rfl, ⟨r, u, tr₁, rfl, hr, h₁⟩, h₂⟩
    · rintro ⟨a, v, _, tr₂, rfl, ⟨r, u, tr₁, rfl, hr, h₁⟩, h₂⟩
      exact ⟨r, u, tr₁ ++ tr₂, rfl, hr, a, v, tr₁, tr₂, rfl, h₁, h₂⟩

/-- An environment that allows more answers has more runs. -/
theorem Exec.mono {σ' : Type} {env' : σ' → C → R → σ' → Prop} (f : σ → σ')
    (henv : ∀ s c r t, env s c r t → env' (f s) c r (f t)) {p : Prog C R α} {s t : σ}
    {tr : Trace C R} {a : α} (h : p.Exec env s tr a t) : p.Exec env' (f s) tr a (f t) := by
  induction p generalizing s tr with
  | ret b => exact ⟨h.1, h.2.1, congrArg f h.2.2⟩
  | ask c k ih =>
    obtain ⟨r, u, tr', rfl, hr, hk⟩ := h
    exact ⟨r, f u, tr', rfl, henv _ _ _ _ hr, ih r hk⟩

/-- What every answer of the environment has, every answer of a run has. -/
theorem Exec.forall_trace {P : C → R → Prop} (henv : ∀ s c r t, env s c r t → P c r)
    {p : Prog C R α} {s t : σ} {tr : Trace C R} {a : α} (h : p.Exec env s tr a t) :
    ∀ x ∈ tr, P x.1 x.2 := by
  induction p generalizing s tr with
  | ret b => simp [h.1]
  | ask c k ih =>
    obtain ⟨r, u, tr', rfl, hr, hk⟩ := h
    exact List.forall_mem_cons.mpr ⟨henv _ _ _ _ hr, ih r hk⟩

/-- What every step of the environment preserves, a run preserves. -/
theorem Exec.inv {I : σ → Prop} (henv : ∀ s c r t, env s c r t → I s → I t)
    {p : Prog C R α} {s t : σ} {tr : Trace C R} {a : α} (h : p.Exec env s tr a t)
    (hs : I s) : I t := by
  induction p generalizing s tr with
  | ret b => rwa [h.2.2]
  | ask c k ih =>
    obtain ⟨r, u, tr', rfl, hr, hk⟩ := h
    exact ih r hk (henv _ _ _ _ hr hs)

/-- What one answer of a run brings about and every later step preserves holds in the end. -/
theorem Exec.inv_from {I : σ → Prop} {x : C × R} (hx : ∀ s t, env s x.1 x.2 t → I t)
    (henv : ∀ s c r t, env s c r t → I s → I t) {p : Prog C R α} {s t : σ} {tr : Trace C R}
    {a : α} (h : p.Exec env s tr a t) (hmem : x ∈ tr) : I t := by
  induction p generalizing s tr with
  | ret b => simp [h.1] at hmem
  | ask c k ih =>
    obtain ⟨r, u, tr', rfl, hr, hk⟩ := h
    rcases List.mem_cons.mp hmem with rfl | hmem
    · exact hk.inv henv (hx _ _ hr)
    · exact ih r hk hmem

/-- Whatever it is answered, the program asks only commands of `P`. -/
def Asks (P : C → Prop) : Prog C R α → Prop
  | ret _ => True
  | ask c k => P c ∧ ∀ r, (k r).Asks P

variable {P : C → Prop}

theorem asks_call_bind {c : C} {f : R → Prog C R α} :
    (call c >>= f).Asks P ↔ P c ∧ ∀ r, (f r).Asks P := Iff.rfl

theorem Asks.mono {P' : C → Prop} (hP : ∀ c, P c → P' c) {p : Prog C R α} (h : p.Asks P) :
    p.Asks P' := by
  induction p with
  | ret a => trivial
  | ask c k ih => exact ⟨hP c h.1, fun r => ih r (h.2 r)⟩

theorem Asks.bind {p : Prog C R α} {f : α → Prog C R β} (h : p.Asks P)
    (hf : ∀ a, (f a).Asks P) : (p >>= f).Asks P := by
  induction p with
  | ret a => exact hf a
  | ask c k ih => exact ⟨h.1, fun r => ih r (h.2 r)⟩

theorem Asks.ite {c : Prop} [Decidable c] {p q : Prog C R α} (hp : p.Asks P) (hq : q.Asks P) :
    (if c then p else q).Asks P := by
  split_ifs
  · exact hp
  · exact hq

theorem Exec.asks {p : Prog C R α} {s t : σ} {tr : Trace C R} {a : α}
    (h : p.Exec env s tr a t) (hp : p.Asks P) : ∀ x ∈ tr, P x.1 := by
  induction p generalizing s tr with
  | ret b => simp [h.1]
  | ask c k ih =>
    obtain ⟨r, u, tr', rfl, -, hk⟩ := h
    exact List.forall_mem_cons.mpr ⟨hp.1, ih r hk (hp.2 r)⟩

/-- Whatever it is answered, the program ends with a result of `Q`. -/
def Yields (Q : α → Prop) : Prog C R α → Prop
  | ret a => Q a
  | ask _ k => ∀ r, (k r).Yields Q

theorem Yields.bind {Q : β → Prop} (p : Prog C R α) {f : α → Prog C R β}
    (hf : ∀ a, (f a).Yields Q) : (p >>= f).Yields Q := by
  induction p with
  | ret a => exact hf a
  | ask c k ih => exact fun r => ih r

theorem Yields.ite {Q : α → Prop} {c : Prop} [Decidable c] {p q : Prog C R α} (hp : p.Yields Q)
    (hq : q.Yields Q) : (if c then p else q).Yields Q := by
  split_ifs
  · exact hp
  · exact hq

theorem Exec.yields {Q : α → Prop} {p : Prog C R α} {s t : σ} {tr : Trace C R} {a : α}
    (h : p.Exec env s tr a t) (hp : p.Yields Q) : Q a := by
  induction p generalizing s tr with
  | ret b =>
    rw [h.2.1]
    exact hp
  | ask c k ih =>
    obtain ⟨r, u, tr', -, -, hk⟩ := h
    exact ih r hk (hp r)

/-- The same program, which asks through `f` and reads the answers through `g`. -/
def embed {C' R' : Type} (f : C → C') (g : R' → R) : Prog C R α → Prog C' R' α
  | ret a => .ret a
  | ask c k => .ask (f c) fun r => (k (g r)).embed f g

@[simp] theorem embed_ask {C' R' : Type} (f : C → C') (g : R' → R) (c : C)
    (k : R → Prog C R α) :
    (Prog.ask c k).embed f g = .ask (f c) fun r => (k (g r)).embed f g := rfl

theorem embed_bind {C' R' : Type} (f : C → C') (g : R' → R) (p : Prog C R α)
    (q : α → Prog C R β) : (p >>= q).embed f g = p.embed f g >>= fun a => (q a).embed f g := by
  induction p with
  | ret a => rfl
  | ask c k ih => simp only [ask_bind, embed_ask, ih]

/-- Where every step moves what is observed by its command alone, a run moves it by its
commands. -/
theorem Exec.observe {ω : Type} (obs : σ → ω) (next : ω → C → ω)
    (henv : ∀ s c r t, env s c r t → obs t = next (obs s) c) {p : Prog C R α} {s t : σ}
    {tr : Trace C R} {a : α} (h : p.Exec env s tr a t) :
    obs t = (tr.map Prod.fst).foldl next (obs s) := by
  induction p generalizing s tr with
  | ret b =>
    obtain ⟨rfl, -, rfl⟩ := h
    rfl
  | ask c k ih =>
    obtain ⟨r, u, tr', rfl, hr, hk⟩ := h
    rw [ih r hk, henv _ _ _ _ hr, List.map_cons, List.foldl_cons]

/-- The program has a complete run from `s`. -/
def Runs (env : σ → C → R → σ → Prop) (p : Prog C R α) (s : σ) : Prop :=
  ∃ tr a t, p.Exec env s tr a t

theorem Runs.ret (a : α) (s : σ) : (Prog.ret a : Prog C R α).Runs env s :=
  ⟨[], a, s, rfl, rfl, rfl⟩

theorem Runs.ask {c : C} {r : R} {k : R → Prog C R α} {s t : σ} (h : env s c r t)
    (hk : (k r).Runs env t) : (Prog.ask c k).Runs env s := by
  obtain ⟨tr, a, u, hk⟩ := hk
  exact ⟨(c, r) :: tr, a, u, r, t, tr, rfl, h, hk⟩

/-- Where every command is answered, every program runs to its end. -/
theorem Runs.of_answers (henv : ∀ s c, ∃ r t, env s c r t) (p : Prog C R α) (s : σ) :
    p.Runs env s := by
  induction p generalizing s with
  | ret a => exact Runs.ret a s
  | ask c k ih =>
    obtain ⟨r, t, h⟩ := henv s c
    exact Runs.ask h (ih r t)

theorem Runs.call_bind {c : C} {r : R} {f : R → Prog C R α} {s t : σ} (h : env s c r t)
    (hf : (f r).Runs env t) : (call c >>= f).Runs env s := Runs.ask h hf

theorem Runs.bind {p : Prog C R α} {f : α → Prog C R β} {s : σ} (h : p.Runs env s)
    (hf : ∀ a t, (f a).Runs env t) : (p >>= f).Runs env s := by
  obtain ⟨tr₁, a, u, h₁⟩ := h
  obtain ⟨tr₂, b, t, h₂⟩ := hf a u
  exact ⟨tr₁ ++ tr₂, b, t, exec_bind.mpr ⟨a, u, tr₁, tr₂, rfl, h₁, h₂⟩⟩

/-- Run against an environment that answers by a function. -/
def runWith (h : σ → C → R × σ) : Prog C R α → σ → Trace C R × α × σ
  | ret a, s => ([], a, s)
  | ask c k, s =>
      let (tr, a, t) := (k (h s c).1).runWith h (h s c).2
      ((c, (h s c).1) :: tr, a, t)

@[simp] theorem runWith_ret (h : σ → C → R × σ) (a : α) (s : σ) :
    (Prog.ret a : Prog C R α).runWith h s = ([], a, s) := rfl

theorem runWith_bind (h : σ → C → R × σ) (p : Prog C R α) (f : α → Prog C R β) (s : σ) :
    ((p >>= f).runWith h s).2 =
      ((f (p.runWith h s).2.1).runWith h (p.runWith h s).2.2).2 := by
  induction p generalizing s with
  | ret a => rfl
  | ask c k ih => exact ih _ _

theorem runWith_exec {h : σ → C → R × σ} (henv : ∀ s c, env s c (h s c).1 (h s c).2)
    (p : Prog C R α) (s : σ) :
    p.Exec env s (p.runWith h s).1 (p.runWith h s).2.1 (p.runWith h s).2.2 := by
  induction p generalizing s with
  | ret a => exact ⟨rfl, rfl, rfl⟩
  | ask c k ih => exact ⟨_, _, _, rfl, henv s c, ih _ _⟩

theorem runWith_asks (h : σ → C → R × σ) {p : Prog C R α} (hp : p.Asks P) (s : σ) :
    ∀ c ∈ (p.runWith h s).1.map Prod.fst, P c := by
  have hrun : p.Exec (fun s c r t => h s c = (r, t)) s (p.runWith h s).1 (p.runWith h s).2.1
      (p.runWith h s).2.2 := runWith_exec (fun _ _ => rfl) p s
  exact List.forall_mem_map.mpr (hrun.asks hp)

theorem runWith_yields {Q : α → Prop} (h : σ → C → R × σ) {p : Prog C R α} (hp : p.Yields Q)
    (s : σ) : Q (p.runWith h s).2.1 :=
  (runWith_exec (fun _ _ => rfl) p s : p.Exec (fun s c r t => h s c = (r, t)) s _ _ _).yields hp

/-- `for (x : xs) f x`. -/
def forEach (f : ι → Prog C R Unit) : List ι → Prog C R Unit
  | [] => .ret ()
  | x :: xs => do
    f x
    forEach f xs

theorem Asks.forEach {f : ι → Prog C R Unit} (hf : ∀ x, (f x).Asks P) :
    ∀ xs : List ι, (Prog.forEach f xs).Asks P
  | [] => trivial
  | x :: xs => (hf x).bind fun _ => Asks.forEach hf xs

theorem forEach_map (f : ι → Prog C R Unit) (g : α → ι) :
    ∀ xs : List α, forEach f (xs.map g) = forEach (fun x => f (g x)) xs
  | [] => rfl
  | x :: xs => by rw [List.map_cons, forEach, forEach, forEach_map f g xs]

theorem embed_forEach {C' R' : Type} (f : C → C') (g : R' → R) (q : ι → Prog C R Unit) :
    ∀ xs : List ι, (forEach q xs).embed f g = forEach (fun x => (q x).embed f g) xs
  | [] => rfl
  | x :: xs => by rw [forEach, forEach, embed_bind, embed_forEach f g q xs]

/-- A loop that asks one command for each element asks these, whatever it is answered. -/
theorem exec_forEach_call {f : ι → C} {xs : List ι} {s t : σ} {tr : Trace C R} {u : Unit}
    (h : (forEach (fun x => call (f x) >>= fun _ => pure ()) xs).Exec env s tr u t) :
    tr.map Prod.fst = xs.map f := by
  induction xs generalizing s tr with
  | nil => simp [h.1]
  | cons x xs ih =>
    obtain ⟨r, v, tr', rfl, -, h⟩ := h
    rw [List.map_cons, List.map_cons, ih h]

/-- A run of the loop is made up of a run of its body for every element. -/
theorem exec_forEach_parts {f : ι → Prog C R Unit} {xs : List ι} {s t : σ} {tr : Trace C R}
    {u : Unit} (h : (forEach f xs).Exec env s tr u t) :
    ∃ parts : List (ι × Trace C R), parts.map Prod.fst = xs ∧
      tr = (parts.map Prod.snd).flatten ∧
      ∀ p ∈ parts, ∃ s' t', (f p.1).Exec env s' p.2 () t' := by
  induction xs generalizing s tr with
  | nil => exact ⟨[], rfl, h.1, fun _ hp => absurd hp List.not_mem_nil⟩
  | cons x xs ih =>
    obtain ⟨_, v, tr₁, tr₂, rfl, h₁, h₂⟩ := exec_bind.mp h
    obtain ⟨parts, rfl, rfl, hparts⟩ := ih h₂
    exact ⟨(x, tr₁) :: parts, rfl, rfl, List.forall_mem_cons.mpr ⟨⟨s, v, h₁⟩, hparts⟩⟩

end Prog

end NativeLib.Interaction
