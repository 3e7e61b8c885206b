import NativeLib.Tracer.Jnitrace

/-! Tracing and the calls it is about: which hooks make the call of their caller once, with its
arguments, and return its result. -/

namespace NativeLib.Tracer

open Interaction
open Prog (Asks Yields)

variable {σ : Type} {env : σ → JniCall → JniAnswer → σ → Prop} {s t : σ}
  {tr tr' : Trace JniCall JniAnswer} {func : JniFunction} {args : List Word} {ret : Word}

/-- How many arguments the function has, `env` among them. -/
def JniFunction.arity : JniFunction → ℕ
  | .NewStringUTF | .FindClass | .FromReflectedMethod => 2
  | .GetObjectField | .GetBooleanField | .GetByteField | .GetCharField | .GetShortField
  | .GetIntField | .GetLongField | .GetFloatField | .GetDoubleField => 3
  | .GetStaticObjectField | .GetStaticBooleanField | .GetStaticByteField | .GetStaticCharField
  | .GetStaticShortField | .GetStaticIntField | .GetStaticLongField | .GetStaticFloatField
  | .GetStaticDoubleField => 3
  | .GetStringUTFChars => 3
  | .DefineClass | .SetByteArrayRegion | .GetByteArrayRegion | .GetStringRegion
  | .GetStringUTFRegion => 5
  | _ => 4

/-- The functions that copy a range. -/
def JniFunction.isRegion : JniFunction → Bool
  | .SetByteArrayRegion | .GetByteArrayRegion | .GetStringRegion | .GetStringUTFRegion => true
  | _ => false

/-- The functions without a result. -/
def JniFunction.isVoid (func : JniFunction) : Bool :=
  func.isRegion || func == .CallVoidMethodV || func == .CallStaticVoidMethodV

/-- A call with all its arguments, on a receiver or a string that is not null. -/
def Legal (func : JniFunction) (args : List Word) : Prop :=
  args.length = func.arity ∧ args[1]? ≠ some nullptr

instance (func : JniFunction) (args : List Word) : Decidable (Legal func args) :=
  inferInstanceAs (Decidable (_ ∧ _))

/-- The calls of replaced functions in a trace. -/
def origCalls (tr : Trace JniCall JniAnswer) : Trace JniCall JniAnswer :=
  tr.filter fun c => c.1.isOrig

@[simp] theorem origCalls_append : origCalls (tr ++ tr') = origCalls tr ++ origCalls tr' :=
  List.filter_append ..

/-- The hook called `func` once, with these arguments, and returned its result. -/
def Transparent (func : JniFunction) (args : List Word) (tr : Trace JniCall JniAnswer)
    (ret : Word) : Prop :=
  ∃ r, origCalls tr = [(.orig func args, r)] ∧ (func.isVoid = false → ret = r.toWord)

/-- Every complete run of the hook is transparent. -/
def Forwards (func : JniFunction) (args : List Word) (p : JniProg Word) : Prop :=
  ∀ (σ : Type) (env : σ → JniCall → JniAnswer → σ → Prop) (s t : σ)
    (tr : Trace JniCall JniAnswer) (ret : Word), p.Exec env s tr ret t →
    Transparent func args tr ret

/-- The program calls no replaced function, and its result is `ret`. -/
def Keeps (ret : Word) (p : JniProg Word) : Prop := NoOrig p ∧ p.Yields (· = ret)

theorem Keeps.bind {α : Type} {p : JniProg α} {f : α → JniProg Word} (hp : NoOrig p)
    (hf : ∀ a, Keeps ret (f a)) : Keeps ret (p >>= f) :=
  ⟨hp.bind fun a => (hf a).1, Yields.bind p fun a => (hf a).2⟩

theorem Keeps.ite {c : Prop} [Decidable c] {p q : JniProg Word} (hp : Keeps ret p)
    (hq : Keeps ret q) : Keeps ret (if c then p else q) := ⟨hp.1.ite hq.1, hp.2.ite hq.2⟩

theorem origCalls_noOrig {α : Type} {p : JniProg α} {a : α} (hp : NoOrig p)
    (h : p.Exec env s tr a t) : origCalls tr = [] :=
  List.filter_eq_nil_iff.mpr fun c hc => by simp [h.asks hp c hc]

/-- What is written before the call changes nothing about it. -/
theorem Forwards.after {α : Type} {p : JniProg α} {f : α → JniProg Word} (hp : NoOrig p)
    (hf : ∀ a, Forwards func args (f a)) : Forwards func args (p >>= f) := by
  intro σ env s t tr ret h
  obtain ⟨a, u, tr₁, tr₂, rfl, h₁, h₂⟩ := Prog.exec_bind.mp h
  obtain ⟨r, hcalls, hret⟩ := hf a _ _ _ _ _ _ h₂
  exact ⟨r, by rw [origCalls_append, origCalls_noOrig hp h₁, hcalls, List.nil_append], hret⟩

theorem Forwards.ite {c : Prop} [Decidable c] {p q : JniProg Word} (hp : Forwards func args p)
    (hq : Forwards func args q) : Forwards func args (if c then p else q) := by
  split_ifs
  · exact hp
  · exact hq

/-! What the hooks write. -/

section

variable {methodname what : String} {isStatic lister : Bool} {writeResult : Word → JniProg Unit}
  {a b c d e : Word}

end

/-- Everything is answered with zero. -/
def zero (_ : Unit) (_ : JniCall) : JniAnswer × Unit := (.word 0, ())

end NativeLib.Tracer
