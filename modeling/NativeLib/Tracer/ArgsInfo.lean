import Mathlib.Algebra.Group.Int.Defs
import Mathlib.Algebra.Group.Nat.Defs
import NativeLib.Calls.VaList
import NativeLib.Tracer.JniInfo

/-! `Jnitrace::getArgsInfo` on AArch64. The caller passes the arguments of a method by their
types; the tracer takes all of them out of the list as references. -/

namespace NativeLib.Tracer

open Interaction Calls
open Prog (call forEach)

/-- The types of parameters of a Java method. -/
inductive JniType where
  | object
  | boolean
  | byte
  | char
  | short
  | int
  | long
  | float
  | double
  deriving DecidableEq, Repr

namespace JniType

/-- Where an argument of the type is passed. -/
def regClass : JniType → RegClass
  | float => .vector
  | double => .vector
  | _ => .general

/-- The width of an argument of the type: a small integer is passed as an `int`, a `float` as a
`double`. -/
def bits : JniType → ℕ
  | boolean => 32
  | byte => 32
  | char => 32
  | short => 32
  | int => 32
  | _ => 64

/-- What a register or a slot of the stack holds of an argument of the type. -/
def value (t : JniType) (w : Word) : Word := w % 2 ^ t.bits

end JniType

variable {sig : List JniType} {va va' : VaList Word}

/-- The JVM and the list of arguments, for a method with parameters of these types. The one
method of a method that returns an `int` and is called is `getParameterCount`, and the one array
is what `getParameterTypes` returns. -/
inductive JniStep (sig : List JniType) (va : VaList Word) :
    JniCall → JniAnswer → VaList Word → Prop
  | vaArg (args : Word) :
      JniStep sig va (.vaArg args) (.word (va.fetch .general).1) (va.fetch .general).2
  | parameterCount (obj id : Ptr) :
      JniStep sig va (.env (.callIntMethod obj id)) (.word sig.length) va
  | parameterType {array : Ptr} {index : ℕ} {clazz : Ptr} (h : clazz ≠ nullptr) :
      JniStep sig va (.env (.getObjectArrayElement array index)) (.word clazz) va
  | other {c : JniCall} {r : JniAnswer} (harg : ∀ args, c ≠ .vaArg args)
      (hcount : ∀ obj id, c ≠ .env (.callIntMethod obj id))
      (htype : ∀ array index, c ≠ .env (.getObjectArrayElement array index)) :
      JniStep sig va c r va

/-- The values that a run takes out of the list, in order. -/
def takenArgs (tr : Trace JniCall JniAnswer) : List Word :=
  tr.filterMap fun x =>
    match x.1 with
    | .vaArg _ => some x.2.toWord
    | _ => none

@[simp] theorem takenArgs_append (tr tr' : Trace JniCall JniAnswer) :
    takenArgs (tr ++ tr') = takenArgs tr ++ takenArgs tr' := List.filterMap_append

/-- Only `va_arg` changes the list. -/
theorem Aside.exec {α : Type} {p : JniProg α} (hp : Aside p) {tr : Trace JniCall JniAnswer}
    {a : α} (h : p.Exec (JniStep sig) va tr a va') : takenArgs tr = [] ∧ va' = va := by
  induction p generalizing va tr with
  | ret b =>
    obtain ⟨rfl, rfl, rfl⟩ := h
    exact ⟨rfl, rfl⟩
  | ask c k ih =>
    obtain ⟨r, u, tr', rfl, hstep, hk⟩ := h
    obtain ⟨hrest, rfl⟩ := ih r (hp.2 r) hk
    have hc := hp.1
    cases hstep with
    | vaArg args => simp [JniCall.isAside] at hc
    | parameterCount obj id => exact ⟨hrest, rfl⟩
    | parameterType hclazz => exact ⟨hrest, rfl⟩
    | other harg hcount htype =>
      refine ⟨?_, rfl⟩
      rw [← hrest]
      cases c with
      | vaArg args => exact absurd rfl (harg args)
      | _ => rfl

/-- What comes before has taken nothing. -/
theorem Aside.after {α β : Type} {p : JniProg α} (hp : Aside p) {f : α → JniProg β}
    {tr : Trace JniCall JniAnswer} {b : β} (h : (p >>= f).Exec (JniStep sig) va tr b va') :
    ∃ a tr', (f a).Exec (JniStep sig) va tr' b va' ∧ takenArgs tr = takenArgs tr' := by
  obtain ⟨a, u, tr₁, tr₂, rfl, h₁, h₂⟩ := Prog.exec_bind.mp h
  obtain ⟨hnone, rfl⟩ := hp.exec h₁
  exact ⟨a, tr₂, h₂, by rw [takenArgs_append, hnone, List.nil_append]⟩

/-- Every run of the program takes these values out of the list. -/
def Takes (sig : List JniType) (va : VaList Word) (p : JniProg Unit) (ws : List Word) : Prop :=
  ∀ tr va', p.Exec (JniStep sig) va tr () va' → takenArgs tr = ws

theorem Aside.takes {α : Type} {p : JniProg α} (hp : Aside p) {f : α → JniProg Unit}
    {ws : List Word} (h : ∀ a, Takes sig va (f a) ws) : Takes sig va (p >>= f) ws := by
  intro tr va' hrun
  obtain ⟨a, tr', hrest, heq⟩ := hp.after hrun
  exact heq.trans (h a tr' va' hrest)

/-- A loop whose every round takes one argument takes as many as it has rounds. -/
theorem forEach_takenArgs {ι : Type} {f : ι → JniProg Unit}
    (hf : ∀ x {va va' : VaList Word} {tr}, (f x).Exec (JniStep sig) va tr () va' →
      takenArgs tr = [(va.fetch .general).1] ∧ va' = (va.fetch .general).2)
    {xs : List ι} :
    Takes sig va (forEach f xs) (va.fetchAll (List.replicate xs.length .general)) := by
  induction xs generalizing va with
  | nil =>
    rintro tr va' ⟨rfl, -, -⟩
    rfl
  | cons x xs ih =>
    intro tr va' h
    obtain ⟨_, u, tr₁, tr₂, rfl, h₁, h₂⟩ := Prog.exec_bind.mp h
    obtain ⟨hone, rfl⟩ := hf x h₁
    rw [takenArgs_append, hone, ih _ _ h₂]
    rfl

theorem exec_envCall_bind {σ α : Type} {env : σ → JniCall → JniAnswer → σ → Prop} {c : EnvCall}
    {f : Word → JniProg α} {s t : σ} {tr : Trace JniCall JniAnswer} {b : α} :
    (envCall c >>= f).Exec env s tr b t ↔
      ∃ r u tr', tr = (.env c, r) :: tr' ∧ env s (.env c) r u ∧
        (f r.toWord).Exec env u tr' b t := Iff.rfl

/-- A round for a parameter takes one argument. -/
theorem takenArgs_parameter (objectArray : Ptr) (args : Word) (i : ℕ) {va va' : VaList Word}
    {tr : Trace JniCall JniAnswer} (h : (do
      let argobj ← envCall (.getObjectArrayElement objectArray i)
      if argobj = nullptr then pure ()
      else
        let classInfo ← getJObjectClassInfo argobj
        let arg := (← call (.vaArg args)).toWord
        getJObjectInfoInternal arg s!"args index [{i}] " true (some classInfo) :
        JniProg Unit).Exec (JniStep sig) va tr () va') :
    takenArgs tr = [(va.fetch .general).1] ∧ va' = (va.fetch .general).2 := by
  obtain ⟨clazz, va₁, tr₁, rfl, hclazz, hround⟩ := exec_envCall_bind.mp h
  obtain ⟨hne, rfl⟩ : clazz.toWord ≠ nullptr ∧ va₁ = va := by
    cases hclazz with
    | parameterType hclazz => exact ⟨hclazz, rfl⟩
    | other harg hcount htype => exact absurd rfl (htype _ _)
  rw [if_neg hne] at hround
  obtain ⟨classInfo, tr₂, hround, heq⟩ := (aside_getJObjectClassInfo _).after hround
  obtain ⟨arg, va₂, tr₃, rfl, harg, hround⟩ := Prog.exec_call_bind.mp hround
  obtain ⟨rfl, rfl⟩ : arg = .word (va₁.fetch .general).1 ∧ va₂ = (va₁.fetch .general).2 := by
    cases harg with
    | vaArg args => exact ⟨rfl, rfl⟩
    | other harg hcount htype => exact absurd rfl (harg _)
  obtain ⟨hnone, rfl⟩ := (aside_getJObjectInfoInternal _ _ _ _).exec hround
  refine ⟨?_, rfl⟩
  change takenArgs tr₁ = _
  rw [heq, ← hnone]
  rfl

/-- Called on an object while no exception is pending, it takes as many arguments as there are
parameters, each out of the general registers. -/
theorem getArgsInfo_rest {obj jmethodId : Ptr} (hobj : obj ≠ nullptr) (hid : jmethodId ≠ nullptr)
    (args : Word) (isStatic : Bool) :
    ∃ rest : JniProg Unit,
      getArgsInfo obj jmethodId args isStatic =
        (exceptionCheck >>= fun pending => if pending = true then pure () else rest) ∧
      ∀ va, Takes sig va rest (va.fetchAll (List.replicate sig.length .general)) := by
  refine ⟨_, by rw [getArgsInfo, if_neg hobj], fun va => ?_⟩
  rw [if_neg hid]
  refine (aside_envCall _).takes fun pJclass => ?_
  refine (aside_envCall _).takes fun invokeMethod => ?_
  refine (aside_getJObjectInfoInternal _ _ _ _).takes fun _ => ?_
  refine (aside_envCall _).takes fun objclass => ?_
  refine (aside_envCall _).takes fun parCountId => ?_
  intro tr va' h
  obtain ⟨size, va₁, tr₁, rfl, hsize, hloop⟩ := exec_envCall_bind.mp h
  obtain ⟨rfl, rfl⟩ : size = .word sig.length ∧ va₁ = va := by
    cases hsize with
    | parameterCount obj id => exact ⟨rfl, rfl⟩
    | other harg hcount htype => exact absurd rfl (hcount _ _)
  change takenArgs tr₁ = _
  split at hloop
  · next hzero =>
    obtain ⟨rfl, -, -⟩ := hloop
    have hlen : sig.length = 0 := Int.ofNat_eq_zero.mp hzero
    rw [hlen]
    rfl
  · revert hloop
    refine (aside_envCall _).takes (fun methodIdGetTypes => ?_) tr₁ va'
    refine (aside_envCall _).takes fun objectArray => ?_
    have hall := @forEach_takenArgs sig va₁ _ _ (takenArgs_parameter objectArray args)
      (List.range sig.length)
    rwa [List.length_range] at hall

/-- A call takes no argument or all of them. -/
theorem takenArgs_getArgsInfo {obj jmethodId : Ptr} {args : Word} {isStatic : Bool}
    {tr : Trace JniCall JniAnswer}
    (h : (getArgsInfo obj jmethodId args isStatic).Exec (JniStep sig) va tr () va') :
    takenArgs tr = [] ∨ takenArgs tr = va.fetchAll (List.replicate sig.length .general) := by
  by_cases hobj : obj = nullptr
  · rw [getArgsInfo, if_pos hobj] at h
    obtain ⟨rfl, -, -⟩ := h
    exact .inl rfl
  by_cases hid : jmethodId = nullptr
  · rw [getArgsInfo, if_neg hobj] at h
    obtain ⟨pending, tr₁, h, heq⟩ := aside_exceptionCheck.after h
    rw [if_pos hid, ite_self] at h
    obtain ⟨rfl, -, -⟩ := h
    exact .inl heq
  obtain ⟨rest, hrest, htaken⟩ := @getArgsInfo_rest sig _ _ hobj hid args isStatic
  rw [hrest] at h
  obtain ⟨pending, tr₁, h, heq⟩ := aside_exceptionCheck.after h
  rw [heq]
  split at h
  · obtain ⟨rfl, -, -⟩ := h
    exact .inl rfl
  · exact .inr (htaken _ _ _ h)

/-- The environment has an answer for every command. -/
theorem jniStep_total (va : VaList Word) (c : JniCall) : ∃ r va', JniStep sig va c r va' := by
  by_cases harg : ∃ args, c = .vaArg args
  · obtain ⟨args, rfl⟩ := harg
    exact ⟨_, _, .vaArg args⟩
  by_cases hcount : ∃ obj id, c = .env (.callIntMethod obj id)
  · obtain ⟨obj, id, rfl⟩ := hcount
    exact ⟨_, _, .parameterCount obj id⟩
  by_cases htype : ∃ array index, c = .env (.getObjectArrayElement array index)
  · obtain ⟨array, index, rfl⟩ := htype
    exact ⟨_, _, .parameterType (show (1 : Ptr) ≠ nullptr by decide)⟩
  · exact ⟨.word 0, va, .other (fun args h => harg ⟨args, h⟩)
      (fun obj id h => hcount ⟨obj, id, h⟩) (fun array index h => htype ⟨array, index, h⟩)⟩

/-- There is a run that takes the arguments. -/
theorem exists_takenArgs (sig : List JniType) (va : VaList Word) :
    ∃ tr va', (getArgsInfo 1 1 0 false).Exec (JniStep sig) va tr () va' ∧
      takenArgs tr = va.fetchAll (List.replicate sig.length .general) := by
  have hptr : (1 : Ptr) ≠ nullptr := by decide
  obtain ⟨rest, heq, hrest⟩ := @getArgsInfo_rest sig 1 1 hptr hptr 0 false
  obtain ⟨tr, _, va', hrun⟩ := Prog.Runs.of_answers jniStep_total rest va
  have hcheck : JniStep sig va (.env .exceptionCheck) (.word 0) va :=
    .other (fun _ => nofun) (fun _ _ => nofun) (fun _ _ => nofun)
  refine ⟨(.env .exceptionCheck, .word 0) :: tr, va', ?_, hrest va tr va' hrun⟩
  rw [heq]
  exact ⟨_, va, tr, rfl, hcheck, hrun⟩

/-- The slots hold these arguments, each at the width of its parameter. -/
def Passed (sig : List JniType) (args slots : List Word) : Prop :=
  slots.length = sig.length ∧ List.zipWith JniType.value sig slots = args

/-- The `i`-th value that was taken is the `i`-th argument. -/
def TakesArguments (sig : List JniType) (args : List Word) (tr : Trace JniCall JniAnswer) : Prop :=
  ∀ (i : ℕ) (w : Word), (takenArgs tr)[i]? = some w →
    ∃ t : JniType, sig[i]? = some t ∧ args[i]? = some (t.value w)

/-- Where as many values were taken as there are parameters, they are the arguments. -/
theorem takesArguments_iff {args slots : List Word} (hpassed : Passed sig args slots)
    {tr : Trace JniCall JniAnswer} (hlen : (takenArgs tr).length = sig.length) :
    TakesArguments sig args tr ↔ List.zipWith JniType.value sig (takenArgs tr) = args := by
  obtain ⟨hslots, hargs⟩ := hpassed
  refine ⟨?_, ?_⟩
  · intro h
    apply List.ext_getElem
    · rw [← hargs, List.length_zipWith, List.length_zipWith, hlen, hslots]
    intro i hi hi'
    rw [List.length_zipWith, hlen, Nat.min_self] at hi
    obtain ⟨t, ht, harg⟩ := h i _ (List.getElem?_eq_getElem (hlen ▸ hi))
    rw [List.getElem_zipWith]
    rw [List.getElem?_eq_getElem hi'] at harg
    rw [List.getElem?_eq_getElem hi] at ht
    rw [Option.some.inj harg, Option.some.inj ht]
  · intro h i w hw
    obtain ⟨hi, rfl⟩ := List.getElem?_eq_some_iff.mp hw
    rw [hlen] at hi
    refine ⟨sig[i], List.getElem?_eq_getElem hi, ?_⟩
    rw [← h, List.getElem?_eq_getElem (by simp [hlen, hi]), List.getElem_zipWith]

theorem value_ne {t : JniType} (h : t.regClass = .vector) (w : Word) :
    t.value (w + 1) ≠ t.value w := by
  have hbits : t.bits = 64 := by
    revert h
    cases t <;> decide
  have hnext : ∀ n : ℤ, (n + 1) % 2 ^ 64 ≠ n % 2 ^ 64 := fun n => by omega
  unfold JniType.value
  rw [hbits]
  exact hnext w

/-- The tracer takes the arguments of every call exactly if a `float` or a `double` comes only
when no registers of either class are left. -/
theorem getArgsInfo_takes_iff (sig : List JniType) (va : VaList Word) :
    (∀ args slots obj jmethodId list isStatic tr va', Passed sig args slots →
        (getArgsInfo obj jmethodId list isStatic).Exec (JniStep sig)
          (.pass ((sig.map JniType.regClass).zip slots) va) tr () va' →
        TakesArguments sig args tr) ↔
      ∀ (i : ℕ) t, sig[i]? = some t → t.regClass = .vector →
        va.vector = [] ∧ va.general.length ≤ i := by
  have hfull : ∀ (va : VaList Word) tr,
      takenArgs tr = va.fetchAll (List.replicate sig.length .general) →
      (takenArgs tr).length = sig.length := by
    intro va tr h
    rw [h, VaList.length_fetchAll, List.length_replicate]
  have hdecoded := @VaList.decoded_iff _ _ _ JniType.regClass JniType.value
    (fun t ht w => ⟨w + 1, value_ne ht w⟩) sig va
  rw [← hdecoded]
  refine ⟨?_, ?_⟩
  · intro h slots hslots
    obtain ⟨tr, va', hrun, htaken⟩ := exists_takenArgs sig
      (.pass ((sig.map JniType.regClass).zip slots) va)
    have hpassed : Passed sig (List.zipWith JniType.value sig slots) slots := ⟨hslots, rfl⟩
    have htakes := h _ slots _ _ _ _ _ _ hpassed hrun
    rw [takesArguments_iff hpassed (hfull _ _ htaken), htaken] at htakes
    exact htakes
  · intro h args slots obj jmethodId list isStatic tr va' hpassed hrun
    rcases takenArgs_getArgsInfo hrun with hnone | htaken
    · intro i w hw
      simp [hnone] at hw
    · rw [takesArguments_iff hpassed (hfull _ _ htaken), htaken, h slots hpassed.1, hpassed.2]

/-- The list of `CallObjectMethod`, whose three named parameters are in `x0` to `x2`. -/
def methodArgs : VaList Word := ⟨List.replicate 5 0, List.replicate 8 0, fun _ => 0⟩

/-- The `1.0` that a method with one `float` is called with stays in its vector register. -/
theorem float_not_taken :
    ¬ ∀ tr va', (getArgsInfo 1 1 0 false).Exec (JniStep [.float])
        (.pass [(.vector, 0x3ff0000000000000)] methodArgs) tr () va' →
      TakesArguments [.float] [0x3ff0000000000000] tr := by
  intro h
  obtain ⟨tr, va', hrun, htaken⟩ := exists_takenArgs [.float]
    (.pass [(.vector, 0x3ff0000000000000)] methodArgs)
  obtain ⟨t, ht, harg⟩ := h tr va' hrun 0 0 (by rw [htaken]; rfl)
  obtain rfl : JniType.float = t := Option.some.inj ht
  exact absurd harg (by decide)

end NativeLib.Tracer
