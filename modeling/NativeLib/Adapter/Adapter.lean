import NativeLib.Basic
import NativeLib.Interaction.Threads

/-! `adapter/adapter.cpp`: the environment of the process. It is kept in the global variable
`mEnv`, which all threads read and write; each read and each write is a command of its own. -/

namespace NativeLib.Adapter

open Interaction
open Prog (call)

/-- The VM gives every thread an environment, and no two threads the same. -/
structure JavaVM (T : Type) where
  envOf : T → Ptr
  envOf_ne : ∀ t, envOf t ≠ nullptr
  envOf_inj : Function.Injective envOf

/-- The global variable, and which threads are attached to the VM. -/
structure Globals (T : Type) where
  mEnv : Ptr
  attached : T → Bool

/-- `mEnv` starts null. Any threads may be attached. -/
def Globals.initial {T : Type} (attached : T → Bool) : Globals T := ⟨nullptr, attached⟩

inductive AdapterCall where
  | readEnv
  | getEnv
  | attachCurrentThread
  | detachCurrentThread
  deriving DecidableEq, Repr

abbrev AdapterProg := Prog AdapterCall Ptr

/-- `getRunTimeEnv`. `GetEnv` writes to `mEnv`. -/
def getRunTimeEnv : AdapterProg Ptr := do
  if (← call .readEnv) = nullptr then
    let _ ← call .getEnv
  call .readEnv

/-- `ensureEnvCreated`. -/
def ensureEnvCreated : AdapterProg Ptr := do
  let env ← getRunTimeEnv
  if env = nullptr then
    call .attachCurrentThread
  else
    pure env

/-- `DetachCurrentThread`. -/
def DetachCurrentThread : AdapterProg Ptr := do
  let _ ← call .detachCurrentThread
  pure nullptr

inductive AdapterOp where
  | getRunTimeEnv
  | ensureEnvCreated
  | DetachCurrentThread
  deriving DecidableEq, Repr

def AdapterOp.body : AdapterOp → AdapterProg Ptr
  | .getRunTimeEnv => Adapter.getRunTimeEnv
  | .ensureEnvCreated => Adapter.ensureEnvCreated
  | .DetachCurrentThread => Adapter.DetachCurrentThread

variable {T : Type} [DecidableEq T]

/-- What a command of thread `t` is answered, and what it does. -/
def JavaVM.answer (vm : JavaVM T) (t : T) (s : Globals T) : AdapterCall → Ptr × Globals T
  | .readEnv => (s.mEnv, s)
  | .getEnv =>
      let env := if s.attached t then vm.envOf t else nullptr
      (env, { s with mEnv := env })
  | .attachCurrentThread =>
      (vm.envOf t, { s with attached := Function.update s.attached t true })
  | .detachCurrentThread =>
      (nullptr, { s with attached := Function.update s.attached t false })

def JavaVM.Env (vm : JavaVM T) (t : T) (s : Globals T) (c : AdapterCall) (r : Ptr)
    (s' : Globals T) : Prop := vm.answer t s c = (r, s')

/-- The threads and what they did. -/
abbrev Process (T : Type) := Pool AdapterOp T AdapterCall Ptr Ptr (Globals T)

/-- The process gets from its start to `P`. -/
def JavaVM.Runs (vm : JavaVM T) (attached : T → Bool) (P : Process T) : Prop :=
  (Pool.idle (Globals.initial attached)).Reaches AdapterOp.body vm.Env P

/-- In `P`, thread `t` is at the end of `ensureEnvCreated` and returns `env`. -/
def Returns (P : Process T) (t : T) (env : Ptr) : Prop :=
  P.running t = some (.ensureEnvCreated, .ret env)

end NativeLib.Adapter
