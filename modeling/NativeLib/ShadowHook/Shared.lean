import NativeLib.ShadowHook.Hubs
import NativeLib.ShadowHook.Systems

/-! The tree of switches in shared mode: `sh_switch.cpp` with a hub in every switch. -/

namespace NativeLib.ShadowHook

/-- A process in shared mode. The function of a switch leads to the trampoline of a hub; the hub
itself is kept under the address of the function. -/
structure Shared where
  system : System
  hub : BitVec 64 → Hub

/-- One call of `sh_switch_hook_shared`: its arguments, and what the rest of the world makes of it.
Between the search and the lock other threads may come in; `found` is false if the search has come
to nothing. The hub gets no trampoline if `hubTrampo` is none. -/
structure SharedHook where
  targetAddr : BitVec 64
  newAddr : BitVec 64
  ssize : ℕ
  found : Bool
  memalign : Bool
  hubTrampo : Option (BitVec 64)
  malloc : Bool
  env : HookEnv
  undo : UnhookEnv

/-- What a hook says, and what it stores for its caller, if it does. -/
structure HookOutcome where
  r : ℤ
  origAddr : Option (BitVec 64)
  backupLen : Option ℕ
  deriving DecidableEq, Repr

inductive SharedOp
  | hook (call : SharedHook)
  | unhook (targetAddr newAddr : BitVec 64) (env : UnhookEnv)
  | store (a : BitVec 64) (byte : BitVec 8)

namespace System

def find (s : System) (targetAddr : BitVec 64) : Option Switch := s.process.find targetAddr

/-- What the threads are told of a step. -/
def result (s : System) (sysOp : SysOp) : ℤ := (s.process.step (s.op sysOp)).1

end System

namespace SharedHook

/-- The hook of a function that nobody has hooked yet. -/
def sysOp (call : SharedHook) (trampo : BitVec 64) : SysOp :=
  .hook false true call.targetAddr trampo call.ssize call.env

end SharedHook

namespace Shared

variable (s : Shared)

def setHub (targetAddr : BitVec 64) (hub : Hub) : Shared :=
  { s with hub := Function.update s.hub targetAddr hub }

/-- One more proxy for a function that has a switch. -/
def addProxy (switch : Switch) (call : SharedHook) : HookOutcome × Shared :=
  let (r, hub) := (s.hub call.targetAddr).addProxy call.newAddr call.malloc
  (⟨r, some (s.hub call.targetAddr).origAddr, some (4 * switch.inst.backup.length)⟩,
    s.setHub call.targetAddr hub)

/-- The first hook of a function; none if the process aborts. -/
def firstHook (trampo : BitVec 64) (call : SharedHook) : Option (HookOutcome × Shared) :=
  (s.system.step (call.sysOp trampo)).bind fun system =>
    match system.find call.targetAddr with
    | none => some (⟨s.system.result (call.sysOp trampo), none, none⟩, { s with system := system })
    | some switch =>
      let (r, hub) := Hub.addProxy ⟨[], switch.inst.enterAddr⟩ call.newAddr call.malloc
      if r = 0 then
        some (⟨r, some hub.origAddr, some (4 * switch.inst.backup.length)⟩,
          { s with system := system }.setHub call.targetAddr hub)
      else
        -- The answer of this unhook is not looked at.
        (system.step (.unhook call.targetAddr call.undo)).map fun system =>
          (⟨r, some hub.origAddr, some 0⟩, { s with system := system })

/-- `sh_switch_hook_shared`. Without a hub the process aborts: `sh_switch_create` frees the address
of a local variable. -/
def switchHookShared (call : SharedHook) : Option (HookOutcome × Shared) :=
  match if call.found then s.system.find call.targetAddr else none with
  | some switch => some (s.addProxy switch call)
  | none =>
    if call.memalign = false then some (⟨SHADOWHOOK_ERRNO_OOM, none, none⟩, s)
    else match call.hubTrampo with
      | none => none
      | some trampo =>
        match s.system.find call.targetAddr with
        | some switch => some (s.addProxy switch call)
        | none => s.firstHook trampo call

/-- `sh_switch_unhook_shared`. -/
def switchUnhookShared (targetAddr newAddr : BitVec 64) (env : UnhookEnv) :
    Option (ℤ × Shared) :=
  match s.system.find targetAddr with
  | none => some (SHADOWHOOK_ERRNO_UNHOOK_NOTFOUND, s)
  | some _ =>
    let (deleted, haveEnabledProxy, hub) := (s.hub targetAddr).delProxy newAddr
    if deleted ≠ 0 then some (SHADOWHOOK_ERRNO_UNHOOK_NOTFOUND, s.setHub targetAddr hub)
    else if haveEnabledProxy then some (0, s.setHub targetAddr hub)
    else
      (s.system.step (.unhook targetAddr env)).map fun system =>
        (s.system.result (.unhook targetAddr env), { s with system := system })

/-- One step, with what the thread is told; none if the process aborts. -/
def step : SharedOp → Option (HookOutcome × Shared)
  | .hook call => s.switchHookShared call
  | .unhook targetAddr newAddr env =>
    (s.switchUnhookShared targetAddr newAddr env).map fun (r, s) => (⟨r, none, none⟩, s)
  | .store a byte =>
    (s.system.step (.store a byte)).map fun system => (⟨0, none, none⟩, { s with system := system })

/-- The steps one after the other, with all that the threads are told. -/
def run : Shared → List SharedOp → Option (List HookOutcome × Shared)
  | s, [] => some ([], s)
  | s, op :: ops => (s.step op).bind fun (out, s) =>
    (s.run ops).map fun (outs, q) => (out :: outs, q)

end Shared

end NativeLib.ShadowHook
