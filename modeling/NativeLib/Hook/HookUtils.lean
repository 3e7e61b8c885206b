import NativeLib.Basic
import NativeLib.Interaction.Session

/-! `hook/HookUtils.cpp`: one registry of hooked addresses over two hook engines. The
engines are the environment; log output is left out, the code reads none of it back. -/

namespace NativeLib.Hook

open Interaction
open Prog (call)

/-- `Hook_MODEL`. -/
inductive HookModel where
  | dobby
  | shadowhook
  deriving DecidableEq, Repr

/-- `hook_addr_info`. -/
structure HookAddrInfo where
  hookOrig : Ptr
  hookRet : Ptr
  hookMoudle : HookModel
  deriving DecidableEq, Repr

/-- The static variables of `HookUtils.cpp`. -/
structure HookUtils where
  hookutilsModel : HookModel
  hookedList : List HookAddrInfo
  isInted : Bool
  deriving DecidableEq, Repr

/-- Their initial values. -/
def HookUtils.initial : HookUtils := ⟨.dobby, [], false⟩

def RT_SUCCESS : Word := 0

def SHADOWHOOK_ERRNO_OK : Word := 0

/-- `SHADOWHOOK_MODE_UNIQUE`: hooking an address again is an error. -/
def SHADOWHOOK_MODE_UNIQUE : Word := 1

/-- The engine functions the code calls. -/
inductive EngineCall where
  | dobbyHook (address replaceCall originCall : Ptr)
  | dobbyDestroy (address : Ptr)
  | shadowhookInit (mode : Word) (debuggable : Bool)
  | shadowhookHookFuncAddr (funcAddr newAddr origAddr : Ptr)
  | shadowhookUnhook (stub : Ptr)
  deriving DecidableEq, Repr

abbrev EngineProg := Prog EngineCall Word

namespace HookUtils

/-- `PUT_PTR`: a new record at the back of the list. -/
def putPtr (s : HookUtils) (orig ret : Ptr) (moudle : HookModel) : HookUtils :=
  { s with hookedList := s.hookedList ++ [⟨orig, ret, moudle⟩] }

/-- The lookup of `unHook`: Dobby records go by the address, ShadowHook ones by the stub. -/
def keyedBy (sym : Ptr) (ptr : HookAddrInfo) : Bool :=
  match ptr.hookMoudle with
  | .dobby => ptr.hookOrig == sym
  | .shadowhook => ptr.hookRet == sym

/-- The engine call `unHook` makes for a record: chosen by the current model. -/
def unhookCall (s : HookUtils) (info : HookAddrInfo) : EngineCall :=
  match s.hookutilsModel with
  | .dobby => .dobbyDestroy info.hookOrig
  | .shadowhook => .shadowhookUnhook info.hookRet

/-- The code each engine returns from a successful unhook. -/
def unhookOk : HookModel → Word
  | .dobby => RT_SUCCESS
  | .shadowhook => SHADOWHOOK_ERRNO_OK

/-- `HookUtils::unHook`. `remove(info)` drops the element that is `info`; the records of the
list are distinct objects. -/
def unHook (s : HookUtils) (sym : Ptr) : EngineProg (Bool × HookUtils) :=
  if sym = nullptr then pure (false, s)
  else
    match s.hookedList.find? (keyedBy sym) with
    | none => pure (false, s)
    | some info => do
      let code ← call (s.unhookCall info)
      let ret := code == unhookOk s.hookutilsModel
      pure (ret, { s with hookedList := s.hookedList.filter (· ≠ info) })

/-- `HookUtils::setHookerModle`. -/
def setHookerModle (s : HookUtils) (modle : HookModel) : HookUtils :=
  { s with hookutilsModel := modle }

/-- The first block of `Hooker`: one flag for the initialisation of both engines. A failed
`shadowhook_init` is logged and the call goes on. -/
def initEngine (s : HookUtils) : EngineProg HookUtils :=
  if s.isInted then pure s
  else
    match s.hookutilsModel with
    | .shadowhook => do
      let ret ← call (.shadowhookInit SHADOWHOOK_MODE_UNIQUE false)
      if ret = SHADOWHOOK_ERRNO_OK then pure { s with isInted := true } else pure s
    | .dobby => pure { s with isInted := true }

/-- Some record has `hook_orig == dysym`. -/
def recorded (s : HookUtils) (dysym : Ptr) : Bool :=
  s.hookedList.any fun ptr => ptr.hookOrig == dysym

/-- `HookUtils::Hooker(void *dysym, void *newrep, void **org)`. -/
def hooker (s : HookUtils) (dysym newrep org : Ptr) : EngineProg (Bool × HookUtils) :=
  if dysym = nullptr then pure (false, s)
  else do
    let s ← s.initEngine
    if s.recorded dysym then pure (true, s)
    else
      match s.hookutilsModel with
      | .dobby => do
        let ret ← call (.dobbyHook dysym newrep org)
        if ret = RT_SUCCESS then pure (true, s.putPtr dysym nullptr .dobby)
        else pure (false, s)
      | .shadowhook => do
        let sub ← call (.shadowhookHookFuncAddr dysym newrep org)
        if sub ≠ nullptr then pure (true, s.putPtr dysym sub .shadowhook)
        else pure (false, s)

end HookUtils

/-- The operations of a run. -/
inductive HookOp where
  | setHookerModle (modle : HookModel)
  | hooker (dysym newrep org : Ptr)
  | unHook (sym : Ptr)
  deriving DecidableEq, Repr

/-- An operation with what it returns, `none` for `void`. -/
def HookOp.body : HookOp → HookUtils → EngineProg (Option Bool × HookUtils)
  | .setHookerModle modle, s => pure (none, s.setHookerModle modle)
  | .hooker dysym newrep org, s => do
    let (ret, s) ← s.hooker dysym newrep org
    pure (some ret, s)
  | .unHook sym, s => do
    let (ret, s) ← s.unHook sym
    pure (some ret, s)

abbrev HookEvent (ε : Type) := Event HookOp EngineCall Word (Option Bool) HookUtils ε

/-- A run of operations against engines that answer by `env`. -/
abbrev HookSession {ε : Type} (env : ε → EngineCall → Word → ε → Prop) :=
  Session (ε := ε) HookOp.body env

end NativeLib.Hook
