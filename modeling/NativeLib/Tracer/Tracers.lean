import Mathlib.Logic.Function.Basic
import NativeLib.Interaction.Session
import NativeLib.Tracer.TracerBase

/-! `tracer/JnitraceForC.cpp`, `tracer/StringHandler.cpp` and `tracer/StringHooker.cpp`: how
the three tracers start and stop, which functions they hook, and when a hook writes. -/

namespace NativeLib.Tracer

open Interaction
open Prog (call)

/-- The functions `init_jnitracer` hooks. -/
inductive JniFunction where
  | CallObjectMethodV | CallBooleanMethodV | CallByteMethodV | CallCharMethodV
  | CallShortMethodV | CallIntMethodV | CallLongMethodV | CallFloatMethodV
  | CallDoubleMethodV | CallVoidMethodV
  | CallStaticObjectMethodV | CallStaticBooleanMethodV | CallStaticByteMethodV
  | CallStaticCharMethodV | CallStaticShortMethodV | CallStaticIntMethodV
  | CallStaticLongMethodV | CallStaticFloatMethodV | CallStaticDoubleMethodV
  | CallStaticVoidMethodV
  | GetObjectField | GetBooleanField | GetByteField | GetCharField | GetShortField
  | GetIntField | GetLongField | GetFloatField | GetDoubleField
  | GetStaticObjectField | GetStaticBooleanField | GetStaticByteField | GetStaticCharField
  | GetStaticShortField | GetStaticIntField | GetStaticLongField | GetStaticFloatField
  | GetStaticDoubleField
  | NewStringUTF | GetStringUTFChars
  | FindClass | DefineClass | ToReflectedMethod | FromReflectedMethod
  | GetFieldID | GetStaticFieldID
  | NewObjectV
  | SetByteArrayRegion | GetByteArrayRegion
  | GetStringRegion | GetStringUTFRegion
  deriving DecidableEq, Repr

/-- The functions `init_string_handler` hooks. -/
inductive LibcFunction where
  | strlen | strlen_chk | strcmp | strstr | fgets | strcpy | strdup
  deriving DecidableEq, Repr

/-- The members of `std::string` and `std::wstring` that `hook_string` hooks. -/
inductive StringMember where
  | append_1 | append_2 | append_3 | append_4 | append_5 | append_6
  | wappend_1 | wappend_2 | wappend_3 | wappend_4 | wappend_5
  | construction_1 | construction_2 | construction_3 | construction_4
  | assign_1 | assign_2 | assign_3 | assign_4
  | resize_wchar | resize_char
  | basic_string_dtor
  | replace_1 | replace_2 | replace_3 | replace_4
  | insert_1 | insert_2 | insert_3 | insert_4 | insert_5
  deriving DecidableEq, Repr

/-- A function that runs in place of another. -/
inductive TraceHook where
  | jnitrace (func : JniFunction)
  | stringHandler (func : LibcFunction)
  | stringHooker (func : StringMember)
  deriving DecidableEq, Repr

/-- Whether what the hook writes stands under `IS_MATCH`. -/
def TraceHook.isMatch : TraceHook → Bool
  | .stringHooker .construction_1 => false
  | _ => true

/-- The records of a call of the hook. `fastInfo` is about its caller, and `msgs` are the
messages its body makes. -/
def TraceHook.records (hook : TraceHook) (t : TracerBase) (fastInfo : DlInfo)
    (msgs : List (List Char)) : Option (List Record) := do
  let write := do
    let records ← msgs.mapM t.write
    some records.flatten
  if hook.isMatch then
    if ← t.isLister (some fastInfo) then write else some []
  else write

/-- The three tracers, one object each. -/
inductive TracerKind where
  | jnitrace
  | stringHandler
  | stringHooker
  deriving DecidableEq, Repr

/-- The static members, `isInited` of each object, whether the linker handler has the
`StringHookerCallBack`, and the hooks that are installed. -/
structure Tracers extends TracerBase where
  isInited : TracerKind → Bool
  listening : Bool
  hooks : List TraceHook

/-- No constructor initialises `isInited`. -/
def Tracers.initial (isInited : TracerKind → Bool) : Tracers :=
  { TracerBase.initial with isInited, listening := false, hooks := [] }

inductive TracerCall where
  | isOpen (os : Ptr)
  | close (os : Ptr)
  | delete (os : Ptr)
  | hookJnitrace (func : JniFunction)
  | dlopenLibc
  | hookLibcFunction (func : LibcFunction)
  | linkerHandlerInit
  | stringHookerSym (path : List Char) (func : StringMember)
  deriving DecidableEq, Repr

/-- Answers are truth values: whether a stream is open, a hook was installed, a library
found. -/
abbrev TracerProg := Prog TracerCall Bool

namespace Tracers

/-- Install hooks, those that can be installed. -/
def hookEach {ι : Type} (c : ι → TracerCall) (hook : ι → TraceHook) (t : Tracers) :
    List ι → TracerProg Tracers
  | [] => pure t
  | func :: funcs => do
    let success ← call (c func)
    hookEach c hook (if success then { t with hooks := t.hooks ++ [hook func] } else t) funcs

/-- `init_jnitracer`. -/
def initJnitracer (t : Tracers) : TracerProg Tracers :=
  hookEach .hookJnitrace .jnitrace t
    [.CallObjectMethodV, .CallBooleanMethodV, .CallByteMethodV, .CallCharMethodV,
      .CallShortMethodV, .CallIntMethodV, .CallLongMethodV, .CallFloatMethodV,
      .CallDoubleMethodV, .CallVoidMethodV, .CallStaticObjectMethodV,
      .CallStaticBooleanMethodV, .CallStaticByteMethodV, .CallStaticCharMethodV,
      .CallStaticShortMethodV, .CallStaticIntMethodV, .CallStaticLongMethodV,
      .CallStaticFloatMethodV, .CallStaticDoubleMethodV, .CallStaticVoidMethodV,
      .GetObjectField, .GetBooleanField, .GetByteField, .GetCharField, .GetShortField,
      .GetIntField, .GetLongField, .GetFloatField, .GetDoubleField, .GetStaticObjectField,
      .GetStaticBooleanField, .GetStaticByteField, .GetStaticCharField,
      .GetStaticShortField, .GetStaticIntField, .GetStaticLongField, .GetStaticFloatField,
      .GetStaticDoubleField, .NewStringUTF, .GetStringUTFChars, .FindClass, .DefineClass,
      .ToReflectedMethod, .FromReflectedMethod, .GetFieldID, .GetStaticFieldID,
      .NewObjectV, .SetByteArrayRegion, .GetByteArrayRegion, .GetStringRegion,
      .GetStringUTFRegion]

/-- `init_string_handler`. -/
def initStringHandler (t : Tracers) : TracerProg Tracers := do
  if ← call .dlopenLibc then
    hookEach .hookLibcFunction .stringHandler t
      [.strlen, .strlen_chk, .strcmp, .strstr, .fgets, .strcpy, .strdup]
  else
    pure t

/-- `hook_string`. -/
def hookString (t : Tracers) (path : List Char) : TracerProg Tracers :=
  hookEach (.stringHookerSym path) .stringHooker t
    [.append_1, .append_2, .append_3, .append_4, .append_5, .append_6,
      .wappend_1, .wappend_2, .wappend_3, .wappend_4, .wappend_5,
      .construction_1, .construction_2, .construction_3, .construction_4,
      .assign_1, .assign_2, .assign_3, .assign_4, .resize_wchar, .resize_char,
      .basic_string_dtor, .replace_1, .replace_2, .replace_3, .replace_4,
      .insert_1, .insert_2, .insert_3, .insert_4, .insert_5]

/-- The part that the three `init` functions share. -/
def init (tracer : TracerKind) (install : Tracers → TracerProg Tracers) (t : Tracers)
    (hookAll : Bool) (forbidList filterList : List (List Char)) (os : Ptr) :
    TracerProg Tracers :=
  if t.isInited tracer then pure t
  else
    install
      { t with
        isInited := Function.update t.isInited tracer true
        isHookAll := hookAll
        forbidSoList := forbidList
        filterSoList := filterList
        isSave := if os ≠ nullptr then true else t.isSave
        traceOs := if os ≠ nullptr then os else t.traceOs }

/-- `Jnitrace::init`. -/
def jnitraceInit := init .jnitrace initJnitracer

/-- `StringHandler::init`. -/
def stringHandlerInit := init .stringHandler initStringHandler

/-- `StringHooker::init`. Its hooks are installed as libraries are loaded. -/
def stringHookerInit := init .stringHooker fun t => do
  let _ ← call .linkerHandlerInit
  pure { t with listening := true }

/-- `stop`, the same in all three. -/
def stop (t : Tracers) : TracerProg Tracers := do
  if t.traceOs ≠ nullptr then
    let isOpen ← call (.isOpen t.traceOs)
    if isOpen then
      let _ ← call (.close t.traceOs)
    let _ ← call (.delete t.traceOs)
  pure { t with filterSoList := [], forbidSoList := [], isSave := false }

/-- `TracerBase::getFileNameForPath`: what comes after the last slash. -/
def getFileNameForPath (path : List Char) : List Char :=
  (path.reverse.takeWhile (· ≠ '/')).reverse

/-- `StringHookerCallBack::loadAfter`. -/
def loadAfter (t : Tracers) (path : List Char) : TracerProg Tracers :=
  t.filterSoList.foldlM (fun t filterItem =>
    if text (cStr filterItem) = getFileNameForPath path then t.hookString path else pure t) t

end Tracers

/-- An operation on the tracers, or the load of a library. -/
inductive TracerOp where
  | init (tracer : TracerKind) (hookAll : Bool) (forbidList filterList : List (List Char))
      (os : Ptr)
  | stop (tracer : TracerKind)
  | loadAfter (path : List Char)
  deriving DecidableEq, Repr

def TracerOp.run (op : TracerOp) (t : Tracers) : TracerProg Tracers :=
  match op with
  | .init .jnitrace hookAll forbidList filterList os =>
    t.jnitraceInit hookAll forbidList filterList os
  | .init .stringHandler hookAll forbidList filterList os =>
    t.stringHandlerInit hookAll forbidList filterList os
  | .init .stringHooker hookAll forbidList filterList os =>
    t.stringHookerInit hookAll forbidList filterList os
  | .stop _ => t.stop
  | .loadAfter path => if t.listening then t.loadAfter path else pure t

def TracerOp.body (op : TracerOp) (t : Tracers) : TracerProg (Unit × Tracers) := do
  let t ← op.run t
  pure ((), t)

abbrev TracerEvent (ε : Type) := Event TracerOp TracerCall Bool Unit Tracers ε

abbrev TracerSession {ε : Type} := Session TracerOp.body (ε := ε)

end NativeLib.Tracer
