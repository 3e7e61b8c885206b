import NativeLib.Basic
import NativeLib.Interaction.Prog
import NativeLib.Tracer.Tracers

/-! `tracer/JnitraceForC.cpp`: how the tracer of JNI calls describes objects and arguments. The
functions of the JNI, called through `env` or through the pointer to a replaced one, the memory
and the log are the environment. -/

namespace NativeLib.Tracer

open Interaction
open Prog (call forEach)

/-- The JNI functions that the tracer calls through `env` on its own account. -/
inductive EnvCall where
  | exceptionCheck
  | exceptionClear
  | getObjectClass (obj : Ptr)
  | findClass (name : String)
  | getStaticMethodID (clazz : Ptr) (name sig : String)
  | getMethodID (clazz : Ptr) (name sig : String)
  | callStaticObjectMethod (clazz id : Ptr) (args : List Ptr)
  | callObjectMethod (obj id : Ptr)
  | callIntMethod (obj id : Ptr)
  | getStringUTFChars (str : Ptr)
  | releaseStringUTFChars (str chars : Ptr)
  | newStringUTF (bytes : String)
  | newObject (clazz id : Ptr) (args : List Ptr)
  | deleteLocalRef (ref : Ptr)
  | toReflectedMethod (clazz id : Ptr) (isStatic : Bool)
  | getObjectArrayElement (array : Ptr) (index : ℕ)
  deriving DecidableEq, Repr

/-- The static members that remember what `toString` is called with. -/
inductive JniStatic where
  | objectMethodIdToString
  | auxiliaryClazz
  | auxiliaryClazzMethodIdToString
  deriving DecidableEq, Repr

/-- A piece of a message: a text, or a value as `to_string` writes it. -/
inductive Piece where
  | text (s : String)
  | value (ret : Word)
  deriving DecidableEq, Repr

inductive JniCall where
  | orig (func : JniFunction) (args : List Word)
  | env (c : EnvCall)
  | load (member : JniStatic)
  | store (member : JniStatic) (value : Ptr)
  | vaArg (args : Word)
  | chars (p : Ptr)
  | freed
  | write (msg : List Piece)
  deriving DecidableEq, Repr

inductive JniAnswer where
  | word (w : Word)
  | text (s : String)
  deriving DecidableEq, Repr

def JniAnswer.toWord : JniAnswer → Word
  | .word w => w
  | .text _ => 0

def JniAnswer.toText : JniAnswer → String
  | .word _ => ""
  | .text s => s

abbrev JniProg := Prog JniCall JniAnswer

/-- `orig_<func>(args)`. -/
def orig (func : JniFunction) (args : List Word) : JniProg Word := do
  let r ← call (.orig func args)
  pure r.toWord

/-- `env->f(..)`. -/
def envCall (c : EnvCall) : JniProg Word := do
  let r ← call (.env c)
  pure r.toWord

/-- `env->ExceptionCheck()`. -/
def exceptionCheck : JniProg Bool := do
  let pending ← envCall .exceptionCheck
  pure (pending != 0)

/-- The string at a pointer. There is none at the null pointer. -/
def charsAt (p : Ptr) : JniProg String := do
  let r ← call (.chars p)
  pure r.toText

/-- A string read through `c_str()` of a string that is gone. -/
def freedChars : JniProg String := do
  let r ← call .freed
  pure r.toText

/-- `WRITE(msg)`. -/
def write (msg : List Piece) : JniProg Unit := do
  let _ ← call (.write msg)
  pure ()

/-- `if (env->ExceptionCheck()) env->ExceptionClear();`. -/
def clearException : JniProg Unit := do
  if ← exceptionCheck then
    let _ ← envCall .exceptionClear

/-- `Jnitrace::getJObjectClassInfo`. The characters are read after their release. -/
def getJObjectClassInfo (obj : Ptr) : JniProg String := do
  if obj = nullptr then pure ""
  else
    let clazz ← envCall (.findClass "java/lang/Class")
    if clazz = nullptr then
      clearException
      pure ""
    else
      let methodIdGetName ← envCall (.getMethodID clazz "getName" "()Ljava/lang/String;")
      if methodIdGetName = nullptr then
        clearException
        pure ""
      else
        let getClassNameRet ← envCall (.callObjectMethod obj methodIdGetName)
        let getClass ← envCall (.getStringUTFChars getClassNameRet)
        let _ ← envCall (.releaseStringUTFChars getClassNameRet getClass)
        let _ ← envCall (.deleteLocalRef getClassNameRet)
        charsAt getClass

/-- `Jnitrace::getJObjectToString`, for a `classInfo` that is not null. -/
def getJObjectToString (obj : Ptr) (classInfo : String) : JniProg String := do
  if obj = nullptr then pure ""
  else
    let auxiliaryClazz := (← call (.load .auxiliaryClazz)).toWord
    if auxiliaryClazz ≠ nullptr then
      let id := (← call (.load .auxiliaryClazzMethodIdToString)).toWord
      let id ← (if id = nullptr then do
          let id ← envCall
            (.getStaticMethodID auxiliaryClazz "obj2str" "(Ljava/lang/Object;)Ljava/lang/String;")
          let _ ← call (.store .auxiliaryClazzMethodIdToString id)
          pure id
        else pure id)
      toText (← envCall (.callStaticObjectMethod auxiliaryClazz id [obj]))
    else
      let id := (← call (.load .objectMethodIdToString)).toWord
      let id ← (if id = nullptr then do
          let clazz ← envCall (.findClass "java/lang/Object")
          let id ← envCall (.getMethodID clazz "toString" "()Ljava/lang/String;")
          let _ ← call (.store .objectMethodIdToString id)
          pure id
        else pure id)
      if classInfo = "android.graphics.Shader$TileMode" ∨
          classInfo = "android.graphics.Paint" then
        pure ""
      else
        toText (← envCall (.callObjectMethod obj id))
where
  toText (str : Ptr) : JniProg String := do
    let rawString ← envCall (.getStringUTFChars str)
    let result ← charsAt rawString
    let _ ← envCall (.releaseStringUTFChars str rawString)
    pure result

/-- The class and the signature of the `toString` that `getJObjectInfoInternal` uses for a basic
type. -/
def boxOf (classInfo : String) : Option (String × String) :=
  if classInfo = "boolean" ∨ classInfo = "java.lang.Boolean" then
    some ("java/lang/Boolean", "(Z)Ljava/lang/String;")
  else if classInfo = "byte" ∨ classInfo = "java.lang.Byte" then
    some ("java/lang/Byte", "(B)Ljava/lang/String;")
  else if classInfo = "char" ∨ classInfo = "java.lang.Character" then
    some ("java/lang/Character", "(C)Ljava/lang/String;")
  else if classInfo = "short" ∨ classInfo = "java.lang.Short" then
    some ("java/lang/Short", "(S)Ljava/lang/String;")
  else if classInfo = "int" ∨ classInfo = "java.lang.Integer" then
    some ("java/lang/Integer", "(I)Ljava/lang/String;")
  else if classInfo = "float" ∨ classInfo = "java.lang.Float" then
    some ("java/lang/Float", "(F)Ljava/lang/String;")
  else if classInfo = "double" ∨ classInfo = "java.lang.Double" then
    some ("java/lang/Double", "(D)Ljava/lang/String;")
  else if classInfo = "long" ∨ classInfo = "java.lang.Long" then
    some ("java/lang/Long", "(J)Ljava/lang/String;")
  else none

/-- The signature of the `Arrays.toString` for an array. -/
def arraySig (classInfo : String) : String :=
  if classInfo = "[F" then "([F)Ljava/lang/String;"
  else if classInfo = "[I" then "([I)Ljava/lang/String;"
  else if classInfo = "[S" then "([S)Ljava/lang/String;"
  else if classInfo = "[J" then "([J)Ljava/lang/String;"
  else if classInfo = "[D" then "([D)Ljava/lang/String;"
  else if classInfo = "[C" then "([C)Ljava/lang/String;"
  else if classInfo = "[Z" then "([Z)Ljava/lang/String;"
  else "([Ljava/lang/Object;)Ljava/lang/String;"

/-- The Java string for an array: its bytes as UTF-8, or what `Arrays.toString` says. -/
def arrayToString (arg : Ptr) (classInfo : String) : JniProg Ptr := do
  if classInfo = "[B" then
    let strclazz ← envCall (.findClass "java/lang/String")
    let utf ← envCall (.newStringUTF "UTF-8")
    let strInit ← envCall (.getMethodID strclazz "<init>" "([BLjava/lang/String;)V")
    let argJstr ← envCall (.newObject strclazz strInit [arg, utf])
    let _ ← envCall (.deleteLocalRef utf)
    let _ ← envCall (.deleteLocalRef strclazz)
    pure argJstr
  else
    let arrayClazz ← envCall (.findClass "java/util/Arrays")
    let methodid ← envCall (.getStaticMethodID arrayClazz "toString" (arraySig classInfo))
    envCall (.callStaticObjectMethod arrayClazz methodid [arg])

/-- The `ret` of `getJObjectInfoInternal`: characters, or those of a string that is gone. -/
inductive RetChars where
  | chars (p : Ptr)
  | freed
  deriving DecidableEq, Repr

/-- The value that `getJObjectInfoInternal` finds for an object. -/
def retOf (obj : Ptr) (classInfo : String) : JniProg RetChars :=
  match boxOf classInfo with
  | some (clazz, sig) => do
    let clazz ← envCall (.findClass clazz)
    let id ← envCall (.getStaticMethodID clazz "toString" sig)
    let jStr ← envCall (.callStaticObjectMethod clazz id [obj])
    let ret ← envCall (.getStringUTFChars jStr)
    pure (.chars ret)
  | none => do
    if '[' ∈ classInfo.toList then
      let argJstr ← arrayToString obj classInfo
      if argJstr ≠ nullptr then
        let ret ← envCall (.getStringUTFChars argJstr)
        pure (.chars ret)
      else pure (.chars nullptr)
    else
      let _ ← getJObjectToString obj classInfo
      pure .freed

/-- `Jnitrace::getJObjectInfoInternal`. A class name that it asks for itself is gone when it is
read. -/
def getJObjectInfoInternal (obj : Ptr) (message : String) (isPrintClassinfo : Bool)
    (classInfo : Option String) : JniProg Unit := do
  if obj = nullptr then pure ()
  else
    let classInfo ← (match classInfo with
      | some classInfo => pure classInfo
      | none => do
        let objClass ← envCall (.getObjectClass obj)
        clearException
        let _ ← getJObjectClassInfo objClass
        freedChars)
    let ret ← retOf obj classInfo
    clearException
    if ret = .chars nullptr then
      write [.text "jnitrace get obj info error ", .text classInfo]
    else
      let ret ← (match ret with
        | .chars p => charsAt p
        | .freed => freedChars)
      if ret ≠ "" then
        if isPrintClassinfo then
          write [.text message, .text "  [", .text classInfo, .text "]  ", .text ret, .text "\n"]
        else
          write [.text message, .text "  ", .text ret, .text "\n"]

/-- `Jnitrace::getJObjectInfo`. -/
def getJObjectInfo (obj : Ptr) (methodname : String) : JniProg Unit := do
  if obj = nullptr then pure ()
  else if ← exceptionCheck then pure ()
  else
    write [.text "<<<<<------------------", .text methodname,
      .text " --------------------->>>>>\n"]
    getJObjectInfoInternal obj "invoke this object" true none

/-- `Jnitrace::getArgsInfo`. -/
def getArgsInfo (obj jmethodId : Ptr) (args : Word) (isStatic : Bool) : JniProg Unit := do
  if obj = nullptr then pure ()
  else if ← exceptionCheck then pure ()
  else if jmethodId = nullptr then pure ()
  else
    let pJclass ← envCall (.getObjectClass obj)
    let invokeMethod ← envCall (.toReflectedMethod pJclass jmethodId isStatic)
    getJObjectInfoInternal invokeMethod "invoke method" false none
    let objclass ← envCall (.getObjectClass invokeMethod)
    let parCountId ← envCall (.getMethodID objclass "getParameterCount" "()I")
    let size ← envCall (.callIntMethod invokeMethod parCountId)
    if size = 0 then pure ()
    else
      let methodIdGetTypes ← envCall
        (.getMethodID objclass "getParameterTypes" "()[Ljava/lang/Class;")
      let objectArray ← envCall (.callObjectMethod invokeMethod methodIdGetTypes)
      forEach (fun i => do
        let argobj ← envCall (.getObjectArrayElement objectArray i)
        if argobj = nullptr then pure ()
        else
          let classInfo ← getJObjectClassInfo argobj
          let arg := (← call (.vaArg args)).toWord
          getJObjectInfoInternal arg s!"args index [{i}] " true (some classInfo))
        (List.range size.toNat)

/-! None of this calls a function that is replaced through the pointer to it, and only
`getArgsInfo` takes arguments out of the list. -/

def JniCall.isOrig : JniCall → Bool
  | .orig .. => true
  | _ => false

abbrev NoOrig {α : Type} (p : JniProg α) : Prop := p.Asks fun c => c.isOrig = false

/-- Neither an original nor an argument is asked for. -/
def JniCall.isAside : JniCall → Bool
  | .orig .. => false
  | .vaArg _ => false
  | _ => true

abbrev Aside {α : Type} (p : JniProg α) : Prop := p.Asks fun c => c.isAside = true

section

open Prog (Asks)

variable {α : Type}

theorem aside_pure (a : α) : Aside (pure a) := trivial

theorem aside_call {c : JniCall} (h : c.isAside = true) : Aside (call c) :=
  ⟨h, fun _ => trivial⟩

theorem aside_envCall (c : EnvCall) : Aside (envCall c) := ⟨rfl, fun _ => trivial⟩

theorem aside_exceptionCheck : Aside exceptionCheck := ⟨rfl, fun _ => trivial⟩

theorem aside_charsAt (p : Ptr) : Aside (charsAt p) := ⟨rfl, fun _ => trivial⟩

theorem aside_freedChars : Aside freedChars := ⟨rfl, fun _ => trivial⟩

theorem aside_write (msg : List Piece) : Aside (write msg) := ⟨rfl, fun _ => trivial⟩

theorem aside_clearException : Aside clearException :=
  aside_exceptionCheck.bind fun _ =>
    ((aside_envCall _).bind fun _ => aside_pure _).ite (aside_pure _)

theorem aside_getJObjectClassInfo (obj : Ptr) : Aside (getJObjectClassInfo obj) := by
  refine (aside_pure _).ite ((aside_envCall _).bind fun clazz => ?_)
  refine (aside_clearException.bind fun _ => aside_pure _).ite ?_
  refine (aside_envCall _).bind fun id => ?_
  refine (aside_clearException.bind fun _ => aside_pure _).ite ?_
  refine (aside_envCall _).bind fun name => (aside_envCall _).bind fun chars => ?_
  exact (aside_envCall _).bind fun _ => (aside_envCall _).bind fun _ => aside_charsAt _

theorem aside_toText (str : Ptr) : Aside (getJObjectToString.toText str) := by
  refine (aside_envCall _).bind fun rawString => (aside_charsAt _).bind fun result => ?_
  exact (aside_envCall _).bind fun _ => aside_pure _

theorem aside_getJObjectToString (obj : Ptr) (classInfo : String) :
    Aside (getJObjectToString obj classInfo) := by
  refine (aside_pure _).ite ((aside_call rfl).bind fun auxiliaryClazz => Asks.ite ?_ ?_)
  · refine (aside_call rfl).bind fun id => Asks.bind ?_ fun id => ?_
    · refine Asks.ite ((aside_envCall _).bind fun id => ?_) (aside_pure _)
      exact (aside_call rfl).bind fun _ => aside_pure _
    · exact (aside_envCall _).bind fun str => aside_toText _
  · refine (aside_call rfl).bind fun id => Asks.bind ?_ fun id => ?_
    · refine Asks.ite ((aside_envCall _).bind fun clazz => ?_) (aside_pure _)
      exact (aside_envCall _).bind fun id => (aside_call rfl).bind fun _ => aside_pure _
    · exact (aside_pure _).ite ((aside_envCall _).bind fun str => aside_toText _)

theorem aside_arrayToString (arg : Ptr) (classInfo : String) :
    Aside (arrayToString arg classInfo) := by
  refine Asks.ite ?_ ?_
  · refine (aside_envCall _).bind fun strclazz => (aside_envCall _).bind fun utf => ?_
    refine (aside_envCall _).bind fun strInit => (aside_envCall _).bind fun argJstr => ?_
    exact (aside_envCall _).bind fun _ => (aside_envCall _).bind fun _ => aside_pure _
  · exact (aside_envCall _).bind fun clazz => (aside_envCall _).bind fun id => aside_envCall _

theorem aside_retOf (obj : Ptr) (classInfo : String) : Aside (retOf obj classInfo) := by
  unfold retOf
  cases boxOf classInfo with
  | some box =>
    refine (aside_envCall _).bind fun clazz => (aside_envCall _).bind fun id => ?_
    exact (aside_envCall _).bind fun jStr => (aside_envCall _).bind fun ret => aside_pure _
  | none =>
    refine Asks.ite ((aside_arrayToString _ _).bind fun argJstr => ?_) ?_
    · exact ((aside_envCall _).bind fun ret => aside_pure _).ite (aside_pure _)
    · exact (aside_getJObjectToString _ _).bind fun _ => aside_pure _

theorem aside_getJObjectInfoInternal (obj : Ptr) (message : String) (isPrintClassinfo : Bool)
    (classInfo : Option String) :
    Aside (getJObjectInfoInternal obj message isPrintClassinfo classInfo) := by
  refine (aside_pure _).ite (Asks.bind ?_ fun classInfo => ?_)
  · cases classInfo with
    | some classInfo => exact aside_pure _
    | none =>
      refine (aside_envCall _).bind fun objClass => aside_clearException.bind fun _ => ?_
      exact (aside_getJObjectClassInfo _).bind fun _ => aside_freedChars
  · refine (aside_retOf _ _).bind fun ret => aside_clearException.bind fun _ => ?_
    refine (aside_write _).ite (Asks.bind ?_ fun ret => ?_)
    · cases ret with
      | chars p => exact aside_charsAt p
      | freed => exact aside_freedChars
    · exact ((aside_write _).ite (aside_write _)).ite (aside_pure _)

end

end NativeLib.Tracer
