import NativeLib.Tracer.JniInfo

/-! `tracer/JnitraceForC.cpp`: the hooks. `lister` is the verdict of `isLister` on the caller. -/

namespace NativeLib.Tracer

open Interaction

/-- The characters of a string, none for a null pointer. -/
def charsOrEmpty (p : Ptr) : JniProg String := if p = nullptr then pure "" else charsAt p

def writeBoolean (message : String) (ret : Word) : JniProg Unit :=
  write [.text message, .text (if ret = 1 then "true" else "false"), .text "\n"]

def writeValue (message : String) (ret : Word) : JniProg Unit :=
  write [.text message, .value ret, .text "\n"]

def writeObject (message : String) (isPrintClassinfo : Bool) (ret : Word) : JniProg Unit := do
  if ret ≠ nullptr then getJObjectInfoInternal ret message isPrintClassinfo none

/-- A hook of a call that has a result: `writeResult` is what it writes about that. -/
def callMethodV (func : JniFunction) (methodname : String) (isStatic : Bool)
    (writeResult : Word → JniProg Unit) (lister : Bool) (env obj jmethodId args : Word) :
    JniProg Word :=
  if lister then do
    let ret ← orig func [env, obj, jmethodId, args]
    getJObjectInfo obj methodname
    getArgsInfo obj jmethodId args isStatic
    writeResult ret
    pure ret
  else orig func [env, obj, jmethodId, args]

/-- A hook of a call without a result. -/
def callVoidMethodV (func : JniFunction) (methodname : String) (isStatic lister : Bool)
    (env obj jmethodId args : Word) : JniProg Word := do
  if lister then
    getJObjectInfo obj methodname
    getArgsInfo obj jmethodId args isStatic
  orig func [env, obj, jmethodId, args]

/-- A hook of a read of a field. -/
def getField (func : JniFunction) (writeResult : Word → JniProg Unit) (lister : Bool)
    (env argObj jfieldId : Word) : JniProg Word :=
  if lister then do
    let ret ← orig func [env, argObj, jfieldId]
    writeResult ret
    pure ret
  else orig func [env, argObj, jfieldId]

def newCallObjectMethodV :=
  callMethodV .CallObjectMethodV "CallObjectMethodV" false fun ret =>
    getJObjectInfoInternal ret "result object :" true none

def newCallVoidMethodV :=
  callVoidMethodV .CallVoidMethodV "CallVoidMethodV" false

def newCallBooleanMethodV :=
  callMethodV .CallBooleanMethodV "CallBooleanMethodV" false
    (writeBoolean "invoke method result Boolean : ")

def newCallByteMethodV :=
  callMethodV .CallByteMethodV "CallByteMethodV" false (writeValue "result Byte : ")

def newCallCharMethodV :=
  callMethodV .CallCharMethodV "CallCharMethodV" false (writeValue "result Char : ")

def newCallShortMethodV :=
  callMethodV .CallShortMethodV "CallShortMethodV" false (writeValue "result Short : ")

def newCallIntMethodV :=
  callMethodV .CallIntMethodV "CallIntMethodV" false (writeValue "result Int : ")

def newCallLongMethodV :=
  callMethodV .CallLongMethodV "CallLongMethodV" false (writeValue "result Long : ")

def newCallFloatMethodV :=
  callMethodV .CallFloatMethodV "CallFloatMethodV" false (writeValue "result Float : ")

def newCallDoubleMethodV :=
  callMethodV .CallDoubleMethodV "CallDoubleMethodV" false (writeValue "result Double : ")

def newCallStaticObjectMethodV :=
  callMethodV .CallStaticObjectMethodV "CallStaticObjectMethodV" true fun ret =>
    getJObjectInfoInternal ret "result object :" true none

def newCallStaticVoidMethodV :=
  callVoidMethodV .CallStaticVoidMethodV "CallStaticVoidMethodV" true

def newCallStaticBooleanMethodV :=
  callMethodV .CallStaticBooleanMethodV "CallStaticBooleanMethodV" true
    (writeBoolean "result Boolean : ")

def newCallStaticByteMethodV :=
  callMethodV .CallStaticByteMethodV "CallStaticByteMethodV" true (writeValue "result Byte : ")

def newCallStaticCharMethodV :=
  callMethodV .CallStaticCharMethodV "CallStaticCharMethodV" true (writeValue "result Char : ")

def newCallStaticShortMethodV :=
  callMethodV .CallStaticShortMethodV "CallStaticShortMethodV" true (writeValue "result Short : ")

def newCallStaticIntMethodV :=
  callMethodV .CallStaticIntMethodV "CallStaticIntMethodV" true (writeValue "result Int : ")

def newCallStaticLongMethodV :=
  callMethodV .CallStaticLongMethodV "CallStaticLongMethodV" true (writeValue "result Long : ")

def newCallStaticFloatMethodV :=
  callMethodV .CallStaticFloatMethodV "CallStaticFloatMethodV" true (writeValue "result Float : ")

def newCallStaticDoubleMethodV :=
  callMethodV .CallStaticDoubleMethodV "CallStaticDoubleMethodV" true
    (writeValue "result Double : ")

/-- `new_NewStringUTF`. -/
def newNewStringUTF (lister : Bool) (env bytes : Word) : JniProg Word := do
  if lister then
    let text ← charsOrEmpty bytes
    write [.text "NewStringUTF : ", .text text, .text "\n"]
  orig .NewStringUTF [env, bytes]

/-- `new_GetStringUTFChars`. -/
def newGetStringUTFChars (lister : Bool) (env argstring isCopy : Word) : JniProg Word :=
  if lister then do
    if argstring = nullptr then pure nullptr
    else
      let chars ← orig .GetStringUTFChars [env, argstring, isCopy]
      if chars = nullptr then pure chars
      else
        let text ← charsAt chars
        if text = "" then pure chars
        else
          write [.text "GetStringUTFChars : ", .text text, .text "\n"]
          pure chars
  else orig .GetStringUTFChars [env, argstring, isCopy]

/-- `new_FindClass`. -/
def newFindClass (lister : Bool) (env name : Word) : JniProg Word := do
  if lister then
    let text ← charsOrEmpty name
    write [.text "find class : ", .text text, .text "\n"]
  orig .FindClass [env, name]

/-- `new_NewObjectV`. -/
def newNewObjectV (lister : Bool) (env clazz jmethodId args : Word) : JniProg Word :=
  if lister then do
    let obj ← orig .NewObjectV [env, clazz, jmethodId, args]
    getJObjectInfo obj "NewObjectV"
    getArgsInfo obj jmethodId args false
    pure obj
  else orig .NewObjectV [env, clazz, jmethodId, args]

/-- The hooks of the functions that copy a range: after the trace the call is made again. -/
def region (func : JniFunction) (what : String) (lister : Bool) (env array start len buf : Word) :
    JniProg Word := do
  if lister then
    let _ ← orig func [env, array, start, len, buf]
    getJObjectInfoInternal array s!"{what}, start->{start} len -> {len}" false none
  orig func [env, array, start, len, buf]

def newSetByteArrayRegion := region .SetByteArrayRegion "SetByteArrayRegion java array"

def newGetByteArrayRegion := region .GetByteArrayRegion "GetByteArrayRegion java array"

def newGetStringRegion := region .GetStringRegion "GetStringRegion java str"

def newGetStringUTFRegion := region .GetStringUTFRegion "GetStringUTFRegion java str"

/-- `new_ToReflectedMethod`. -/
def newToReflectedMethod (lister : Bool) (env clazz jmethodId isStatic : Word) : JniProg Word :=
  if lister then do
    let obj ← orig .ToReflectedMethod [env, clazz, jmethodId, isStatic]
    writeObject "ToReflectedMethod result " false obj
    pure obj
  else orig .ToReflectedMethod [env, clazz, jmethodId, isStatic]

/-- `new_FromReflectedMethod`. -/
def newFromReflectedMethod (lister : Bool) (env method : Word) : JniProg Word := do
  if lister then getJObjectInfoInternal method "FromReflectedMethod arg " false none
  orig .FromReflectedMethod [env, method]

/-- What the hooks of `GetFieldID` and `GetStaticFieldID` say of the class. -/
def classToString (clazz : Ptr) : JniProg String := do
  let object ← envCall (.findClass "java/lang/Object")
  let methodIdToString ← envCall (.getMethodID object "toString" "()Ljava/lang/String;")
  let toStringRet ← envCall (.callObjectMethod clazz methodIdToString)
  let toString ← envCall (.getStringUTFChars toStringRet)
  charsOrEmpty toString

/-- `new_GetFieldID`. -/
def newGetFieldID (lister : Bool) (env clazz name sig : Word) : JniProg Word := do
  if lister then
    let toString ← classToString clazz
    let nameText ← charsOrEmpty name
    let sigText ← charsOrEmpty sig
    write [.text "get field info  : ", .text toString, .text " name-> ", .text nameText,
      .text " sign -> ", .text sigText, .text "\n"]
  orig .GetFieldID [env, clazz, name, sig]

/-- `new_GetStaticFieldID`: here a null `name` or `sig` is read. -/
def newGetStaticFieldID (lister : Bool) (env clazz name sig : Word) : JniProg Word := do
  if lister then
    let toString ← classToString clazz
    let nameText ← charsAt name
    let sigText ← charsAt sig
    write [.text "get static field info  : ", .text toString, .text " ", .text nameText,
      .text " ", .text sigText, .text "\n"]
  orig .GetStaticFieldID [env, clazz, name, sig]

def newGetObjectField :=
  getField .GetObjectField (writeObject "GetObjectField result object :" true)

def newGetBooleanField :=
  getField .GetBooleanField (writeBoolean "GetBooleanField result jboolean : ")

def newGetByteField :=
  getField .GetByteField (writeValue "GetByteField result jbyte : ")

def newGetCharField :=
  getField .GetCharField (writeValue "GetCharField result jbyte : ")

def newGetShortField :=
  getField .GetShortField (writeValue "GetShortField result jshort : ")

def newGetIntField :=
  getField .GetIntField (writeValue "GetIntField result jint : ")

def newGetLongField :=
  getField .GetLongField (writeValue "GetLongField result jlong : ")

def newGetFloatField :=
  getField .GetFloatField (writeValue "GetFloatField result jfloat : ")

def newGetDoubleField :=
  getField .GetDoubleField (writeValue "GetDoubleField result jdouble : ")

def newGetStaticObjectField :=
  getField .GetStaticObjectField (writeObject "GetStaticObjectField result object :" true)

def newGetStaticBooleanField :=
  getField .GetStaticBooleanField (writeBoolean "GetStaticBooleanField result jboolean : ")

def newGetStaticByteField :=
  getField .GetStaticByteField (writeValue "GetStaticByteField result jbyte : ")

def newGetStaticCharField :=
  getField .GetStaticCharField (writeValue "GetStaticCharField result jchar : ")

def newGetStaticShortField :=
  getField .GetStaticShortField (writeValue "GetStaticShortField result jshort : ")

def newGetStaticIntField :=
  getField .GetStaticIntField (writeValue "GetStaticIntField result jint :  ")

def newGetStaticLongField :=
  getField .GetStaticLongField (writeValue "GetStaticLongField result jlong :  ")

def newGetStaticFloatField :=
  getField .GetStaticFloatField (writeValue "GetStaticFloatField result jfloat :  ")

def newGetStaticDoubleField :=
  getField .GetStaticDoubleField (writeValue "GetStaticDoubleField result jdouble :  ")

/-- `new_DefineClass`. -/
def newDefineClass (lister : Bool) (env name loader buf bufLen : Word) : JniProg Word :=
  if lister then do
    let ret ← orig .DefineClass [env, name, loader, buf, bufLen]
    if ret ≠ nullptr then
      let nameText ← charsAt name
      write [.text "DefineClass   ", .text nameText, .text "\n"]
    pure ret
  else orig .DefineClass [env, name, loader, buf, bufLen]

/-- The hook that `init_jnitracer` puts in place of a function, on a call with these
arguments. -/
def JniFunction.hook (func : JniFunction) (lister : Bool) (args : List Word) : JniProg Word :=
  match func, args with
  | .CallObjectMethodV, [env, obj, jmethodId, args] =>
    newCallObjectMethodV lister env obj jmethodId args
  | .CallBooleanMethodV, [env, obj, jmethodId, args] =>
    newCallBooleanMethodV lister env obj jmethodId args
  | .CallByteMethodV, [env, obj, jmethodId, args] =>
    newCallByteMethodV lister env obj jmethodId args
  | .CallCharMethodV, [env, obj, jmethodId, args] =>
    newCallCharMethodV lister env obj jmethodId args
  | .CallShortMethodV, [env, obj, jmethodId, args] =>
    newCallShortMethodV lister env obj jmethodId args
  | .CallIntMethodV, [env, obj, jmethodId, args] => newCallIntMethodV lister env obj jmethodId args
  | .CallLongMethodV, [env, obj, jmethodId, args] =>
    newCallLongMethodV lister env obj jmethodId args
  | .CallFloatMethodV, [env, obj, jmethodId, args] =>
    newCallFloatMethodV lister env obj jmethodId args
  | .CallDoubleMethodV, [env, obj, jmethodId, args] =>
    newCallDoubleMethodV lister env obj jmethodId args
  | .CallVoidMethodV, [env, obj, jmethodId, args] =>
    newCallVoidMethodV lister env obj jmethodId args
  | .CallStaticObjectMethodV, [env, obj, jmethodId, args] =>
    newCallStaticObjectMethodV lister env obj jmethodId args
  | .CallStaticBooleanMethodV, [env, obj, jmethodId, args] =>
    newCallStaticBooleanMethodV lister env obj jmethodId args
  | .CallStaticByteMethodV, [env, obj, jmethodId, args] =>
    newCallStaticByteMethodV lister env obj jmethodId args
  | .CallStaticCharMethodV, [env, obj, jmethodId, args] =>
    newCallStaticCharMethodV lister env obj jmethodId args
  | .CallStaticShortMethodV, [env, obj, jmethodId, args] =>
    newCallStaticShortMethodV lister env obj jmethodId args
  | .CallStaticIntMethodV, [env, obj, jmethodId, args] =>
    newCallStaticIntMethodV lister env obj jmethodId args
  | .CallStaticLongMethodV, [env, obj, jmethodId, args] =>
    newCallStaticLongMethodV lister env obj jmethodId args
  | .CallStaticFloatMethodV, [env, obj, jmethodId, args] =>
    newCallStaticFloatMethodV lister env obj jmethodId args
  | .CallStaticDoubleMethodV, [env, obj, jmethodId, args] =>
    newCallStaticDoubleMethodV lister env obj jmethodId args
  | .CallStaticVoidMethodV, [env, obj, jmethodId, args] =>
    newCallStaticVoidMethodV lister env obj jmethodId args
  | .GetObjectField, [env, obj, jfieldId] => newGetObjectField lister env obj jfieldId
  | .GetBooleanField, [env, obj, jfieldId] => newGetBooleanField lister env obj jfieldId
  | .GetByteField, [env, obj, jfieldId] => newGetByteField lister env obj jfieldId
  | .GetCharField, [env, obj, jfieldId] => newGetCharField lister env obj jfieldId
  | .GetShortField, [env, obj, jfieldId] => newGetShortField lister env obj jfieldId
  | .GetIntField, [env, obj, jfieldId] => newGetIntField lister env obj jfieldId
  | .GetLongField, [env, obj, jfieldId] => newGetLongField lister env obj jfieldId
  | .GetFloatField, [env, obj, jfieldId] => newGetFloatField lister env obj jfieldId
  | .GetDoubleField, [env, obj, jfieldId] => newGetDoubleField lister env obj jfieldId
  | .GetStaticObjectField, [env, obj, jfieldId] => newGetStaticObjectField lister env obj jfieldId
  | .GetStaticBooleanField, [env, obj, jfieldId] => newGetStaticBooleanField lister env obj jfieldId
  | .GetStaticByteField, [env, obj, jfieldId] => newGetStaticByteField lister env obj jfieldId
  | .GetStaticCharField, [env, obj, jfieldId] => newGetStaticCharField lister env obj jfieldId
  | .GetStaticShortField, [env, obj, jfieldId] => newGetStaticShortField lister env obj jfieldId
  | .GetStaticIntField, [env, obj, jfieldId] => newGetStaticIntField lister env obj jfieldId
  | .GetStaticLongField, [env, obj, jfieldId] => newGetStaticLongField lister env obj jfieldId
  | .GetStaticFloatField, [env, obj, jfieldId] => newGetStaticFloatField lister env obj jfieldId
  | .GetStaticDoubleField, [env, obj, jfieldId] => newGetStaticDoubleField lister env obj jfieldId
  | .NewStringUTF, [env, bytes] => newNewStringUTF lister env bytes
  | .GetStringUTFChars, [env, argstring, isCopy] => newGetStringUTFChars lister env argstring isCopy
  | .FindClass, [env, name] => newFindClass lister env name
  | .DefineClass, [env, name, loader, buf, bufLen] =>
    newDefineClass lister env name loader buf bufLen
  | .ToReflectedMethod, [env, clazz, jmethodId, isStatic] =>
    newToReflectedMethod lister env clazz jmethodId isStatic
  | .FromReflectedMethod, [env, method] => newFromReflectedMethod lister env method
  | .GetFieldID, [env, clazz, name, sig] => newGetFieldID lister env clazz name sig
  | .GetStaticFieldID, [env, clazz, name, sig] => newGetStaticFieldID lister env clazz name sig
  | .NewObjectV, [env, clazz, jmethodId, args] => newNewObjectV lister env clazz jmethodId args
  | .SetByteArrayRegion, [env, array, start, len, buf] =>
    newSetByteArrayRegion lister env array start len buf
  | .GetByteArrayRegion, [env, array, start, len, buf] =>
    newGetByteArrayRegion lister env array start len buf
  | .GetStringRegion, [env, str, start, len, buf] => newGetStringRegion lister env str start len buf
  | .GetStringUTFRegion, [env, str, start, len, buf] =>
    newGetStringUTFRegion lister env str start len buf
  | _, _ => pure 0

end NativeLib.Tracer
