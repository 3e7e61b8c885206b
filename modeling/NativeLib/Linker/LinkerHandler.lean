import Mathlib.Logic.Function.Basic
import NativeLib.Basic
import NativeLib.Interaction.Session
import NativeLib.Memory.Lifetimes

/-! `linker/linkerHandler.cpp`: the callbacks that hear of every library the linker loads.
The heap and the callbacks are the environment. -/

namespace NativeLib.Linker

open Interaction Memory
open Prog (call forEach)

/-- A C string that is not null. -/
abbrev Path := List Char

/-- What lives on the heap, the nodes of a list with the list. An object is named by its
allocation: a name is never given a second time. -/
inductive Object where
  | list (list : Ptr)
  | callback (callback : Ptr)
  deriving DecidableEq, Repr

inductive HeapCall where
  | newList
  | emplaceBack (list callBack : Ptr)
  | elements (list : Ptr)
  | loadBefore (callback : Ptr) (name : Path)
  | loadAfter (callback : Ptr) (path redirectPath : Path) (ret : Ptr)
  | deleteCallback (call : Ptr)
  | deleteList (list : Ptr)
  deriving DecidableEq, Repr

inductive HeapAnswer where
  | done
  | made (list : Ptr)
  | elements (callbacks : List Ptr)
  deriving DecidableEq, Repr

/-- There is no object at the null pointer; `delete nullptr` does nothing. -/
def callbackAt (callback : Ptr) : Option Object :=
  if callback = nullptr then none else some (.callback callback)

/-- What the commands read, write or call, and what they delete. -/
def lifetimes : Footprint HeapCall Object where
  uses
    | .emplaceBack list _ => [.list list]
    | .elements list => [.list list]
    | .loadBefore callback _ => (callbackAt callback).toList
    | .loadAfter callback _ _ _ => (callbackAt callback).toList
    | _ => []
  deletes
    | .deleteCallback call => callbackAt call
    | .deleteList list => some (.list list)
    | _ => none

structure LinkerHeap where
  made : ℕ
  elements : Ptr → List Ptr
  deleted : List Object

def LinkerHeap.initial : LinkerHeap := ⟨0, fun _ => [], []⟩

/-- What a command does to objects that exist. -/
def LinkerHeap.answer (h : LinkerHeap) : HeapCall → HeapAnswer × LinkerHeap
  | .newList => (.made (h.made + 1),
      { h with made := h.made + 1, elements := Function.update h.elements (h.made + 1) [] })
  | .emplaceBack list callBack => (.done,
      { h with elements := Function.update h.elements list (h.elements list ++ [callBack]) })
  | .elements list => (.elements (h.elements list), h)
  | c => (.done, { h with deleted := h.deleted ++ (lifetimes.deletes c).toList })

/-- A command on an object that was deleted can do anything. -/
def HeapStep (h : LinkerHeap) (c : HeapCall) (r : HeapAnswer) (h' : LinkerHeap) : Prop :=
  h.answer c = (r, h') ∨ ∃ o ∈ lifetimes.uses c ++ (lifetimes.deletes c).toList, o ∈ h.deleted

abbrev LinkerProg := Prog HeapCall HeapAnswer

/-- `new list<LinkerLoadCallBack *>()`. -/
def newList : LinkerProg Ptr := do
  match ← call .newList with
  | .made list => pure list
  | _ => pure nullptr

/-- `for (callback : *list) f(callback)`. -/
def forEachCallback (list : Ptr) (f : Ptr → HeapCall) : LinkerProg Unit := do
  match ← call (.elements list) with
  | .elements callbacks => forEach (fun callback => do let _ ← call (f callback)) callbacks
  | _ => pure ()

/-- `linkerHandler::addLinkerCallBack`: the new `linkerCallBackList`. -/
def addLinkerCallBack (linkerCallBackList callBack : Ptr) : LinkerProg Ptr := do
  let list ← (if linkerCallBackList = nullptr then newList else pure linkerCallBackList)
  let _ ← call (.emplaceBack list callBack)
  pure list

/-- `linkerHandler::cleanCallBack`. The pointer is left as it is. -/
def cleanCallBack (linkerCallBackList : Ptr) : LinkerProg Unit := do
  if linkerCallBackList ≠ nullptr then
    forEachCallback linkerCallBackList .deleteCallback
    let _ ← call (.deleteList linkerCallBackList)

/-- What `onSoLoadedBefore` and `onSoLoadedAfter` have in common: nothing for a null path, and
nothing without a list. -/
def onSoLoaded (linkerCallBackList : Ptr) (path : Option Path) (f : Path → Ptr → HeapCall) :
    LinkerProg Unit :=
  match path with
  | none => pure ()
  | some path =>
    if linkerCallBackList ≠ nullptr then forEachCallback linkerCallBackList (f path)
    else pure ()

def onSoLoadedBefore (linkerCallBackList : Ptr) (filename : Option Path) : LinkerProg Unit :=
  onSoLoaded linkerCallBackList filename fun filename callback => .loadBefore callback filename

def onSoLoadedAfter (linkerCallBackList : Ptr) (path : Option Path) (redirectPath : Path)
    (ret : Ptr) : LinkerProg Unit :=
  onSoLoaded linkerCallBackList path fun path callback => .loadAfter callback path redirectPath ret

/-- A hooked load is an `onSoLoadedBefore` and, after the call of the linker, an
`onSoLoadedAfter`; what that call brings about comes between them. -/
inductive LinkerOp where
  | addLinkerCallBack (callBack : Ptr)
  | cleanCallBack
  | onSoLoadedBefore (filename : Option Path)
  | onSoLoadedAfter (path : Option Path) (redirectPath : Path) (ret : Ptr)
  deriving DecidableEq, Repr

/-- The operation, with the value it leaves in `linkerCallBackList`. -/
def LinkerOp.body (op : LinkerOp) (linkerCallBackList : Ptr) : LinkerProg (Unit × Ptr) :=
  match op with
  | .addLinkerCallBack callBack => do
    let list ← Linker.addLinkerCallBack linkerCallBackList callBack
    pure ((), list)
  | .cleanCallBack => do
    Linker.cleanCallBack linkerCallBackList
    pure ((), linkerCallBackList)
  | .onSoLoadedBefore filename => do
    Linker.onSoLoadedBefore linkerCallBackList filename
    pure ((), linkerCallBackList)
  | .onSoLoadedAfter path redirectPath ret => do
    Linker.onSoLoadedAfter linkerCallBackList path redirectPath ret
    pure ((), linkerCallBackList)

abbrev LinkerEvent := Event LinkerOp HeapCall HeapAnswer Unit Ptr LinkerHeap

abbrev LinkerSession := Session LinkerOp.body HeapStep

end NativeLib.Linker
