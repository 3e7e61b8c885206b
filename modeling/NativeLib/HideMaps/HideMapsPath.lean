import Mathlib.Algebra.Group.Nat.Defs
import Mathlib.Data.Finset.Basic
import NativeLib.Basic
import NativeLib.Memory.Kernel
import NativeLib.ProcMaps.RecordList

/-! `hidemaps/hide_maps_path.cpp`: the sequence that replaces a mapping by anonymous memory,
through libc wrappers (`do_hide_org`) and through raw system calls (`do_hide`), and the loop
over the memory map (`riru_hide`). Log output is left out. -/

namespace NativeLib.HideMaps

open Interaction Memory ProcMaps
open Prog (call forEach)

/-- `MAP_FAILED`, and the `-1` of the other calls. -/
def MAP_FAILED (abi : Abi) : abi.Long := -BitVec.ofNat _ 1

/-- What `raw_syscall` returns: the register as the kernel leaves it, `-e` for an error. -/
def rawSyscall (abi : Abi) : KAnswer → abi.Long
  | .ok v => BitVec.ofNat _ v
  | .err e => -BitVec.ofNat _ e

/-- What the libc wrappers return: `-1` or `MAP_FAILED` for any error. -/
def libcWrapper (abi : Abi) : KAnswer → abi.Long
  | .ok v => BitVec.ofNat _ v
  | .err _ => MAP_FAILED abi

/-- `get_prot`. -/
def getProt (procstruct : ProcmapsStruct) : ℕ :=
  (if procstruct.isR then PROT_READ else 0) ||| (if procstruct.isW then PROT_WRITE else 0)
    ||| (if procstruct.isX then PROT_EXEC else 0)

variable {abi : Abi}

/-- `FAILURE_RETURN`: return 1 from the function if the call returns the failure value. -/
def failureReturn (wrapper : KAnswer → abi.Long) (c : KernelCall)
    (next : abi.Long → KernelProg ℕ) : KernelProg ℕ := do
  let rc := wrapper (← call c)
  if rc = MAP_FAILED abi then pure 1 else next rc

theorem failureReturn_eq (wrapper : KAnswer → abi.Long) (c : KernelCall)
    (next : abi.Long → KernelProg ℕ) : failureReturn wrapper c next =
      .ask c fun r => if wrapper r = MAP_FAILED abi then .ret 1 else next (wrapper r) := rfl

theorem exec_failureReturn {σ : Type} {env : σ → KernelCall → KAnswer → σ → Prop}
    {wrapper : KAnswer → abi.Long} {c : KernelCall} {next : abi.Long → KernelProg ℕ} {s t : σ}
    {tr : Trace KernelCall KAnswer} {ret : ℕ} :
    (failureReturn wrapper c next).Exec env s tr ret t ↔
      ∃ r u tr', tr = (c, r) :: tr' ∧ env s c r u ∧
        (if wrapper r = MAP_FAILED abi then .ret 1 else next (wrapper r)).Exec env u tr' ret t :=
  Iff.rfl

/-- A run whose call succeeds goes on. -/
theorem exec_ok {σ : Type} {env : σ → KernelCall → KAnswer → σ → Prop}
    {wrapper : KAnswer → abi.Long} {c : KernelCall} {r : KAnswer}
    {next : abi.Long → KernelProg ℕ} {s u t : σ} {tr : Trace KernelCall KAnswer} {ret : ℕ}
    (hw : wrapper r ≠ MAP_FAILED abi) (h : env s c r u)
    (hnext : (next (wrapper r)).Exec env u tr ret t) :
    (failureReturn wrapper c next).Exec env s ((c, r) :: tr) ret t :=
  exec_failureReturn.mpr ⟨r, u, tr, rfl, h, by rwa [if_neg hw]⟩

/-- A run whose call is seen to fail ends. -/
theorem exec_failed {σ : Type} {env : σ → KernelCall → KAnswer → σ → Prop}
    {wrapper : KAnswer → abi.Long} {c : KernelCall} {r : KAnswer}
    {next : abi.Long → KernelProg ℕ} {s u : σ} (hw : wrapper r = MAP_FAILED abi)
    (h : env s c r u) : (failureReturn wrapper c next).Exec env s [(c, r)] 1 u :=
  exec_failureReturn.mpr ⟨r, u, [], rfl, h, by rw [if_pos hw]; exact ⟨rfl, rfl, rfl⟩⟩

/-- `if (!flag) { FAILURE_RETURN(..); }`. -/
def failureReturnUnless (flag : Bool) (wrapper : KAnswer → abi.Long) (c : KernelCall)
    (next : KernelProg ℕ) : KernelProg ℕ :=
  if flag then next else failureReturn wrapper c fun _ => next

/-- The part of both sequences after the range can be read: copy, unmap, map again, copy
back. -/
def remapBackedUp (wrapper : KAnswer → abi.Long) (procstruct : ProcmapsStruct)
    (backupAddress : ℕ) : KernelProg ℕ :=
  let start := procstruct.addrStart
  let length := abi.sub procstruct.addrEnd start
  let prot := getProt procstruct
  do
    let _ ← call (.memcpy backupAddress start length)
    failureReturn wrapper (.munmap start length) fun _ =>
      failureReturn wrapper (.mmap start length prot) fun _ =>
        failureReturn wrapper (.mprotect start length (prot ||| PROT_WRITE)) fun _ => do
          let _ ← call (.memcpy start backupAddress length)
          failureReturnUnless procstruct.isW wrapper (.mprotect start length prot) (pure 0)

/-- The sequence of `do_hide_org` and `do_hide`, over what their calls return. -/
def remap (wrapper : KAnswer → abi.Long) (procstruct : ProcmapsStruct) : KernelProg ℕ :=
  let start := procstruct.addrStart
  let length := abi.sub procstruct.addrEnd start
  let prot := getProt procstruct
  failureReturn wrapper (.mmap 0 length (PROT_READ ||| PROT_WRITE)) fun backupAddress =>
    failureReturnUnless procstruct.isR wrapper (.mprotect start length (prot ||| PROT_READ)) <|
      remapBackedUp wrapper procstruct backupAddress.toNat

/-- `do_hide_org`. -/
def doHideOrg (abi : Abi) : ProcmapsStruct → KernelProg ℕ := remap (libcWrapper abi)

/-- `do_hide`. -/
def doHide (abi : Abi) : ProcmapsStruct → KernelProg ℕ := remap (rawSyscall abi)

/-- The loop of `riru_hide` that fills `map_item_list`, at most `fuel` times round. -/
def itemLoop (names : Finset (List Char)) (heap : NodeHeap) :
    ℕ → ProcmapsIterator → List ProcmapsStruct → Option (List ProcmapsStruct)
  | 0, _, _ => none
  | fuel + 1, it, mapItemList => do
    let (maps_tmp, it) ← pmparserNext heap it
    if maps_tmp = nullptr then some mapItemList
    else
      let node ← heap maps_tmp
      let matched := decide (node.record.pathname ∈ names)
      itemLoop names heap fuel it
        (if matched && node.record.isR then mapItemList ++ [node.record] else mapItemList)

/-- `riru_hide`. `maps` is what `pmparser_parse` returned, null if the maps file cannot be opened,
and `libc` what `dlopen` did; the result of `do_hide` is dropped. -/
def riruHide (abi : Abi) (fuel : ℕ) (maps : Option (NodeHeap × ProcmapsIterator)) (libc : Ptr)
    (names : Finset (List Char)) : KernelProg (Option Bool) :=
  match maps with
  | none => pure (some false)
  | some (heap, it) =>
    if libc = nullptr then pure (some false)
    else
      match itemLoop names heap fuel it [] with
      | none => pure none
      | some mapItemList => do
        forEach (fun item => do let _ ← doHide abi item) mapItemList
        pure (some true)

end NativeLib.HideMaps
