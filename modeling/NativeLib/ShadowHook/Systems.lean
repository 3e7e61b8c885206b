import NativeLib.ShadowHook.Switches
import NativeLib.ShadowHook.Trampo

/-! A process with the allocators of enters and exits: `sh_enter.cpp`, the exits outside of
libraries of `sh_exit.cpp`, and how `sh_inst.cpp` draws on the two. -/

namespace NativeLib.ShadowHook

open Arm64

def SH_ENTER_SZ : ℕ := 256
def SH_ENTER_DELAY_SEC : ℤ := 10
def SH_EXIT_SZ : ℕ := 16
def SH_EXIT_DELAY_SEC : ℤ := 2
def SH_INST_A64_B_RANGE_LOW : ℕ := 134217728
def SH_INST_A64_B_RANGE_HIGH : ℕ := 134217724

structure System where
  process : Process
  enters : TrampoMgr
  exits : TrampoMgr

/-- What a hook is told by the rest of the world. `gap` is what comes of an exit in a gap of the
library, `gapBytes` what is cleared of the gaps. -/
structure HookEnv where
  nowEnter : ℤ
  enter : TrampoAnswers
  nowExit : ℤ
  exit : TrampoAnswers
  gap : ℤ ⊕ BitVec 64
  gapBytes : List (BitVec 64 × BitVec 8)
  withExit : PatchAnswers
  withoutExit : PatchAnswers
  exitMprotect : Bool
  nowExitFree : ℤ
  nowEnterFree : ℤ

structure UnhookEnv where
  ans : UnhookAnswers
  nowExitFree : ℤ
  nowEnterFree : ℤ

/-- Zeros from an address on. -/
def zeros (range : ℕ × ℕ) : List (BitVec 64 × BitVec 8) :=
  (List.range range.2).map fun i => (BitVec.ofNat 64 (range.1 + i), 0)

namespace System

variable (s : System)

/-- `sh_enter_alloc`. -/
def enterAlloc (env : HookEnv) : TrampoResult × TrampoMgr × (ℕ × ℕ) :=
  s.enters.alloc ⟨env.nowEnter, 0, 0, 0⟩ env.enter

/-- `sh_exit_alloc_out_library`. -/
def exitAllocOutLibrary (targetAddr : BitVec 64) (env : HookEnv) :
    TrampoResult × TrampoMgr × (ℕ × ℕ) :=
  s.exits.alloc
    ⟨env.nowExit, targetAddr.toNat, SH_INST_A64_B_RANGE_LOW, SH_INST_A64_B_RANGE_HIGH⟩ env.exit

/-- What the allocators make of a hook. -/
def answers (targetAddr : BitVec 64) (env : HookEnv) : HookAnswers :=
  let (enter, _, enterCleared) := s.enterAlloc env
  let (exit, _, exitCleared) := s.exitAllocOutLibrary targetAddr env
  { enterAddr := match enter with
      | .ok mem => BitVec.ofNat 64 mem
      | _ => 0
    enterBytes := zeros enterCleared
    exit := match exit with
      | .ok mem => .inr (.outLibrary, BitVec.ofNat 64 mem)
      | _ => env.gap.map id fun a => (.inLibrary, a)
    exitBytes := match exit with
      | .ok _ => zeros exitCleared
      | _ => zeros exitCleared ++ env.gapBytes
    withExit := env.withExit
    withoutExit := env.withoutExit
    exitMprotect := env.exitMprotect }

/-- The allocators after a hook that has come to `r` and `inst`. What has not been used goes back.
There are none if `sh_trampo_alloc` aborts. -/
def settle (targetAddr : BitVec 64) (ssize : ℕ) (env : HookEnv) (r : ℤ) (inst : Inst) :
    Option (TrampoMgr × TrampoMgr) :=
  let (enter, enters, _) := s.enterAlloc env
  let (exit, exits, _) := s.exitAllocOutLibrary targetAddr env
  match enter with
  | .aborted => none
  | .failed => some (enters, s.exits)
  | .ok mem =>
    let enters := if r = 0 then enters else enters.free env.nowEnterFree mem
    if ssize < 4 then some (enters, s.exits)
    else match exit with
      | .aborted => none
      | .failed => some (enters, exits)
      | .ok exitMem =>
        some (enters,
          if inst.exitAddr = 0 then exits.free env.nowExitFree exitMem else exits)

/-- `sh_inst_hook`, and the allocators after it. -/
def instHook (targetAddr : BitVec 64) (ssize : ℕ) (newAddr : BitVec 64) (env : HookEnv) :
    Option (TrampoMgr × TrampoMgr) :=
  let (r, inst, _) := ShadowHook.instHook .zero s.process.mem targetAddr ssize newAddr
    (s.answers targetAddr env)
  s.settle targetAddr ssize env r inst

end System

inductive SysOp
  | hook (found memalign : Bool) (targetAddr newAddr : BitVec 64) (ssize : ℕ) (env : HookEnv)
  | hookInvisible (targetAddr newAddr : BitVec 64) (ssize : ℕ) (env : HookEnv)
  | unhook (targetAddr : BitVec 64) (env : UnhookEnv)
  | store (a : BitVec 64) (byte : BitVec 8)

namespace System

variable (s : System)

/-- What a step is to the process. -/
def op : SysOp → Op
  | .hook found memalign targetAddr newAddr ssize env =>
    .hook found memalign targetAddr newAddr ssize (s.answers targetAddr env)
  | .hookInvisible targetAddr newAddr ssize env =>
    .hookInvisible targetAddr newAddr ssize (s.answers targetAddr env)
  | .unhook targetAddr env => .unhook targetAddr env.ans
  | .store a byte => .store a byte

/-- What an unhook gives back. -/
def unhookSettle (switch : Switch) (targetAddr : BitVec 64) (env : UnhookEnv) :
    TrampoMgr × TrampoMgr :=
  if switch.inst.Restored s.process.mem targetAddr env.ans then
    (if (instUnhook switch.inst s.process.mem targetAddr env.ans).1 = 0 then
        s.enters.free env.nowEnterFree switch.inst.enterAddr.toNat else s.enters,
      if switch.inst.exitAddr ≠ 0 ∧ switch.inst.exitType = .outLibrary then
        s.exits.free env.nowExitFree switch.inst.exitAddr.toNat else s.exits)
  else (s.enters, s.exits)

/-- The allocators after a step. -/
def managers : SysOp → Option (TrampoMgr × TrampoMgr)
  | .hook found memalign targetAddr newAddr ssize env =>
    if found || !memalign || (s.process.find targetAddr).isSome then some (s.enters, s.exits)
    else s.instHook targetAddr ssize newAddr env
  | .hookInvisible targetAddr newAddr ssize env => s.instHook targetAddr ssize newAddr env
  | .unhook targetAddr env =>
    match s.process.find targetAddr with
    | none => some (s.enters, s.exits)
    | some switch => some (s.unhookSettle switch targetAddr env)
  | .store .. => some (s.enters, s.exits)

/-- One step; none if the process aborts. -/
def step (sysOp : SysOp) : Option System :=
  (s.managers sysOp).map fun (enters, exits) => ⟨(s.process.step (s.op sysOp)).2, enters, exits⟩

end System

end NativeLib.ShadowHook
