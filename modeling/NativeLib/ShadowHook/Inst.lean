import NativeLib.Arm64.Bytes
import NativeLib.ShadowHook.A64

/-! How ShadowHook patches a function of arm64: `sh_inst.cpp`. Memory is handed through; what the
allocators, `mprotect` and a crash of the access to the function come to is told by answers. -/

namespace NativeLib.ShadowHook

open Arm64

abbrev Mem := BitVec 64 → BitVec 8

def SHADOWHOOK_ERRNO_MPROT : ℤ := 5
def SHADOWHOOK_ERRNO_WRITE_CRASH : ℤ := 6
def SHADOWHOOK_ERRNO_HOOK_SYMSZ : ℤ := 23
def SHADOWHOOK_ERRNO_HOOK_ENTER : ℤ := 24
def SHADOWHOOK_ERRNO_HOOK_REWRITE_CRASH : ℤ := 25
def SHADOWHOOK_ERRNO_HOOK_REWRITE_FAILED : ℤ := 26
def SHADOWHOOK_ERRNO_UNHOOK_CMP_CRASH : ℤ := 28
def SHADOWHOOK_ERRNO_UNHOOK_TRAMPO_MISMATCH : ℤ := 29
def SHADOWHOOK_ERRNO_UNHOOK_EXIT_MISMATCH : ℤ := 30
def SHADOWHOOK_ERRNO_UNHOOK_EXIT_CRASH : ℤ := 31

inductive ExitType
  | outLibrary | inLibrary
  deriving DecidableEq, Repr

/-- `sh_inst_t`. The trampoline and the backup are as long as `backup_len` says. -/
structure Inst where
  trampo : List (BitVec 32)
  backup : List (BitVec 32)
  exitType : ExitType
  exitAddr : BitVec 64
  exit : List (BitVec 32)
  enterAddr : BitVec 64
  deriving DecidableEq, Repr

/-- How the write of instructions over a function comes out. -/
inductive WriteAnswer
  | ok | mprotect | crash
  deriving DecidableEq, Repr

/-- `sh_util_write_inst`. -/
def writeInst (mem : Mem) (targetAddr : BitVec 64) (inst : List (BitVec 32)) :
    WriteAnswer → ℤ × Mem
  | .ok => (0, putWords mem targetAddr inst)
  | .mprotect => (SHADOWHOOK_ERRNO_MPROT, mem)
  | .crash => (SHADOWHOOK_ERRNO_WRITE_CRASH, mem)

/-- The answers on one of the two ways to patch. -/
structure PatchAnswers where
  mprotect : Bool
  readable : Bool
  write : WriteAnswer
  deriving DecidableEq, Repr

/-- The answers of one hook: `0` for no enter, an error or a place and its type for an exit, and the
bytes that the allocators clear while they look for them. -/
structure HookAnswers where
  enterAddr : BitVec 64
  enterBytes : List (BitVec 64 × BitVec 8)
  exit : ℤ ⊕ (ExitType × BitVec 64)
  exitBytes : List (BitVec 64 × BitVec 8)
  withExit : PatchAnswers
  withoutExit : PatchAnswers
  exitMprotect : Bool
  deriving DecidableEq, Repr

/-- The loop of `sh_inst_hook_rewrite`: how far the buffer is filled in the end, if no instruction
failed. -/
def rewriteLoop (rinfo : RewriteInfo) (pc : BitVec 64) (bufOffset : ℕ) (mem : Mem) :
    ℕ → Option ℕ × Mem
  | 0 => (some bufOffset, mem)
  | n + 1 =>
    let (words, offset) := a64Rewrite (load 4 mem pc) pc rinfo
    let mem := putWords mem (rinfo.buf + BitVec.ofNat 64 bufOffset) words
    if offset = 0 then (none, mem) else rewriteLoop rinfo (pc + 4) (bufOffset + offset) mem n

/-- What is told to the rewriting of `n` instructions. -/
def rewriteInfo (mem : Mem) (targetAddr enterAddr : BitVec 64) (n : ℕ) : RewriteInfo where
  startAddr := targetAddr
  endAddr := targetAddr + BitVec.ofNat 64 (4 * n)
  buf := enterAddr
  instLens := (loadWords mem targetAddr n).map a64GetRewriteInstLen

/-- `sh_inst_hook_rewrite`, for a backup of `n` instructions. -/
def instHookRewrite (inst : Inst) (mem : Mem) (targetAddr : BitVec 64) (n : ℕ) :
    ℤ × Inst × Mem :=
  let inst := { inst with backup := loadWords mem targetAddr n }
  let rinfo := rewriteInfo mem targetAddr inst.enterAddr n
  match rewriteLoop rinfo targetAddr 0 mem n with
  | (none, mem) => (SHADOWHOOK_ERRNO_HOOK_REWRITE_FAILED, inst, mem)
  | (some bufOffset, mem) =>
    let back := a64AbsoluteJumpWithRet (targetAddr + BitVec.ofNat 64 (4 * n))
    (0, inst, putWords mem (inst.enterAddr + BitVec.ofNat 64 bufOffset) back.1)

/-- One byte after the other is written. -/
def writeBytes (mem : Mem) (bytes : List (BitVec 64 × BitVec 8)) : Mem :=
  bytes.foldl (fun mem (a, byte) => Function.update mem a byte) mem

/-- `sh_exit_alloc`, as far as memory goes. -/
def exitAlloc (mem : Mem) (exit : List (BitVec 32)) (ans : HookAnswers) : Mem :=
  let mem := writeBytes mem ans.exitBytes
  match ans.exit with
  | .inl _ => mem
  | .inr (_, exitAddr) => putWords mem exitAddr exit

/-- `sh_exit_free`. A place outside the library goes back as it is. -/
def exitFree (mem : Mem) (inst : Inst) (readable mprotect : Bool) : ℤ × Mem :=
  match inst.exitType with
  | .outLibrary => (0, mem)
  | .inLibrary =>
    if readable = false then (SHADOWHOOK_ERRNO_UNHOOK_EXIT_CRASH, mem)
    else if loadWords mem inst.exitAddr 4 ≠ inst.exit then
      (SHADOWHOOK_ERRNO_UNHOOK_EXIT_MISMATCH, mem)
    else if mprotect = false then (SHADOWHOOK_ERRNO_MPROT, mem)
    else (0, putWords mem inst.exitAddr (List.replicate 4 0))

/-- The part that the two ways have in common: rewrite, then overwrite the head of the function. -/
def instPatch (inst : Inst) (mem : Mem) (targetAddr : BitVec 64) (trampo : List (BitVec 32))
    (ans : PatchAnswers) : ℤ × Inst × Mem :=
  if ans.mprotect = false then (SHADOWHOOK_ERRNO_MPROT, inst, mem)
  else if ans.readable = false then (SHADOWHOOK_ERRNO_HOOK_REWRITE_CRASH, inst, mem)
  else
    let (r, inst, mem) := instHookRewrite inst mem targetAddr trampo.length
    if r ≠ 0 then (r, inst, mem)
    else
      let (r, mem) := writeInst mem targetAddr trampo ans.write
      (r, { inst with trampo := trampo }, mem)

/-- `sh_inst_hook_with_exit`. -/
def instHookWithExit (inst : Inst) (mem : Mem) (targetAddr : BitVec 64) (ssize : ℕ)
    (newAddr : BitVec 64) (ans : HookAnswers) : ℤ × Inst × Mem :=
  if ssize < 4 then (SHADOWHOOK_ERRNO_HOOK_SYMSZ, inst, mem)
  else
    let inst := { inst with exit := (a64AbsoluteJumpWithBr newAddr).1 }
    let mem := exitAlloc mem inst.exit ans
    match ans.exit with
    | .inl r => (r, { inst with exitType := .inLibrary, exitAddr := 0 }, mem)
    | .inr (exitType, exitAddr) =>
      let inst := { inst with exitType := exitType, exitAddr := exitAddr }
      let trampo := (a64RelativeJump exitAddr targetAddr).1
      let (r, inst, mem) := instPatch inst mem targetAddr trampo ans.withExit
      if r = 0 then (0, inst, mem)
      else
        let (_, mem) := exitFree mem inst true ans.exitMprotect
        (r, { inst with exitAddr := 0 }, mem)

/-- `sh_inst_hook_without_exit`. -/
def instHookWithoutExit (inst : Inst) (mem : Mem) (targetAddr : BitVec 64) (ssize : ℕ)
    (newAddr : BitVec 64) (ans : HookAnswers) : ℤ × Inst × Mem :=
  if ssize < 16 then (SHADOWHOOK_ERRNO_HOOK_SYMSZ, inst, mem)
  else instPatch inst mem targetAddr (a64AbsoluteJumpWithBr newAddr).1 ans.withoutExit

/-- `sh_inst_hook`, with what is stored at `orig_addr` in the end: nothing without an enter. -/
def instHook (inst : Inst) (mem : Mem) (targetAddr : BitVec 64) (ssize : ℕ)
    (newAddr : BitVec 64) (ans : HookAnswers) : ℤ × Inst × Mem × Option (BitVec 64) :=
  let inst := { inst with enterAddr := ans.enterAddr }
  let mem := writeBytes mem ans.enterBytes
  if inst.enterAddr = 0 then (SHADOWHOOK_ERRNO_HOOK_ENTER, inst, mem, none)
  else
    let (r, inst, mem) := instHookWithExit inst mem targetAddr ssize newAddr ans
    if r = 0 then (r, inst, mem, some inst.enterAddr)
    else
      let (r, inst, mem) := instHookWithoutExit inst mem targetAddr ssize newAddr ans
      if r = 0 then (r, inst, mem, some inst.enterAddr) else (r, inst, mem, some 0)

/-- The answers of one unhook. -/
structure UnhookAnswers where
  readable : Bool
  write : WriteAnswer
  exitReadable : Bool
  exitMprotect : Bool
  deriving DecidableEq, Repr

/-- `sh_inst_unhook`. -/
def instUnhook (inst : Inst) (mem : Mem) (targetAddr : BitVec 64) (ans : UnhookAnswers) :
    ℤ × Mem :=
  if ans.readable = false then (SHADOWHOOK_ERRNO_UNHOOK_CMP_CRASH, mem)
  else if loadWords mem targetAddr inst.trampo.length ≠ inst.trampo then
    (SHADOWHOOK_ERRNO_UNHOOK_TRAMPO_MISMATCH, mem)
  else
    let (r, mem) := writeInst mem targetAddr inst.backup ans.write
    if r ≠ 0 then (r, mem)
    else if inst.exitAddr ≠ 0 then exitFree mem inst ans.exitReadable ans.exitMprotect
    else (0, mem)

end NativeLib.ShadowHook
