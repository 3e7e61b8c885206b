import NativeLib.ShadowHook.Patching

/-! The tree of switches in unique mode: `sh_switch.cpp`, and what it makes of a process. -/

namespace NativeLib.ShadowHook

open Arm64

def SHADOWHOOK_ERRNO_OOM : ℤ := 4
def SHADOWHOOK_ERRNO_HOOK_DUP : ℤ := 20
def SHADOWHOOK_ERRNO_UNHOOK_NOTFOUND : ℤ := 27

/-- `sh_switch_t` without a hub. What the function leads to is not in the switch; it is kept here
beside it. -/
structure Switch where
  targetAddr : BitVec 64
  newAddr : BitVec 64
  inst : Inst
  deriving DecidableEq, Repr

/-- A process: its memory, the tree of switches, and the functions that are patched without a
switch. Nobody keeps the last; they are here to be talked about. -/
structure Process where
  mem : Mem
  switches : List Switch
  lost : List Switch

/-- The instructions of a switch that has just been made. -/
def Inst.zero : Inst := ⟨[], [], .outLibrary, 0, [], 0⟩

/-- Does an unhook get as far as to write the backup? -/
def Inst.Restored (inst : Inst) (mem : Mem) (targetAddr : BitVec 64) (ans : UnhookAnswers) : Prop :=
  ans.readable ∧ loadWords mem targetAddr inst.trampo.length = inst.trampo ∧ ans.write = .ok

instance (inst : Inst) (mem : Mem) (targetAddr : BitVec 64) (ans : UnhookAnswers) :
    Decidable (inst.Restored mem targetAddr ans) :=
  inferInstanceAs (Decidable (_ ∧ _ ∧ _))

namespace Process

def find (p : Process) (targetAddr : BitVec 64) : Option Switch :=
  p.switches.find? (·.targetAddr = targetAddr)

/-- All functions that are patched. -/
def patches (p : Process) : List Switch := p.switches ++ p.lost

/-- `sh_switch_hook_unique`. Between the search and the lock other threads may come in, so `found`
is what the search said. -/
def switchHookUnique (p : Process) (found memalign : Bool) (targetAddr newAddr : BitVec 64)
    (ssize : ℕ) (ans : HookAnswers) : ℤ × Process :=
  if found then (SHADOWHOOK_ERRNO_HOOK_DUP, p)
  else if memalign = false then (SHADOWHOOK_ERRNO_OOM, p)
  else if (p.find targetAddr).isSome then (SHADOWHOOK_ERRNO_HOOK_DUP, p)
  else
    let (r, inst, mem, _) := instHook .zero p.mem targetAddr ssize newAddr ans
    if r ≠ 0 then (r, { p with mem := mem })
    else (r, { p with mem := mem, switches := ⟨targetAddr, newAddr, inst⟩ :: p.switches })

/-- `sh_switch_hook_unique_invisible`. -/
def switchHookUniqueInvisible (p : Process) (targetAddr newAddr : BitVec 64) (ssize : ℕ)
    (ans : HookAnswers) : ℤ × Process :=
  let (r, inst, mem, _) := instHook .zero p.mem targetAddr ssize newAddr ans
  if r ≠ 0 then (r, { p with mem := mem })
  else (r, { p with mem := mem, lost := ⟨targetAddr, newAddr, inst⟩ :: p.lost })

/-- `sh_switch_unhook_unique`. The switch goes, whatever comes of the unhook. -/
def switchUnhookUnique (p : Process) (targetAddr : BitVec 64) (ans : UnhookAnswers) :
    ℤ × Process :=
  match p.find targetAddr with
  | none => (SHADOWHOOK_ERRNO_UNHOOK_NOTFOUND, p)
  | some switch =>
    let (r, mem) := instUnhook switch.inst p.mem targetAddr ans
    (r, {
      mem := mem
      switches := p.switches.filter (·.targetAddr ≠ targetAddr)
      lost :=
        if switch.inst.Restored p.mem targetAddr ans then p.lost else switch :: p.lost })

end Process

/-- What the threads of a process do to it. -/
inductive Op
  | hook (found memalign : Bool) (targetAddr newAddr : BitVec 64) (ssize : ℕ) (ans : HookAnswers)
  | hookInvisible (targetAddr newAddr : BitVec 64) (ssize : ℕ) (ans : HookAnswers)
  | unhook (targetAddr : BitVec 64) (ans : UnhookAnswers)
  | store (a : BitVec 64) (byte : BitVec 8)
  deriving DecidableEq, Repr

namespace Process

def step (p : Process) : Op → ℤ × Process
  | .hook found memalign targetAddr newAddr ssize ans =>
    p.switchHookUnique found memalign targetAddr newAddr ssize ans
  | .hookInvisible targetAddr newAddr ssize ans =>
    p.switchHookUniqueInvisible targetAddr newAddr ssize ans
  | .unhook targetAddr ans => p.switchUnhookUnique targetAddr ans
  | .store a byte => (0, { p with mem := Function.update p.mem a byte })

end Process

namespace Switch

/-- The bytes of the function that are overwritten. -/
def Head (switch : Switch) (b : BitVec 64) : Prop :=
  Spans switch.targetAddr (4 * switch.inst.backup.length) b

/-- The bytes outside the function that the patch lives on. -/
def Room (switch : Switch) (b : BitVec 64) : Prop :=
  Spans switch.inst.enterAddr 256 b ∨
    switch.inst.exitAddr ≠ 0 ∧ Spans switch.inst.exitAddr 16 b

/-- All bytes of a patch. -/
def Region (switch : Switch) (b : BitVec 64) : Prop := switch.Head b ∨ switch.Room b

def Apart (switch switch' : Switch) : Prop := ∀ b, switch.Region b → ¬ switch'.Region b

theorem Apart.symm {switch switch' : Switch} (h : switch.Apart switch') : switch'.Apart switch :=
  fun b hb hb' => h b hb' hb

/-- The patch is in place. -/
structure InPlace (switch : Switch) (mem : Mem) : Prop where
  patches : switch.inst.Patches switch.targetAddr switch.newAddr mem
  noWrap : switch.targetAddr.toNat + 16 < 2 ^ 64
  inner : ∀ b, switch.Head b → ¬ switch.Room b

end Switch

/-- The patches are all in place, and no two share a byte. -/
structure Together (mem : Mem) (switches : List Switch) : Prop where
  inPlace : ∀ switch ∈ switches, switch.InPlace mem
  apart : switches.Pairwise Switch.Apart

namespace Process

def Sound (p : Process) : Prop := Together p.mem p.patches

/-- What is asked of a hook: that the function does not overlap a patched one, and that the
allocators hand out what nobody uses. -/
def Free (p : Process) (targetAddr : BitVec 64) (ssize : ℕ) (ans : HookAnswers) : Prop :=
  targetAddr.toNat + 16 < 2 ^ 64 ∧ ans.Roomy targetAddr ssize ∧
    ∀ switch ∈ p.patches, ∀ b, Spans targetAddr (min ssize 16) b ∨ ans.Private b →
      ¬ switch.Region b

/-- What is asked of the threads. A function that has a switch may be hooked again: nothing comes
of it. The program does not write to what is patched. -/
def Allows (p : Process) : Op → Prop
  | .hook found memalign targetAddr _ ssize ans =>
    found = false → memalign = true → p.find targetAddr = none → p.Free targetAddr ssize ans
  | .hookInvisible targetAddr _ ssize ans => p.Free targetAddr ssize ans
  | .unhook .. => True
  | .store a _ => ∀ switch ∈ p.patches, ¬ switch.Region a

/-- The threads take steps that they may take. -/
inductive Run : Process → List Op → Process → Prop
  | nil (p : Process) : Run p [] p
  | cons {p q : Process} {op : Op} {ops : List Op} (hop : p.Allows op)
      (hrun : Run (p.step op).2 ops q) : Run p (op :: ops) q

end Process

end NativeLib.ShadowHook
