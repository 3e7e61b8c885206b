import Mathlib.Algebra.Group.Nat.Defs
import NativeLib.ShadowHook.Systems

/-! The exits of `sh_exit.cpp` in the gaps between the segments of a library. -/

namespace NativeLib.ShadowHook

def SH_EXIT_GAPS_CAP : ℕ := 16

/-- `0xD4200000D4200000`, the lowest byte first. -/
def SH_EXIT_CLEAR_FLAG : List (BitVec 8) := [0x00, 0x00, 0x20, 0xD4, 0x00, 0x00, 0x20, 0xD4]

/-- `SH_UTIL_ALIGN_START`. -/
def alignStart (x align : ℕ) : ℕ := x / align * align

/-- `SH_UTIL_PAGE_START`. -/
def pageStart (x : ℕ) : ℕ := alignStart x 0x1000

/-- `SH_UTIL_PAGE_END`. -/
def pageEnd (x : ℕ) : ℕ := alignEnd x 0x1000

/-- A program header: is it `PT_LOAD`, has it `PF_X`, has it `PF_R`? -/
structure Phdr where
  load : Bool
  execute : Bool
  read : Bool
  vaddr : ℕ
  filesz : ℕ
  memsz : ℕ
  deriving DecidableEq, Repr

/-- `sh_exit_gap_t`. -/
structure Gap where
  start : ℕ
  stop : ℕ
  needFillZero : Bool
  readable : Bool
  deriving DecidableEq, Repr

def Phdr.stop (base : ℕ) (phdr : Phdr) : ℕ := base + phdr.vaddr + phdr.memsz

/-- One turn of `sh_exit_get_gaps`. -/
def Phdr.gap (base : ℕ) (cur : Phdr) (next : Option Phdr) : Gap :=
  let curEnd := cur.stop base
  let curPageEnd := pageEnd curEnd
  let curFilePageEnd := pageEnd (base + cur.vaddr + cur.filesz)
  let nextPageStart := match next with
    | none => curPageEnd
    | some next => pageStart (base + next.vaddr)
  if cur.execute then
    ⟨alignEnd curEnd 0x10, nextPageStart, true, cur.read && curPageEnd == nextPageStart⟩
  else if curPageEnd > curFilePageEnd then
    ⟨alignEnd curEnd 0x10, nextPageStart, false, cur.read && curPageEnd == nextPageStart⟩
  else if nextPageStart > curPageEnd then ⟨curPageEnd, nextPageStart, true, false⟩
  else ⟨0, 0, false, false⟩

def Gap.wide (gap : Gap) : Bool :=
  if gap.needFillZero then gap.stop > gap.start + 0x10 else gap.stop > gap.start

/-- `sh_exit_get_gaps`, where there is room for so many more. -/
def getGaps (base : ℕ) (byKernel : Bool) : ℕ → List Phdr → List Gap
  | _, [] => []
  | room, cur :: phdrs =>
    if cur.load = false then getGaps base byKernel room phdrs
    else
      let gap := cur.gap base (if byKernel then none else phdrs.find? (·.load))
      if gap.wide = false then getGaps base byKernel room phdrs
      else gap :: if room ≤ 1 then [] else getGaps base byKernel (room - 1) phdrs

/-- A library that has been loaded: its segments follow each other, on pages of their own.
`byKernel` is what `sh_exit_is_elf_loaded_by_kernel` says of its addresses. -/
structure Library where
  base : ℕ
  phdrs : List Phdr
  byKernel : Bool
  ordered : (phdrs.filter (·.load)).Pairwise fun p q =>
    pageEnd (p.stop base) ≤ pageStart (base + q.vaddr)
  bound : ∀ p ∈ phdrs, p.load = true → pageEnd (p.stop base) ≤ UINTPTR_MAX

def Library.gaps (lib : Library) : List Gap :=
  getGaps lib.base lib.byKernel SH_EXIT_GAPS_CAP lib.phdrs

/-- The code of an exit. -/
structure ExitCode where
  bytes : List (BitVec 8)
  length : bytes.length = SH_EXIT_SZ
  nonzero : bytes ≠ List.replicate SH_EXIT_SZ 0
  deriving DecidableEq

/-- What an exit is asked for. The range ends before the addresses do. -/
structure ExitCall where
  pc : ℕ
  rangeLow : ℕ
  rangeHigh : ℕ
  exit : ExitCode
  bound : rangeHigh ≤ UINTPTR_MAX - pc

/-- May the memory at an address be made writable, and can it be read? -/
structure GapAnswers where
  mprotect : ℕ → Bool
  readable : ℕ → Bool

def bytesAt (mem : ℕ → BitVec 8) (start n : ℕ) : List (BitVec 8) :=
  (List.range n).map fun i => mem (start + i)

/-- `memcpy` and `memset`. -/
def putBytes (mem : ℕ → BitVec 8) (start : ℕ) (bytes : List (BitVec 8)) : ℕ → BitVec 8 :=
  fun a => if start ≤ a ∧ a < start + bytes.length then bytes.getD (a - start) 0 else mem a

/-- How a part of the allocation ends. `left` is the `return` that goes past the end of
`SH_SIG_TRY`, and with it past `pthread_mutex_unlock`. -/
inductive GapResult
  | ok (addr : ℕ)
  | failed
  | crashed
  | left
  deriving DecidableEq, Repr

/-- `sh_exit_is_zero`. -/
def isZero (mem : ℕ → BitVec 8) (buf : ℕ) : Bool :=
  bytesAt mem buf SH_EXIT_SZ = List.replicate SH_EXIT_SZ 0

namespace Gap

variable (ans : GapAnswers) (call : ExitCall) (gap : Gap) (mem : ℕ → BitVec 8)

/-- The middle of `sh_exit_fill_zero`. -/
def fill : ℕ → BitVec 8 :=
  putBytes (putBytes mem gap.start (List.replicate (gap.stop - gap.start) 0)) gap.start
    SH_EXIT_CLEAR_FLAG

/-- `sh_exit_fill_zero`, which answers where the gap begins. -/
def fillZero : GapResult × (ℕ → BitVec 8) :=
  if gap.readable = false ∧ ans.mprotect gap.start = false then (.failed, mem)
  else if ans.readable gap.start = false then (.crashed, mem)
  else if bytesAt mem gap.start 8 = SH_EXIT_CLEAR_FLAG then (.ok gap.start, mem)
  else if gap.readable = true ∧ ans.mprotect gap.start = false then (.failed, mem)
  else (.ok gap.start, gap.fill mem)

/-- The loop of `sh_exit_try_alloc_in_library`: from `cur` on, as many places as are left. -/
def tryLoop : ℕ → ℕ → GapResult × (ℕ → BitVec 8)
  | 0, _ => (.failed, mem)
  | n + 1, cur =>
    if ans.readable cur = false then (.crashed, mem)
    else if isZero mem cur = false then tryLoop n (cur + SH_EXIT_SZ)
    else if ans.mprotect cur = false then (.failed, mem)
    else (.ok cur, putBytes mem cur call.exit.bytes)

/-- `sh_exit_try_alloc_in_library`. -/
def tryAlloc : GapResult × (ℕ → BitVec 8) :=
  let start := if call.pc ≥ call.rangeLow then max gap.start (call.pc - call.rangeLow)
    else gap.start
  let start := alignEnd start SH_EXIT_SZ
  let stop := if call.rangeHigh ≤ UINTPTR_MAX - call.pc then
      min (gap.stop - SH_EXIT_SZ) (call.pc + call.rangeHigh)
    else gap.stop
  let stop := alignStart stop SH_EXIT_SZ
  if stop < start then (.failed, mem)
  else tryLoop ans call mem ((stop - start) / SH_EXIT_SZ + 1) start

end Gap

/-- The loop of `sh_exit_alloc_in_library`. -/
def allocLoop (ans : GapAnswers) (call : ExitCall) :
    List Gap → (ℕ → BitVec 8) → GapResult × (ℕ → BitVec 8)
  | [], mem => (.failed, mem)
  | gap :: gaps, mem =>
    match if gap.needFillZero then gap.fillZero ans mem else (.ok gap.start, mem) with
    | (.ok _, mem) =>
      match gap.tryAlloc ans call mem with
      | (.failed, mem) => allocLoop ans call gaps mem
      | found => found
    | (.failed, mem) => (.left, mem)
    | crashed => crashed

/-- The memory, whether `sh_exit_lock` is held for good, and the exits that are in use. -/
structure GapSystem where
  mem : ℕ → BitVec 8
  locked : Bool
  exits : List (ℕ × ExitCode)

namespace GapSystem

variable (s : GapSystem)

/-- `sh_exit_alloc_in_library`. -/
def allocInLibrary (lib : Library) (call : ExitCall) (ans : GapAnswers) :
    Option (GapResult × GapSystem) :=
  if s.locked then none
  else match allocLoop ans call lib.gaps s.mem with
    | (.ok addr, mem) => some (.ok addr, ⟨mem, false, (addr, call.exit) :: s.exits⟩)
    | (result, mem) => some (result, ⟨mem, result = .left, s.exits⟩)

/-- `sh_exit_free_in_library`. Only the first error is of the exit itself. -/
def freeInLibrary (exit : ℕ × ExitCode) (ans : GapAnswers) : Option (GapResult × GapSystem) :=
  if s.locked then none
  else if ans.readable exit.1 = false then some (.crashed, s)
  else if bytesAt s.mem exit.1 SH_EXIT_SZ ≠ exit.2.bytes then some (.failed, s)
  else if ans.mprotect exit.1 = false then some (.failed, s)
  else some (.ok exit.1, ⟨putBytes s.mem exit.1 (List.replicate SH_EXIT_SZ 0), false,
    s.exits.filter (·.1 ≠ exit.1)⟩)

end GapSystem

/-- What is done to the exits of a library. -/
inductive GapEvent
  | alloc (call : ExitCall) (ans : GapAnswers)
  | free (exit : ℕ × ExitCode) (ans : GapAnswers)

namespace GapSystem

/-- Only an exit that is in use is given back. What waits for the lock forever is no step. -/
def step (lib : Library) (s : GapSystem) : GapEvent → Option (GapResult × GapSystem)
  | .alloc call ans => s.allocInLibrary lib call ans
  | .free exit ans => s.freeInLibrary exit ans

/-- A run. -/
inductive Run (lib : Library) : GapSystem → GapSystem → Prop
  | nil (s : GapSystem) : Run lib s s
  | cons {s s' s'' : GapSystem} {event : GapEvent} {result : GapResult}
      (hlive : ∀ exit ans, event = .free exit ans → exit ∈ s.exits)
      (hstep : s.step lib event = some (result, s')) (hrest : Run lib s' s'') : Run lib s s''

end GapSystem

end NativeLib.ShadowHook
