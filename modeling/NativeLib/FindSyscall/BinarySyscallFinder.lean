import Mathlib.Data.List.Infix
import NativeLib.Interaction.Loops

/-! `findsyscall/BinarySyscallFinder.cpp`: the search for system calls in the code of a library.
The reads of memory and the calls of the callback are the commands. Loops over memory go at most
`fuel` times round. -/

namespace NativeLib.FindSyscall

open Interaction
open Prog (call doWhile)

inductive Arch where
  | aarch64
  | arm
  deriving DecidableEq, Repr

/-- The bits of `addr_t`. -/
@[reducible] def Arch.width : Arch → ℕ
  | .aarch64 => 64
  | .arm => 32

variable {w : ℕ}

/-- `callback(path, num, func)`. -/
structure Found (w : ℕ) where
  path : List Char
  num : BitVec 32
  func : BitVec w
  deriving DecidableEq, Repr

inductive ScanCall (w : ℕ) where
  | insn (addr : BitVec w)
  | callback (found : Found w)
  deriving DecidableEq, Repr

inductive ScanAnswer where
  | insn (value : BitVec 32)
  | found (again : Bool)
  deriving DecidableEq, Repr

abbrev ScanProg (w : ℕ) := Prog (ScanCall w) ScanAnswer

/-- `*reinterpret_cast<int32_t *>(addr)`. -/
def insnAt (addr : BitVec w) : ScanProg w (BitVec 32) := do
  match ← call (.insn addr) with
  | .insn value => pure value
  | _ => pure 0

/-- `(*callback)(path, num, func)`. -/
def callback (found : Found w) : ScanProg w Bool := do
  match ← call (.callback found) with
  | .found again => pure again
  | _ => pure false

def aarch64Svc0 : BitVec 32 := 0xD4000001

def aarch64IsMov (insn : BitVec 32) : Bool := insn &&& 0xFFE0001F == 0xD2800008

/-- `(unsigned) ((insn >> 5) & 0xFFFF)`. -/
def aarch64Num (insn : BitVec 32) : BitVec 32 := insn.sshiftRight 5 &&& 0xFFFF

/-- `search_memory_syscall` on aarch64. -/
def searchMemorySyscallAarch64 (fuel : ℕ) (path : List Char) (begin «end» : BitVec 64) :
    ScanProg 64 (Option Unit) :=
  let limit := «end» - 4 * 2
  doWhile (fun start => do
    if (← insnAt (start + 4)) = aarch64Svc0 then
      let insn ← insnAt start
      if aarch64IsMov insn then callback ⟨path, aarch64Num insn, start⟩
      else pure true
    else pure true) (· + 4) (· < limit) fuel begin

def armIsMovR7Imm (insn : BitVec 32) : Bool := insn &&& 0xFF00F000 == 0xE3007000

/-- `((value & 0xF0000) >> 4) | (value & 0x00FFF)`. -/
def armNum (value : BitVec 32) : BitVec 32 :=
  (value &&& 0xF0000).sshiftRight 4 ||| value &&& 0x00FFF

/-- `search_memory_syscall` on arm. The answer of the callback is not looked at. -/
def searchMemorySyscallArm (fuel : ℕ) (path : List Char) (begin «end» : BitVec 32) :
    ScanProg 32 (Option Unit) :=
  let limit := «end» - 4 * 4
  doWhile (fun start => do
    if (← insnAt start) = 0xE1A0C007 then
      let value ← insnAt (start + 4)
      if armIsMovR7Imm value then
        if (← insnAt (start + 8)) = 0xEF000000 then
          let _ ← callback ⟨path, armNum value, 0⟩
          pure true
        else pure true
      else pure true
    else pure true) (· + 1) (· < limit) fuel begin

def searchMemorySyscall : (arch : Arch) → ℕ → List Char → BitVec arch.width → BitVec arch.width →
    ScanProg arch.width (Option Unit)
  | .aarch64 => searchMemorySyscallAarch64
  | .arm => searchMemorySyscallArm

/-- `has_code`: the loop looks at all five characters, also behind the end of the string. -/
def hasCode (perm : List Char) : Bool :=
  (perm.take 5).any (· == 'r') && (perm.take 5).any (· == 'x')

/-- `isspace`. -/
def isSpace (c : Char) : Bool := c ∈ [' ', '\t', '\n', '\x0b', '\x0c', '\r']

/-- The value of a hexadecimal digit. -/
def xdigit (c : Char) : Option ℕ :=
  if '0' ≤ c ∧ c ≤ '9' then some (c.toNat - '0'.toNat)
  else if 'a' ≤ c ∧ c ≤ 'f' then some (c.toNat - 'a'.toNat + 10)
  else if 'A' ≤ c ∧ c ≤ 'F' then some (c.toNat - 'A'.toNat + 10)
  else none

/-- `sscanf("%lx")`: the value and what is left. Digits that do not fit are cut off; what they
stand for is not defined. -/
def scanHex (w : ℕ) (s : List Char) : Option (BitVec w × List Char) :=
  let s := s.dropWhile isSpace
  let (negative, s) := match s with
    | '-' :: s => (true, s)
    | '+' :: s => (false, s)
    | s => (false, s)
  let s := match s with
    | '0' :: x :: d :: s' => if (x == 'x' || x == 'X') && (xdigit d).isSome then d :: s' else s
    | s => s
  match s.takeWhile fun c => (xdigit c).isSome with
  | [] => none
  | digits =>
    let value := BitVec.ofNat w (digits.foldl (fun v c => 16 * v + (xdigit c).getD 0) 0)
    some (if negative then -value else value, s.drop digits.length)

/-- The variables of `findSyscalls` that decide what is searched. They keep their values from
line to line, and before the first line they hold anything. -/
structure MapsVars (w : ℕ) where
  begin : BitVec w
  «end» : BitVec w
  perm : List Char
  deriving DecidableEq, Repr

/-- `sscanf(buf, "%lx-%lx %4s", &begin, &end, perm)`, as far as the line has the form. The string
is written over the first characters of `perm`. -/
def sscanf (buf : List Char) (v : MapsVars w) : MapsVars w :=
  match scanHex w buf with
  | none => v
  | some (begin, rest) =>
    let v := { v with begin }
    match rest with
    | '-' :: rest =>
      match scanHex w rest with
      | none => v
      | some («end», rest) =>
        let v := { v with «end» }
        match ((rest.dropWhile isSpace).take 4).takeWhile fun c => !isSpace c with
        | [] => v
        | word => { v with perm := word ++ '\x00' :: v.perm.drop (word.length + 1) }
    | _ => v

/-- `strstr(buf, path) && has_code(perm)`. -/
def matchesLine (path buf : List Char) (v : MapsVars w) : Bool :=
  decide (path <:+: buf) && hasCode v.perm

/-- The loop of `findSyscalls` over the lines that `fgets` reads. -/
def findSyscallsIn (arch : Arch) (fuel : ℕ) (path : List Char) :
    List (List Char) → MapsVars arch.width → Bool → ScanProg arch.width (Option Bool)
  | [], _, res => pure (some res)
  | buf :: bufs, v, res => do
    let v := sscanf buf v
    if matchesLine path buf v then
      match ← searchMemorySyscall arch fuel path v.begin v.end with
      | none => pure none
      | some () => findSyscallsIn arch fuel path bufs v true
    else findSyscallsIn arch fuel path bufs v res

/-- `findSyscalls`, for what `/proc/self/maps` holds, if it can be opened, and what the
variables hold. -/
def findSyscalls (arch : Arch) (fuel : ℕ) (maps : Option (List (List Char))) (path : List Char)
    (v : MapsVars arch.width) : ScanProg arch.width (Option Bool) :=
  match maps with
  | none => pure (some false)
  | some bufs => findSyscallsIn arch fuel path bufs v false

/-- The four bytes at an address, the lowest first. -/
def wordAt (mem : BitVec w → BitVec 8) (addr : BitVec w) : BitVec 32 :=
  mem (addr + 3) ++ mem (addr + 2) ++ mem (addr + 1) ++ mem addr

/-- A process: its memory, and a callback that is asked with all calls so far. The calls are
kept. -/
def answer (mem : BitVec w → BitVec 8) (again : List (Found w) → Bool) (calls : List (Found w)) :
    ScanCall w → ScanAnswer × List (Found w)
  | .insn addr => (.insn (wordAt mem addr), calls)
  | .callback found => (.found (again (calls ++ [found])), calls ++ [found])

end NativeLib.FindSyscall
