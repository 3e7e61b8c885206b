import NativeLib.Collections.Batches
import NativeLib.FindSyscall.BinarySyscallFinder

/-! What `search_memory_syscall` passes on its way through memory, and what it makes of it. -/

namespace NativeLib.FindSyscall

open Collections Interaction
open Prog (visits ends)

/-- What the test on aarch64 finds at an address. -/
def aarch64Site (mem : BitVec 64 → BitVec 8) (path : List Char) (start : BitVec 64) :
    Option (Found 64) :=
  if wordAt mem (start + 4) = aarch64Svc0 ∧ aarch64IsMov (wordAt mem start) = true then
    some ⟨path, aarch64Num (wordAt mem start), start⟩
  else none

/-- What the test on arm finds at an address. -/
def armSite (mem : BitVec 32 → BitVec 8) (path : List Char) (start : BitVec 32) :
    Option (Found 32) :=
  if wordAt mem start = 0xE1A0C007 ∧ armIsMovR7Imm (wordAt mem (start + 4)) = true ∧
      wordAt mem (start + 8) = 0xEF000000 then
    some ⟨path, armNum (wordAt mem (start + 4)), 0⟩
  else none

namespace Arch

def site : (arch : Arch) → (BitVec arch.width → BitVec 8) → List Char → BitVec arch.width →
    Option (Found arch.width)
  | .aarch64 => aarch64Site
  | .arm => armSite

def step : (arch : Arch) → BitVec arch.width → BitVec arch.width
  | .aarch64, start => start + 4
  | .arm, start => start + 1

/-- The last address is not behind the limit. -/
def limit : (arch : Arch) → BitVec arch.width → BitVec arch.width
  | .aarch64, «end» => «end» - 4 * 2
  | .arm, «end» => «end» - 4 * 4

/-- The loop breaks off when the callback says so. -/
def heeds : Arch → Bool
  | .aarch64 => true
  | .arm => false

end Arch

/-- What the scan of a range finds if it is not told to stop, and whether it comes to an end. -/
def scanOf (arch : Arch) (mem : BitVec arch.width → BitVec 8) (fuel : ℕ) (path : List Char)
    (begin «end» : BitVec arch.width) : Batch (Found arch.width) where
  items := (visits arch.step (· < arch.limit «end») fuel begin).filterMap (arch.site mem path)
  ends := ends arch.step (· < arch.limit «end») fuel begin

section

variable {w : ℕ} {mem : BitVec w → BitVec 8} {again : List (Found w) → Bool}
  {calls : List (Found w)} {α : Type}

@[simp] theorem runWith_insnAt_bind (addr : BitVec w) (f : BitVec 32 → ScanProg w α) :
    ((insnAt addr >>= f).runWith (answer mem again) calls).2 =
      ((f (wordAt mem addr)).runWith (answer mem again) calls).2 := rfl

@[simp] theorem runWith_callback_bind (found : Found w) (f : Bool → ScanProg w α) :
    ((callback found >>= f).runWith (answer mem again) calls).2 =
      ((f (again (calls ++ [found]))).runWith (answer mem again) (calls ++ [found])).2 := rfl

end

/-- What a search calls and whether it is through. -/
theorem runWith_searchMemorySyscall (arch : Arch) (mem : BitVec arch.width → BitVec 8)
    (again : List (Found arch.width) → Bool) (fuel : ℕ) (path : List Char)
    (begin «end» : BitVec arch.width) (calls : List (Found arch.width)) :
    let scan := scanOf arch mem fuel path begin «end»
    ((searchMemorySyscall arch fuel path begin «end»).runWith (answer mem again) calls).2 =
      (if GoesOn (heed arch.heeds again) calls scan.items then
          if scan.ends then some () else none
        else some (),
        calls ++ brought (heed arch.heeds again) calls scan.items) := by
  cases arch with
  | aarch64 =>
    intro scan
    rw [searchMemorySyscall, searchMemorySyscallAarch64, Prog.doWhile_eq_forWhile]
    refine Prog.runWith_forWhile (aarch64Site mem path) (heed true again) ?_ _ _ _
    intro start calls
    rw [runWith_insnAt_bind, aarch64Site]
    by_cases hsvc : wordAt mem (start + 4) = aarch64Svc0
    · rw [if_pos hsvc, runWith_insnAt_bind]
      by_cases hmov : aarch64IsMov (wordAt mem start) = true
      · rw [if_pos hmov, if_pos ⟨hsvc, hmov⟩]
        rfl
      · rw [if_neg hmov, if_neg fun h => hmov h.2]
        simp
    · rw [if_neg hsvc, if_neg fun h => hsvc h.1]
      simp
  | arm =>
    intro scan
    rw [searchMemorySyscall, searchMemorySyscallArm, Prog.doWhile_eq_forWhile]
    refine Prog.runWith_forWhile (armSite mem path) (heed false again) ?_ _ _ _
    intro start calls
    rw [runWith_insnAt_bind, armSite]
    by_cases hmov : wordAt mem start = 0xE1A0C007
    · rw [if_pos hmov, runWith_insnAt_bind]
      by_cases himm : armIsMovR7Imm (wordAt mem (start + 4)) = true
      · rw [if_pos himm, runWith_insnAt_bind]
        by_cases hsvc : wordAt mem (start + 8) = 0xEF000000
        · rw [if_pos hsvc, if_pos ⟨hmov, himm, hsvc⟩]
          rfl
        · rw [if_neg hsvc, if_neg fun h => hsvc h.2.2]
          simp
      · rw [if_neg himm, if_neg fun h => himm h.2.1]
        simp
    · rw [if_neg hmov, if_neg fun h => hmov h.1]
      simp

/-- The words from an address on; everything else is zero. -/
def memOf {w : ℕ} (start : ℕ) (words : List (BitVec 32)) (addr : BitVec w) : BitVec 8 :=
  if addr.toNat < start then 0
  else
    let offset := addr.toNat - start
    (words.getD (offset / 4) 0).extractLsb' (8 * (offset % 4)) 8

end NativeLib.FindSyscall
