import NativeLib.FindSyscall.Instructions

/-! `findSyscalls` and the answer `BREAK_FIND_SYSCALL` of its callback. -/

namespace NativeLib.FindSyscall

open Collections Interaction

def breakFindSyscall : Bool := false

def continueFindSyscall : Bool := true

/-- `on_found_linker_syscall_arch64`: whether it hooks `func`, and its answer. The static `pass`
is never changed. -/
def onFoundLinkerSyscallArch64 (num : BitVec 32) : Bool × Bool :=
  let pass : ℕ := 0
  if num = 56 then (true, breakFindSyscall)
  else if pass = 5 then (false, breakFindSyscall)
  else (false, continueFindSyscall)

/-- A callback that looks at the call only. -/
def answerLast {w : ℕ} (f : BitVec 32 → Bool) (calls : List (Found w)) : Bool :=
  calls.getLast?.all fun found => f found.num

theorem answerLast_snoc {w : ℕ} (f : BitVec 32 → Bool) (before : List (Found w))
    (found : Found w) : answerLast f (before ++ [found]) = f found.num := by
  simp [answerLast]

/-- On aarch64 a call that hooks is a call that ends the search. -/
theorem break_of_hooked {w : ℕ} (before : List (Found w)) {found : Found w}
    (h : (onFoundLinkerSyscallArch64 found.num).1 = true) :
    answerLast (fun num => (onFoundLinkerSyscallArch64 num).2) (before ++ [found]) =
      breakFindSyscall := by
  rw [answerLast_snoc]
  simp only [onFoundLinkerSyscallArch64] at h ⊢
  by_cases hnum : found.num = 56
  · rw [if_pos hnum]
  · rw [if_neg hnum] at h
    exact absurd h (by decide)

/-- What the searches of `findSyscalls` find, line by line. -/
def scansIn (arch : Arch) (mem : BitVec arch.width → BitVec 8) (fuel : ℕ) (path : List Char) :
    List (List Char) → MapsVars arch.width → List (Batch (Found arch.width))
  | [], _ => []
  | buf :: bufs, v =>
    let v := sscanf buf v
    if matchesLine path buf v then
      scanOf arch mem fuel path v.begin v.end :: scansIn arch mem fuel path bufs v
    else scansIn arch mem fuel path bufs v

/-- The calls that `findSyscalls` makes in a process. -/
def callsOf (arch : Arch) (mem : BitVec arch.width → BitVec 8)
    (again : List (Found arch.width) → Bool) (fuel : ℕ) (maps : Option (List (List Char)))
    (path : List Char) (v : MapsVars arch.width) : List (Found arch.width) :=
  ((findSyscalls arch fuel maps path v).runWith (answer mem again) []).2.2

section

variable (arch : Arch) (mem : BitVec arch.width → BitVec 8)
  (again : List (Found arch.width) → Bool) (fuel : ℕ) (path : List Char)

theorem runWith_findSyscallsIn (bufs : List (List Char)) (v : MapsVars arch.width) (res : Bool)
    (calls : List (Found arch.width)) :
    ((findSyscallsIn arch fuel path bufs v res).runWith (answer mem again) calls).2.2 =
      calls ++ broughtIn (heed arch.heeds again) calls (scansIn arch mem fuel path bufs v) := by
  induction bufs generalizing v res calls with
  | nil => simp [findSyscallsIn, scansIn, broughtIn]
  | cons buf bufs ih =>
    rw [findSyscallsIn, scansIn]
    split_ifs with hline
    · rw [Prog.runWith_bind, runWith_searchMemorySyscall, broughtIn]
      set scan := scanOf arch mem fuel path (sscanf buf v).begin (sscanf buf v).end
      cases hgoes : GoesOn (heed arch.heeds again) calls scan.items <;> cases hends : scan.ends
      · simp [ih]
      · simp [ih]
      · simp
      · simp [ih]
    · exact ih _ _ _

theorem callsOf_eq (maps : Option (List (List Char))) (v : MapsVars arch.width) :
    callsOf arch mem again fuel maps path v = broughtIn (heed arch.heeds again) []
      (scansIn arch mem fuel path (maps.getD []) v) := by
  cases maps with
  | none => rfl
  | some bufs =>
    rw [callsOf, findSyscalls, runWith_findSyscallsIn, List.nil_append, Option.getD_some]

/-- After the callback answered `BREAK_FIND_SYSCALL` it is not called again exactly where no
site is left behind: on aarch64 none in the mappings that come next, on arm also none in the
same mapping. A callback that answers so whenever it hooks then hooks once at most. -/
theorem findSyscalls_break_iff (maps : Option (List (List Char))) (v : MapsVars arch.width) :
    (NothingAfterRefusal again (callsOf arch mem again fuel maps path v) ↔
      NothingBehind arch.heeds again (scansIn arch mem fuel path (maps.getD []) v)) ∧
    (NothingAfterRefusal again (callsOf arch mem again fuel maps path v) →
      ∀ hooks : Found arch.width → Bool,
        (∀ before found, hooks found = true → again (before ++ [found]) = breakFindSyscall) →
        ((callsOf arch mem again fuel maps path v).filter hooks).length ≤ 1) := by
  refine ⟨?_, fun h hooks hhooks => h.length_filter_le hhooks⟩
  rw [callsOf_eq]
  exact nothingAfterRefusal_broughtIn_iff

end

/-- The callback that hooks `openat` and says that the search is over. -/
def untilOpenat (calls : List (Found 64)) : Bool :=
  answerLast (fun num => (onFoundLinkerSyscallArch64 num).2) calls

/-- Two mappings of one file. -/
def twoMappings : List (List Char) :=
  ["1000-1008 r-xp l".toList, "2000-2008 r-xp l".toList]

/-- `movz x8, #56; svc #0`. -/
def openatCall : List (BitVec 32) := [movz 8 56, svc 0]

theorem findSyscalls_break_iff_oneCall :
    NothingBehind true untilOpenat (scansIn .aarch64 (memOf 0x1000 openatCall) 1 ['l'] twoMappings
      ⟨0, 0, []⟩) ∧
    ((callsOf .aarch64 (memOf 0x1000 openatCall) untilOpenat 1 (some twoMappings) ['l']
      ⟨0, 0, []⟩).filter fun found => (onFoundLinkerSyscallArch64 found.num).1).length ≤ 1 := by
  obtain ⟨hiff, honce⟩ := findSyscalls_break_iff .aarch64 (memOf 0x1000 openatCall) untilOpenat 1
    ['l'] (some twoMappings) ⟨0, 0, []⟩
  have hcalls : callsOf .aarch64 (memOf 0x1000 openatCall) untilOpenat 1 (some twoMappings) ['l']
      ⟨0, 0, []⟩ = [⟨['l'], 56, 0x1000⟩] := by decide +kernel
  have hnone : NothingAfterRefusal untilOpenat
      (callsOf .aarch64 (memOf 0x1000 openatCall) untilOpenat 1 (some twoMappings) ['l']
        ⟨0, 0, []⟩) := by
    rw [hcalls, NothingAfterRefusal, atEach_singleton]
    exact .inl rfl
  exact ⟨hiff.mp hnone, honce hnone _ fun before _ h => break_of_hooked before h⟩

/-- With a call at the start of every page the callback is called a second time. -/
theorem called_after_break :
    let mem := fun addr => memOf 0 openatCall (addr &&& (0xFFF : BitVec 64))
    let calls := callsOf .aarch64 mem untilOpenat 1 (some twoMappings) ['l'] ⟨0, 0, []⟩
    calls = [⟨['l'], 56, 0x1000⟩, ⟨['l'], 56, 0x2000⟩] ∧
      ¬ NothingAfterRefusal untilOpenat calls := by
  intro mem calls
  have hcalls : calls = [⟨['l'], 56, 0x1000⟩, ⟨['l'], 56, 0x2000⟩] := by decide +kernel
  refine ⟨hcalls, ?_⟩
  rw [hcalls, NothingAfterRefusal]
  decide

end NativeLib.FindSyscall
