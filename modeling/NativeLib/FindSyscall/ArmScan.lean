import Mathlib.Data.List.Pairwise
import NativeLib.FindSyscall.Instructions
import NativeLib.Interaction.Sweeps

/-! `search_memory_syscall` on arm against what it is for: the system calls of a range, each
with its address and its number. -/

namespace NativeLib.FindSyscall

open Collections Interaction
open Prog (visits ends)

variable {mem : BitVec 32 → BitVec 8} {path : List Char} {begin «end» : BitVec 32}

/-- `mov ip, r7`, a load of the immediate `value` into `r7`, `svc 0`. -/
def Syscall32 (mem : BitVec 32 → BitVec 8) (p value : BitVec 32) : Prop :=
  wordAt mem p = 0xE1A0C007 ∧ loadsR7 (wordAt mem (p + 4)) = some value ∧
    wordAt mem (p + 8) = 0xEF000000

/-- What the loop looks for. -/
def Passes32 (mem : BitVec 32 → BitVec 8) (p : BitVec 32) : Prop :=
  wordAt mem p = 0xE1A0C007 ∧ armIsMovR7Imm (wordAt mem (p + 4)) = true ∧
    wordAt mem (p + 8) = 0xEF000000

/-- A system call that lies in the range, as the callback is to be told of it. -/
def IsSyscall32 (mem : BitVec 32 → BitVec 8) (path : List Char) (begin «end» : BitVec 32)
    (x : Found 32) : Prop :=
  ∃ value p, 4 ∣ p.toNat ∧ begin.toNat ≤ p.toNat ∧ p.toNat + 12 ≤ «end».toNat ∧
    Syscall32 mem p value ∧ x = ⟨path, value, p⟩

/-- The system calls of the range, each once, in ascending order. -/
def Syscalls32 (mem : BitVec 32 → BitVec 8) (path : List Char) (begin «end» : BitVec 32)
    (calls : List (Found 32)) : Prop :=
  calls.Pairwise (·.func < ·.func) ∧ ∀ x, x ∈ calls ↔ IsSyscall32 mem path begin «end» x

/-- Where the loop stands in its course. -/
def Visited32 (begin «end» p : BitVec 32) : Prop := p = begin ∨ begin < p ∧ p < «end» - 4 * 4

theorem Syscall32.passes {p value : BitVec 32} (h : Syscall32 mem p value) : Passes32 mem p :=
  ⟨h.1, armIsMovR7Imm_of_loads h.2.1, h.2.2⟩

theorem Syscall32.unique {p value value' : BitVec 32} (h : Syscall32 mem p value)
    (h' : Syscall32 mem p value') : value = value' :=
  Option.some_inj.mp (h.2.1.symm.trans h'.2.1)

theorem armSite_eq_some {p : BitVec 32} {x : Found 32} : armSite mem path p = some x ↔
    Passes32 mem p ∧ x = ⟨path, armNum (wordAt mem (p + 4)), 0⟩ := by
  rw [armSite, Option.ite_none_right_eq_some, Option.some_inj, Passes32, eq_comm (b := x)]

/-- The loop goes byte by byte. -/
theorem visits_arm (hlen : begin.toNat + 12 ≤ «end».toNat) {fuel : ℕ} (hfuel : 2 ^ 32 ≤ fuel) :
    (visits (· + 1) (· < «end» - 4 * 4) fuel begin).Pairwise (· < ·) ∧
      (∀ p, p ∈ visits (· + 1) (· < «end» - 4 * 4) fuel begin ↔ Visited32 begin «end» p) ∧
      ends (· + 1) (· < «end» - 4 * 4) fuel begin = true := by
  have hend := «end».isLt
  have hlimit := («end» - 4 * 4).isLt
  obtain ⟨n, hn, hgo, hstop, hover⟩ : ∃ n, 0 < n ∧
      (∀ i, 0 < i → i < n → begin.toNat + 1 * i < («end» - 4 * 4).toNat) ∧
      («end» - 4 * 4).toNat ≤ begin.toNat + 1 * n ∧ begin.toNat + 1 * n < 2 ^ 32 := by
    rcases Nat.lt_or_ge (begin.toNat + 1) («end» - 4 * 4).toNat with h | h
    · exact ⟨(«end» - 4 * 4).toNat - begin.toNat, by omega, by omega, by omega, by omega⟩
    · exact ⟨1, by omega, by omega, by omega, by omega⟩
  obtain ⟨hvisits, hends⟩ := visits_strided 1 n begin («end» - 4 * 4) hn hgo hstop hover
    (by omega : n ≤ fuel)
  have hlt : ∀ i < n, begin.toNat + 1 * i < 2 ^ 32 := by omega
  have hvisits : visits (· + 1) (· < «end» - 4 * 4) fuel begin = strided 1 begin n := hvisits
  rw [hvisits]
  refine ⟨strided_sorted (by omega) hlt, fun p => ?_, hends⟩
  rw [mem_strided hlt, Visited32, ← BitVec.toNat_inj, BitVec.lt_def, BitVec.lt_def]
  refine ⟨?_, ?_⟩
  · rintro ⟨i, hi, hp⟩
    rcases Nat.eq_zero_or_pos i with rfl | hpos
    · exact .inl (by omega)
    · have := hgo i hpos hi
      exact .inr (by omega)
  · rintro (hp | ⟨hp, hlast⟩)
    · exact ⟨0, hn, by omega⟩
    · exact ⟨p.toNat - begin.toNat, by omega, by omega⟩

/-- The search ends, with a call for every place it passes that it is looking for. -/
theorem searchMemorySyscallArm_run (mem : BitVec 32 → BitVec 8)
    (again : List (Found 32) → Bool) (path : List Char) (hlen : begin.toNat + 12 ≤ «end».toNat)
    {fuel : ℕ} (hfuel : 2 ^ 32 ≤ fuel) :
    ((searchMemorySyscallArm fuel path begin «end»).runWith (answer mem again) []).2 =
      (some (), (visits (· + 1) (· < «end» - 4 * 4) fuel begin).filterMap (armSite mem path)) := by
  have hrun := runWith_searchMemorySyscall .arm mem again fuel path begin «end» []
  have hall : ∀ l : List (Found 32), GoesOn (heed false again) [] l = true := fun l =>
    goesOn_unheeded
  have hends : (scanOf .arm mem fuel path begin «end»).ends = true := (visits_arm hlen hfuel).2.2
  refine hrun.trans ?_
  rw [show Arch.arm.heeds = false from rfl, if_pos (hall _), if_pos hends,
    brought_of_goesOn (hall _)]
  rfl

theorem eq_zero_of_le (h : begin.toNat ≤ (0 : BitVec 32).toNat) : begin = 0 := by
  rw [← BitVec.toNat_inj]
  exact Nat.le_zero.mp h

/-- The condition under which the search is right: whatever it finds or should find is at the
null pointer, and has the number that it reads. -/
def OnlyAtNull (mem : BitVec 32 → BitVec 8) (begin «end» : BitVec 32) : Prop :=
  ∀ p, Visited32 begin «end» p ∧ Passes32 mem p ∨
      4 ∣ p.toNat ∧ begin.toNat ≤ p.toNat ∧ p.toNat + 12 ≤ «end».toNat ∧
        (∃ value, Syscall32 mem p value) →
    p = 0 ∧ Syscall32 mem p (armNum (wordAt mem (p + 4)))

/-- Every call has the null pointer, so with the system calls of a range in ascending order
there is at most one. -/
theorem passes_unique {l : List (BitVec 32)}
    (h : (l.filterMap (armSite mem path)).Pairwise (·.func < ·.func)) {p q : BitVec 32}
    (hp : p ∈ l) (hpass : Passes32 mem p) (hq : q ∈ l) (hqass : Passes32 mem q) : p = q := by
  have hpair : l.Pairwise fun a b => ¬ (Passes32 mem a ∧ Passes32 mem b) := by
    refine (List.pairwise_filterMap.mp h).imp ?_
    rintro a b hab ⟨ha, hb⟩
    have hlt := hab _ (armSite_eq_some.mpr ⟨ha, rfl⟩) _ (armSite_eq_some.mpr ⟨hb, rfl⟩)
    exact BitVec.lt_irrefl _ hlt
  have : Std.Symm fun a b => ¬ (Passes32 mem a ∧ Passes32 mem b) :=
    ⟨fun a b hab hba => hab hba.symm⟩
  by_contra hne
  exact hpair.forall hp hq hne ⟨hpass, hqass⟩

section

variable {fuel : ℕ} (hlen : begin.toNat + 12 ≤ «end».toNat) (hfuel : 2 ^ 32 ≤ fuel)

include hlen hfuel

theorem mem_called {x : Found 32} :
    x ∈ (visits (· + 1) (· < «end» - 4 * 4) fuel begin).filterMap (armSite mem path) ↔
      ∃ q, Visited32 begin «end» q ∧ Passes32 mem q ∧
        x = ⟨path, armNum (wordAt mem (q + 4)), 0⟩ := by
  obtain ⟨-, hvisits, -⟩ := visits_arm hlen hfuel
  simp only [List.mem_filterMap, armSite_eq_some, hvisits]

/-- A call with the null pointer is right if that is the system call, and if there is one call
only. -/
theorem onlyAtNull_of_called (h : Syscalls32 mem path begin «end»
      ((visits (· + 1) (· < «end» - 4 * 4) fuel begin).filterMap (armSite mem path))) :
    OnlyAtNull mem begin «end» := by
  obtain ⟨hpair, hcalls⟩ := h
  obtain ⟨-, hvisits, -⟩ := visits_arm hlen hfuel
  have hpassed : ∀ p, Visited32 begin «end» p → Passes32 mem p →
      p = 0 ∧ Syscall32 mem p (armNum (wordAt mem (p + 4))) := by
    intro p hp hpass
    obtain ⟨value, q, -, hq, -, hat, hx⟩ :=
      (hcalls _).mp ((mem_called hlen hfuel).mpr ⟨p, hp, hpass, rfl⟩)
    obtain ⟨-, hvalue, rfl⟩ := (Found.mk.injEq ..).mp hx
    obtain rfl := passes_unique hpair ((hvisits p).mpr hp) hpass
      ((hvisits 0).mpr (.inl (eq_zero_of_le hq).symm)) hat.passes
    exact ⟨rfl, by rwa [hvalue]⟩
  rintro p (⟨hp, hpass⟩ | ⟨h4, hle, hlast, value, hat⟩)
  · exact hpassed p hp hpass
  · obtain ⟨q, hq, hpass, hx⟩ :=
      (mem_called hlen hfuel).mp ((hcalls _).mpr ⟨value, p, h4, hle, hlast, hat, rfl⟩)
    obtain ⟨rfl, hat'⟩ := hpassed q hq hpass
    obtain ⟨-, -, rfl⟩ := (Found.mk.injEq ..).mp hx
    exact ⟨rfl, hat'⟩

theorem called_of_onlyAtNull (h : OnlyAtNull mem begin «end») :
    Syscalls32 mem path begin «end»
      ((visits (· + 1) (· < «end» - 4 * 4) fuel begin).filterMap (armSite mem path)) := by
  obtain ⟨hsorted, hvisits, -⟩ := visits_arm hlen hfuel
  refine ⟨List.pairwise_filterMap.mpr (hsorted.imp_of_mem ?_), fun x => ?_⟩
  · intro p q hp hq hpq x hx y hy
    obtain ⟨rfl, -⟩ := h p (.inl ⟨(hvisits p).mp hp, (armSite_eq_some.mp hx).1⟩)
    obtain ⟨rfl, -⟩ := h q (.inl ⟨(hvisits q).mp hq, (armSite_eq_some.mp hy).1⟩)
    exact absurd hpq (BitVec.lt_irrefl _)
  rw [mem_called hlen hfuel]
  refine ⟨?_, ?_⟩
  · rintro ⟨q, hq, hpass, rfl⟩
    obtain ⟨rfl, hat⟩ := h q (.inl ⟨hq, hpass⟩)
    have hzero : begin.toNat = 0 := by
      rcases hq with rfl | ⟨hlt, -⟩
      · rfl
      · exact absurd hlt (BitVec.not_lt_zero)
    exact ⟨_, 0, by simp, by simp [hzero], by simpa [hzero] using hlen, hat, rfl⟩
  · rintro ⟨value, p, h4, hle, hlast, hat, rfl⟩
    obtain ⟨rfl, hat'⟩ := h p (.inr ⟨h4, hle, hlast, value, hat⟩)
    exact ⟨0, .inl (eq_zero_of_le hle).symm, hat.passes, by rw [hat.unique hat']⟩

end

/-- The search is right exactly where there is nothing to find and nothing that passes the
test, but perhaps at the null pointer. -/
theorem searchMemorySyscallArm_exact_iff (mem : BitVec 32 → BitVec 8)
    (again : List (Found 32) → Bool) (path : List Char) {begin «end» : BitVec 32}
    (hlen : begin.toNat + 12 ≤ «end».toNat) {fuel : ℕ} (hfuel : 2 ^ 32 ≤ fuel) :
    let run := (searchMemorySyscallArm fuel path begin «end»).runWith (answer mem again) []
    run.2.1 = some () ∧
      (Syscalls32 mem path begin «end» run.2.2 ↔ OnlyAtNull mem begin «end») := by
  intro run
  have hrun : run.2 = _ := searchMemorySyscallArm_run mem again path hlen hfuel
  rw [hrun]
  exact ⟨rfl, onlyAtNull_of_called hlen hfuel, called_of_onlyAtNull hlen hfuel⟩

/-- `mov ip, r7; movw r7, #5; svc 0`. -/
def openCall : List (BitVec 32) := [0xE1A0C007, 0xE3007005, 0xEF000000]

theorem searchMemorySyscallArm_exact_iff_null :
    let run := (searchMemorySyscallArm (2 ^ 32) [] 0 16).runWith
      (answer (memOf 0 openCall) fun _ => true) []
    run.2.1 = some () ∧ Syscalls32 (memOf 0 openCall) [] 0 16 run.2.2 := by
  intro run
  have hexact := searchMemorySyscallArm_exact_iff (memOf 0 openCall) (fun _ => true) []
    (by decide : (0 : BitVec 32).toNat + 12 ≤ (16 : BitVec 32).toNat) le_rfl
  refine ⟨hexact.1, hexact.2.mpr ?_⟩
  have hzero : Syscall32 (memOf 0 openCall) 0
      (armNum (wordAt (memOf 0 openCall) (0 + 4 : BitVec 32))) := by
    unfold Syscall32
    decide
  rintro p (⟨rfl | ⟨hpos, hlt⟩, -⟩ | ⟨h4, -, hlast, value, hmov, -⟩)
  · exact ⟨rfl, hzero⟩
  · exact absurd hlt BitVec.not_lt_zero
  · change p.toNat + 12 ≤ 16 at hlast
    obtain h | h : p.toNat = 0 ∨ p.toNat = 4 := by omega
    · obtain rfl : p = 0 := BitVec.toNat_inj.mp h
      exact ⟨rfl, hzero⟩
    · obtain rfl : p = 4 := BitVec.toNat_inj.mp h
      exact absurd hmov (by decide)

/-- A system call is reported with the null pointer. -/
theorem null_func_reported :
    let mem := memOf 0x1000 openCall
    let run := (searchMemorySyscallArm 1 [] 0x1000 0x1010).runWith (answer mem fun _ => true) []
    run.2 = (some (), [⟨[], 5, 0⟩]) ∧ ¬ Syscalls32 mem [] 0x1000 0x1010 run.2.2 := by
  intro mem run
  have hrun : run.2 = (some (), [⟨[], 5, 0⟩]) := by decide
  refine ⟨hrun, ?_⟩
  rintro ⟨-, hcalls⟩
  obtain ⟨value, p, -, hle, -, -, hx⟩ := (hcalls ⟨[], 5, 0⟩).mp (by rw [hrun]; simp)
  obtain ⟨-, -, rfl⟩ := (Found.mk.injEq ..).mp hx
  revert hle
  decide

end NativeLib.FindSyscall
