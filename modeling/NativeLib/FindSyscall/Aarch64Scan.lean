import NativeLib.FindSyscall.Instructions
import NativeLib.Interaction.Sweeps

/-! `search_memory_syscall` on aarch64 against what it is for: the system calls of a range, in
order, until the callback has had enough. -/

namespace NativeLib.FindSyscall

open Collections Interaction
open Prog (visits ends)

variable {mem : BitVec 64 → BitVec 8} {again : List (Found 64) → Bool} {path : List Char}
  {begin «end» : BitVec 64}

/-- A system call that lies in the range, as the callback is to be told of it. -/
def IsSyscall64 (mem : BitVec 64 → BitVec 8) (path : List Char) (begin «end» : BitVec 64)
    (x : Found 64) : Prop :=
  ∃ imm16 p, 4 ∣ p.toNat ∧ begin.toNat ≤ p.toNat ∧ p.toNat + 8 ≤ «end».toNat ∧
    Syscall64 mem p imm16 ∧ x = ⟨path, imm16.setWidth 32, p⟩

/-- The system calls of the range, each once, in ascending order. -/
def Syscalls64 (mem : BitVec 64 → BitVec 8) (path : List Char) (begin «end» : BitVec 64)
    (sites : List (Found 64)) : Prop :=
  sites.Pairwise (·.func < ·.func) ∧ ∀ x, x ∈ sites ↔ IsSyscall64 mem path begin «end» x

/-- A search is right if it calls the callback with the system calls of the range up to the
first that it refuses, and reads no word that is not in the range. -/
structure Exact64 (mem : BitVec 64 → BitVec 8) (again : List (Found 64) → Bool)
    (path : List Char) (begin «end» : BitVec 64) (asked : List (ScanCall 64))
    (calls : List (Found 64)) : Prop where
  calls_eq : ∃ sites, Syscalls64 mem path begin «end» sites ∧ calls = brought again [] sites
  reads : ∀ addr, .insn addr ∈ asked → begin.toNat ≤ addr.toNat ∧ addr.toNat + 4 ≤ «end».toNat

/-- The list of the system calls of a range. -/
def syscalls64 (mem : BitVec 64 → BitVec 8) (path : List Char) (begin «end» : BitVec 64) :
    List (Found 64) := (alignedWithin 8 begin «end»).filterMap (aarch64Site mem path)

theorem syscalls64_spec (mem : BitVec 64 → BitVec 8) (path : List Char) («end» : BitVec 64)
    (hbegin : 4 ∣ begin.toNat) :
    Syscalls64 mem path begin «end» (syscalls64 mem path begin «end») := by
  refine ⟨?_, fun x => ?_⟩
  · refine List.pairwise_filterMap.mpr ((alignedWithin_sorted (by omega)).imp ?_)
    intro p q hpq x hx y hy
    obtain ⟨_, -, rfl⟩ := aarch64Site_eq_some.mp hx
    obtain ⟨_, -, rfl⟩ := aarch64Site_eq_some.mp hy
    exact hpq
  · have hmem : ∀ p, p ∈ alignedWithin 8 begin «end» ↔
        4 ∣ p.toNat ∧ begin.toNat ≤ p.toNat ∧ p.toNat + 8 ≤ «end».toNat :=
      fun p => mem_alignedWithin (by omega) hbegin
    simp only [syscalls64, List.mem_filterMap, hmem, aarch64Site_eq_some, IsSyscall64]
    refine ⟨?_, ?_⟩
    · rintro ⟨p, ⟨h4, hle, hend⟩, imm16, hat, rfl⟩
      exact ⟨imm16, p, h4, hle, hend, hat, rfl⟩
    · rintro ⟨imm16, p, h4, hle, hend, hat, rfl⟩
      exact ⟨p, ⟨h4, hle, hend⟩, imm16, hat, rfl⟩

theorem Syscalls64.unique {sites sites' : List (Found 64)}
    (h : Syscalls64 mem path begin «end» sites) (h' : Syscalls64 mem path begin «end» sites') :
    sites = sites' := by
  have : Std.Irrefl fun x y : Found 64 => x.func < y.func := ⟨fun x => BitVec.lt_irrefl x.func⟩
  have : Std.Antisymm fun x y : Found 64 => x.func < y.func :=
    ⟨fun x y hxy hyx => absurd (BitVec.lt_trans hxy hyx) (BitVec.lt_irrefl _)⟩
  exact h.1.eq_of_mem_iff h'.1 fun x => (h.2 x).trans (h'.2 x).symm

theorem asks_insnAt {w : ℕ} {P : ScanCall w → Prop} {addr : BitVec w} (h : P (.insn addr)) :
    (insnAt addr).Asks P := ⟨h, fun r => by cases r <;> trivial⟩

theorem asks_callback {w : ℕ} {P : ScanCall w → Prop} {found : Found w}
    (h : P (.callback found)) : (callback found).Asks P := ⟨h, fun r => by cases r <;> trivial⟩

/-- Where the loop stands in the range, its reads are in the range. -/
theorem searchMemorySyscallAarch64_asks (path : List Char) (fuel : ℕ) (hvisits : ∀ p ∈
      visits (· + 4) (· < «end» - 4 * 2) fuel begin,
      begin.toNat ≤ p.toNat ∧ p.toNat + 8 ≤ «end».toNat) :
    (searchMemorySyscallAarch64 fuel path begin «end»).Asks fun c => ∀ addr, c = .insn addr →
      begin.toNat ≤ addr.toNat ∧ addr.toNat + 4 ≤ «end».toNat := by
  rw [searchMemorySyscallAarch64, Prog.doWhile_eq_forWhile]
  refine Prog.Asks.forWhile (fun p hp => ?_) _
  obtain ⟨hle, hend⟩ := hvisits p hp
  have h4 : (p + 4).toNat = p.toNat + 4 := toNat_add_ofNat (n := 4) (by omega)
  refine (asks_insnAt ?_).bind fun insn₁ => ?_
  · rintro _ ⟨⟩
    omega
  split_ifs with hsvc
  · refine (asks_insnAt ?_).bind fun insn₀ => ?_
    · rintro _ ⟨⟩
      omega
    split_ifs with hmov
    · exact asks_callback (by simp)
    · trivial
  · trivial

/-- The last address with two words of the range from there on. -/
theorem alignedWithin_last (hbegin : 4 ∣ begin.toNat) (hend : 4 ∣ «end».toNat)
    (hlen : begin.toNat + 8 ≤ «end».toNat) :
    alignedWithin 8 begin «end» = alignedWithin 8 begin («end» - 4) ++ [«end» - 8] := by
  have h4 : («end» - 4).toNat = «end».toNat - 4 := toNat_sub_ofNat (n := 4) (by omega)
  have h8 : («end» - 8).toNat = «end».toNat - 8 := toNat_sub_ofNat (n := 8) (by omega)
  obtain ⟨n, hn⟩ : ∃ n, «end».toNat = begin.toNat + 4 * n + 8 :=
    ⟨(«end».toNat - begin.toNat - 8) / 4, by omega⟩
  have hlast : begin + BitVec.ofNat 64 (4 * n) = «end» - 8 := by
    rw [← BitVec.toNat_inj, toNat_add_ofNat (by omega), h8]
    omega
  rw [alignedWithin, show («end».toNat + 4 - 8 - begin.toNat) / 4 = n + 1 by omega, strided_succ,
    hlast, alignedWithin, show ((«end» - 4).toNat + 4 - 8 - begin.toNat) / 4 = n by omega]

/-- The loop stops before the last address, unless that is the first as well. -/
theorem visits_aarch64 (hbegin : 4 ∣ begin.toNat) (hend : 4 ∣ «end».toNat)
    (hlen : begin.toNat + 8 ≤ «end».toNat) {fuel : ℕ} (hfuel : 2 ^ 64 ≤ fuel) :
    visits (· + 4) (· < «end» - 4 * 2) fuel begin =
        (if «end».toNat = begin.toNat + 8 then alignedWithin 8 begin «end»
          else alignedWithin 8 begin («end» - 4)) ∧
      ends (· + 4) (· < «end» - 4 * 2) fuel begin = true := by
  have hlimit : («end» - 4 * 2).toNat = «end».toNat - 8 := toNat_sub_ofNat (n := 8) (by omega)
  have h4 : («end» - 4).toNat = «end».toNat - 4 := toNat_sub_ofNat (n := 4) (by omega)
  have hlt := «end».isLt
  split_ifs with h8
  · obtain ⟨hvisits, hends⟩ := visits_strided 4 1 begin («end» - 4 * 2) (by omega) (by omega)
      (by omega) (by omega) (by omega : 1 ≤ fuel)
    refine ⟨hvisits.trans ?_, hends⟩
    rw [alignedWithin, show («end».toNat + 4 - 8 - begin.toNat) / 4 = 1 by omega]
  · obtain ⟨n, hn⟩ : ∃ n, «end».toNat = begin.toNat + 4 * n + 8 :=
      ⟨(«end».toNat - begin.toNat - 8) / 4, by omega⟩
    obtain ⟨hvisits, hends⟩ := visits_strided 4 n begin («end» - 4 * 2) (by omega) (by omega)
      (by omega) (by omega) (by omega : n ≤ fuel)
    refine ⟨hvisits.trans ?_, hends⟩
    rw [alignedWithin, show ((«end» - 4).toNat + 4 - 8 - begin.toNat) / 4 = n by omega]

theorem syscalls64_last (mem : BitVec 64 → BitVec 8) (path : List Char)
    (hbegin : 4 ∣ begin.toNat) (hend : 4 ∣ «end».toNat) (hlen : begin.toNat + 8 ≤ «end».toNat) :
    syscalls64 mem path begin «end» = syscalls64 mem path begin («end» - 4) ++
      (aarch64Site mem path («end» - 8)).toList := by
  rw [syscalls64, alignedWithin_last hbegin hend hlen, List.filterMap_append, syscalls64,
    List.filterMap_cons, List.filterMap_nil]
  cases aarch64Site mem path («end» - 8) <;> rfl

/-- The search ends, with the calls it makes where its loop stands. -/
theorem searchMemorySyscallAarch64_run (mem : BitVec 64 → BitVec 8)
    (again : List (Found 64) → Bool) (path : List Char) (hbegin : 4 ∣ begin.toNat)
    (hend : 4 ∣ «end».toNat) (hlen : begin.toNat + 8 ≤ «end».toNat) {fuel : ℕ}
    (hfuel : 2 ^ 64 ≤ fuel) :
    ((searchMemorySyscallAarch64 fuel path begin «end»).runWith (answer mem again) []).2 =
      (some (), brought again [] (if «end».toNat = begin.toNat + 8
        then syscalls64 mem path begin «end» else syscalls64 mem path begin («end» - 4))) := by
  obtain ⟨hvisits, hends⟩ := visits_aarch64 hbegin hend hlen hfuel
  have hscan : scanOf .aarch64 mem fuel path begin «end» =
      ⟨if «end».toNat = begin.toNat + 8 then syscalls64 mem path begin «end»
        else syscalls64 mem path begin («end» - 4), true⟩ := by
    refine congrArg₂ Batch.mk ?_ hends
    refine (congrArg (List.filterMap (aarch64Site mem path)) hvisits).trans ?_
    split_ifs <;> rfl
  have hrun := runWith_searchMemorySyscall .aarch64 mem again fuel path begin «end» []
  have hheed : heed Arch.aarch64.heeds again = again := by
    funext calls
    simp [heed, Arch.heeds]
  rw [hscan, hheed] at hrun
  refine hrun.trans ?_
  simp

/-- All its reads are in the range. -/
theorem searchMemorySyscallAarch64_reads (mem : BitVec 64 → BitVec 8)
    (again : List (Found 64) → Bool) (path : List Char) (hbegin : 4 ∣ begin.toNat)
    (hend : 4 ∣ «end».toNat) (hlen : begin.toNat + 8 ≤ «end».toNat) {fuel : ℕ}
    (hfuel : 2 ^ 64 ≤ fuel) (addr : BitVec 64)
    (h : .insn addr ∈ ((searchMemorySyscallAarch64 fuel path begin «end»).runWith
      (answer mem again) []).1.map Prod.fst) :
    begin.toNat ≤ addr.toNat ∧ addr.toNat + 4 ≤ «end».toNat := by
  refine Prog.runWith_asks _ (searchMemorySyscallAarch64_asks path fuel ?_) [] _ h addr rfl
  rw [(visits_aarch64 hbegin hend hlen hfuel).1]
  have h4 : («end» - 4).toNat = «end».toNat - 4 := toNat_sub_ofNat (n := 4) (by omega)
  intro p hp
  split_ifs at hp
  · exact ((mem_alignedWithin (by omega) hbegin).mp hp).2
  · obtain ⟨-, hle, hlt⟩ := (mem_alignedWithin (by omega) hbegin).mp hp
    omega

/-- The search is right in a range of two words, and in a longer one if there is no system call
in the last two words or the callback refuses one before. -/
theorem searchMemorySyscallAarch64_exact_iff (mem : BitVec 64 → BitVec 8)
    (again : List (Found 64) → Bool) (path : List Char) {begin «end» : BitVec 64}
    (hbegin : 4 ∣ begin.toNat) (hend : 4 ∣ «end».toNat)
    (hlen : begin.toNat + 8 ≤ «end».toNat) {fuel : ℕ} (hfuel : 2 ^ 64 ≤ fuel) :
    let run := (searchMemorySyscallAarch64 fuel path begin «end»).runWith (answer mem again) []
    run.2.1 = some () ∧
      (Exact64 mem again path begin «end» (run.1.map Prod.fst) run.2.2 ↔
        «end».toNat = begin.toNat + 8 ∨ (∀ imm16, ¬ Syscall64 mem («end» - 8) imm16) ∨
          ∃ sites, Syscalls64 mem path begin («end» - 4) sites ∧ GoesOn again [] sites = false) := by
  intro run
  have hrun : run.2 = _ := searchMemorySyscallAarch64_run mem again path hbegin hend hlen hfuel
  refine ⟨by rw [hrun], ?_⟩
  have hspec := syscalls64_spec mem path «end» hbegin
  have hexact : Exact64 mem again path begin «end» (run.1.map Prod.fst) run.2.2 ↔
      run.2.2 = brought again [] (syscalls64 mem path begin «end») := by
    refine ⟨?_, fun h => ⟨⟨_, hspec, h⟩,
      searchMemorySyscallAarch64_reads mem again path hbegin hend hlen hfuel⟩⟩
    rintro ⟨⟨sites, hsites, hcalls⟩, -⟩
    rw [hcalls, hsites.unique hspec]
  rw [hexact, hrun]
  by_cases h8 : «end».toNat = begin.toNat + 8
  · simp [h8]
  rw [if_neg h8, or_iff_right h8, syscalls64_last mem path hbegin hend hlen]
  cases hsite : aarch64Site mem path («end» - 8) with
  | none =>
    have hno : ∀ imm16, ¬ Syscall64 mem («end» - 8) imm16 := fun imm16 hat => by
      rw [aarch64Site_eq_some.mpr ⟨imm16, hat, rfl⟩] at hsite
      exact absurd hsite (by simp)
    rw [Option.toList_none, List.append_nil]
    exact ⟨fun _ => .inl hno, fun _ => rfl⟩
  | some x =>
    obtain ⟨imm16, hat, -⟩ := aarch64Site_eq_some.mp hsite
    have hspec' := syscalls64_spec mem path («end» - 4) hbegin
    rw [Option.toList_some, brought_snoc_eq_iff, or_iff_right fun hno => hno imm16 hat]
    refine ⟨fun h => ⟨_, hspec', h⟩, ?_⟩
    rintro ⟨sites, hsites, h⟩
    rwa [← hsites.unique hspec']

theorem searchMemorySyscallAarch64_exact_iff_atStart :
    let run := (searchMemorySyscallAarch64 (2 ^ 64) [] 0x1000 0x1010).runWith
      (answer (memOf 0x1000 [movz 8 56, svc 0, 0, 0]) fun _ => true) []
    run.2.1 = some () ∧
      Exact64 (memOf 0x1000 [movz 8 56, svc 0, 0, 0]) (fun _ => true) [] 0x1000 0x1010
        (run.1.map Prod.fst) run.2.2 := by
  intro run
  obtain ⟨hends, hexact⟩ := searchMemorySyscallAarch64_exact_iff
    (memOf 0x1000 [movz 8 56, svc 0, 0, 0]) (fun _ => true) []
    (by decide : 4 ∣ (0x1000 : BitVec 64).toNat) (by decide : 4 ∣ (0x1010 : BitVec 64).toNat) (by decide) le_rfl
  refine ⟨hends, hexact.mpr (.inr (.inl ?_))⟩
  rintro imm16 ⟨-, hsvc⟩
  revert hsvc
  decide

/-- A system call in the last two of three words is not found. -/
theorem last_pair_missed :
    let mem := memOf 0x1000 [0, movz 8 56, svc 0]
    let run := (searchMemorySyscallAarch64 1 [] 0x1000 0x100c).runWith
      (answer mem fun _ => true) []
    run.2 = (some (), []) ∧
      ¬ Exact64 mem (fun _ => true) [] 0x1000 0x100c (run.1.map Prod.fst) run.2.2 := by
  intro mem run
  have hrun : run.2 = (some (), []) := by decide
  refine ⟨hrun, ?_⟩
  rintro ⟨⟨sites, hsites, hcalls⟩, -⟩
  have hat : Syscall64 mem 0x1004 56 := by
    unfold Syscall64
    decide
  have hmem := (hsites.2 _).mpr ⟨56, 0x1004, by decide, by decide, by decide, hat, rfl⟩
  rw [hrun, eq_comm, brought_eq_nil_iff] at hcalls
  rw [hcalls] at hmem
  exact absurd hmem (List.not_mem_nil)

end NativeLib.FindSyscall
