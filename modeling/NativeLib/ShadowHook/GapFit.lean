import Mathlib.Algebra.Group.Nat.Defs
import Mathlib.Tactic.SplitIfs
import NativeLib.ShadowHook.GapRuns
import NativeLib.ShadowHook.Installations

/-! An exit in a gap is what a hook asks for: what `System.Fit` assumes of it, `sh_exit.cpp`
keeps. -/

namespace NativeLib.ShadowHook

open Arm64

/-- The bytes of the gaps. -/
def Library.gapBytes (lib : Library) : Set (BitVec 64) :=
  {b | ∃ gap ∈ lib.gaps, gap.start ≤ b.toNat ∧ b.toNat < gap.stop}

section

variable {base room : ℕ} {byKernel : Bool} {phdrs : List Phdr} {gap : Gap} {lib : Library}

theorem pageStart_le_pageEnd {p : Phdr} : pageStart (base + p.vaddr) ≤ pageEnd (p.stop base) :=
  Nat.le_trans pageStart_le_stop stop_le_pageEnd

theorem exists_le_pageEnd (h : gap ∈ getGaps base byKernel room phdrs) :
    ∃ p ∈ phdrs.filter (·.load), gap.stop ≤ pageEnd (p.stop base) := by
  obtain ⟨pre, cur, rest, rfl, hload, hwide, rfl⟩ := exists_of_mem_getGaps h
  have hmem : ∀ p ∈ cur :: rest, p.load = true → p ∈ (pre ++ cur :: rest).filter (·.load) :=
    fun p hp hload => List.mem_filter.mpr ⟨List.mem_append_right _ hp, hload⟩
  rw [gapOf] at hwide ⊢
  cases hnext : (if byKernel = true then none else rest.find? (·.load)) with
  | none =>
    rw [hnext] at hwide
    exact ⟨cur, hmem cur List.mem_cons_self hload, Nat.le_of_eq (Phdr.gap_stop_none hwide)⟩
  | some next =>
    rw [hnext] at hwide
    have hfind : rest.find? (·.load) = some next := by
      split_ifs at hnext
      exact hnext
    have hload' : next.load = true := by simpa using List.find?_some hfind
    have hnext' := List.mem_cons_of_mem cur (List.mem_of_find?_eq_some hfind)
    exact ⟨next, hmem next hnext' hload',
      Nat.le_trans (Nat.le_of_eq (Phdr.gap_stop_some hwide)) pageStart_le_pageEnd⟩

theorem Library.stop_le (h : gap ∈ lib.gaps) : gap.stop ≤ UINTPTR_MAX := by
  obtain ⟨p, hp, hle⟩ := exists_le_pageEnd h
  have hp' := List.mem_filter.mp hp
  exact Nat.le_trans hle (lib.bound p hp'.1 hp'.2)

theorem Library.base_le_start (h : gap ∈ lib.gaps) : lib.base ≤ gap.start := by
  obtain ⟨-, q, -, hle⟩ := exists_stop_le h
  exact Nat.le_trans (Nat.le_trans (Nat.le_add_right ..) (Nat.le_add_right ..)) hle

end

namespace GapSystem

variable {lib : Library} {s s' : GapSystem} {call : ExitCall} {ans : GapAnswers} {addr : ℕ}

theorem exits_of_alloc (h : s.allocInLibrary lib call ans = some (.ok addr, s')) :
    s'.exits = (addr, call.exit) :: s.exits := by
  rw [allocInLibrary] at h
  split_ifs at h
  generalize allocLoop ans call lib.gaps s.mem = found at h
  obtain ⟨result, mem⟩ := found
  cases result with
  | ok addr' =>
    obtain ⟨haddr, rfl⟩ := Prod.mk.inj (Option.some.inj h)
    rw [GapResult.ok.inj haddr]
  | failed | crashed | left =>
    exact GapResult.noConfusion (Prod.mk.inj (Option.some.inj h)).1

/-- A byte that an allocation changes is in a gap, and in no exit that is in use. -/
theorem changed_of_alloc {old : ℕ → BitVec 8} {a : ℕ} (h : Keeps lib.gaps old s.mem s.exits)
    (halloc : s.allocInLibrary lib call ans = some (.ok addr, s')) (ha : s'.mem a ≠ s.mem a) :
    (∃ gap ∈ lib.gaps, gap.start ≤ a ∧ a < gap.stop) ∧
      ∀ exit ∈ s.exits, a < exit.1 ∨ exit.1 + SH_EXIT_SZ ≤ a := by
  have h' := (alloc_cases h halloc).1
  refine ⟨Classical.byContradiction fun hno => ha ?_, fun exit hexit => ?_⟩
  · have hout : ∀ gap ∈ lib.gaps, a < gap.start ∨ gap.stop ≤ a := by
      intro gap hgap
      have : ¬ (gap.start ≤ a ∧ a < gap.stop) := fun hin => hno ⟨gap, hgap, hin⟩
      omega
    rw [h'.outside a hout, h.outside a hout]
  · refine Classical.byContradiction fun hin => ha ?_
    rw [not_or, Nat.not_lt, Nat.not_le] at hin
    obtain ⟨i, rfl⟩ := Nat.exists_eq_add_of_le hin.1
    have hi : i < SH_EXIT_SZ := by omega
    have hexit' : exit ∈ s'.exits := by
      rw [exits_of_alloc halloc]
      exact List.mem_cons_of_mem _ hexit
    obtain ⟨gap, -, hholds⟩ := h.held exit hexit
    obtain ⟨gap', -, hholds'⟩ := h'.held exit hexit'
    rw [getElem_bytesAt hholds'.bytes hi, getElem_bytesAt hholds.bytes hi]

variable {start : GapSystem} {targetAddr : BitVec 64} {patches : List Switch}

/-- Where the exits in use are those of the patches, a new exit is as `System.Fit` has it, and so
are the bytes that change on the way. -/
theorem alloc_fits (hbase : 0 < lib.base) (hexits : start.exits = []) (hrun : Run lib start s)
    (hpc : call.pc = targetAddr.toNat) (hlow : call.rangeLow = SH_INST_A64_B_RANGE_LOW)
    (hhigh : call.rangeHigh = SH_INST_A64_B_RANGE_HIGH) (haligned : targetAddr.toNat % 4 = 0)
    (hpatches : ∀ switch ∈ patches, switch.inst.exitAddr ≠ 0 →
      switch.inst.exitType = .inLibrary → ∃ exit ∈ s.exits, exit.1 = switch.inst.exitAddr.toNat)
    (halloc : s.allocInLibrary lib call ans = some (.ok addr, s')) :
    (BitVec.ofNat 64 addr ≠ 0 ∧ InReach targetAddr (BitVec.ofNat 64 addr) ∧
      ∀ b, Spans (BitVec.ofNat 64 addr) 16 b →
        b ∈ lib.gapBytes ∧ ∀ switch ∈ patches, ¬ switch.InGap b) ∧
    ∀ b : BitVec 64, s'.mem b.toNat ≠ s.mem b.toNat →
      b ∈ lib.gapBytes ∧ ∀ switch ∈ patches, ¬ switch.InGap b := by
  have hnone : Keeps lib.gaps start.mem start.mem start.exits :=
    ⟨fun _ _ => rfl, hexits ▸ List.forall_mem_nil _, hexits ▸ .nil⟩
  have h := run_keeps hnone hrun
  obtain ⟨h', hrange⟩ := alloc_cases h halloc
  have hrange := hrange addr rfl
  rw [ExitCall.InRange, hpc, hlow, hhigh] at hrange
  have hexits' := exits_of_alloc halloc
  obtain ⟨gap, hgap, hholds⟩ := h'.held (addr, call.exit) (hexits' ▸ List.mem_cons_self)
  have hstart := Library.base_le_start hgap
  have hstop := Library.stop_le hgap
  have hholdsLow : gap.start ≤ addr := hholds.low
  have hholdsHigh : addr + 16 ≤ gap.stop := hholds.high
  have hdvd : 16 ∣ addr := hholds.aligned
  rw [UINTPTR_MAX] at hstop
  have hnat : (BitVec.ofNat 64 addr).toNat = addr := Nat.mod_eq_of_lt (by omega)
  -- The exits of the patches are in gaps as well, and away from the new one.
  have hingap : ∀ switch ∈ patches, ∀ b, switch.InGap b → ∃ exit ∈ s.exits,
      exit.1 ≤ b.toNat ∧ b.toNat < exit.1 + 16 := by
    rintro switch hswitch b ⟨hne, htype, hspans⟩
    obtain ⟨exit, hexit, haddr⟩ := hpatches switch hswitch hne htype
    obtain ⟨gap', hgap', hholds'⟩ := h.held exit hexit
    have hstop' := Library.stop_le hgap'
    have hhigh' := hholds'.high
    rw [UINTPTR_MAX] at hstop'
    rw [spans_iff_toNat (by omega), ← haddr] at hspans
    exact ⟨exit, hexit, hspans⟩
  refine ⟨⟨fun hzero => ?_, ?_, fun b hb => ⟨⟨gap, hgap, ?_⟩, fun switch hswitch hin => ?_⟩⟩,
    fun b hb => ?_⟩
  · have := congrArg BitVec.toNat hzero
    rw [hnat] at this
    have : addr = 0 := this
    omega
  · exact System.inReach_of_range (by omega) haligned (by omega) (by omega) (by omega)
  · rw [spans_iff_toNat (by omega), hnat] at hb
    omega
  · rw [spans_iff_toNat (by omega), hnat] at hb
    obtain ⟨exit, hexit, hexitLow, hexitHigh⟩ := hingap switch hswitch b hin
    obtain ⟨gap', -, hholds'⟩ := h.held exit hexit
    have hdvd' := hholds'.aligned
    have happart := h'.apart
    rw [hexits'] at happart
    have hne : addr ≠ exit.1 := (List.pairwise_cons.mp happart).1 exit hexit
    omega
  · obtain ⟨⟨gap', hgap', hin'⟩, hout⟩ := changed_of_alloc h halloc hb
    refine ⟨⟨gap', hgap', hin'⟩, fun switch hswitch hin => ?_⟩
    obtain ⟨exit, hexit, hexitLow, hexitHigh⟩ := hingap switch hswitch b hin
    have := hout exit hexit
    rw [SH_EXIT_SZ] at this
    omega

/-- A function of the library that has been hooked with an exit in the gap. -/
def gapSwitch : Switch where
  targetAddr := 0x10100
  newAddr := 0x30000
  inst :=
    { trampo := []
      backup := []
      exitType := .inLibrary
      exitAddr := 0x10F10
      exit := []
      enterAddr := 0x20000 }

theorem gapAlloc_twice :
    (gapFresh.step gapLibrary gapAlloc).bind
      (fun first => (first.2.step gapLibrary gapAlloc).map (·.1)) = some (.ok 0x10F20) := by
  decide +kernel

theorem gapFresh_fits :
    ∃ s s', Run gapLibrary gapFresh s ∧ s.step gapLibrary gapAlloc = some (.ok 0x10F20, s') ∧
      InReach 0x10100 (BitVec.ofNat 64 0x10F20) ∧
      ∀ b, Spans (BitVec.ofNat 64 0x10F20) 16 b →
        b ∈ gapLibrary.gapBytes ∧ ∀ switch ∈ [gapSwitch], ¬ switch.InGap b := by
  obtain ⟨⟨result, s⟩, hstep, htwice⟩ := Option.bind_eq_some_iff.mp gapAlloc_twice
  obtain ⟨⟨result', s'⟩, hstep', rfl⟩ := Option.map_eq_some_iff.mp htwice
  have hexits := gapAlloc_exits
  rw [hstep] at hexits
  have hexits : s.exits = [(0x10F10, gapCall.exit)] := Option.some.inj hexits
  have hrun : Run gapLibrary gapFresh s := .cons (fun _ _ h => by cases h) hstep (.nil _)
  have hpatches : ∀ switch ∈ [gapSwitch], switch.inst.exitAddr ≠ 0 →
      switch.inst.exitType = .inLibrary →
      ∃ exit ∈ s.exits, exit.1 = switch.inst.exitAddr.toNat := by
    intro switch hswitch _ _
    obtain rfl := List.mem_singleton.mp hswitch
    exact ⟨(0x10F10, gapCall.exit), hexits ▸ List.mem_singleton.mpr rfl, rfl⟩
  have hpc : gapCall.pc = (0x10100 : BitVec 64).toNat := rfl
  have hfits := (alloc_fits (by decide) rfl hrun hpc rfl rfl (by decide) hpatches hstep').1
  exact ⟨s, s', hrun, hstep', hfits.2⟩

end GapSystem

end NativeLib.ShadowHook
