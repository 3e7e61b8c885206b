import Mathlib.Algebra.GroupWithZero.Nat
import NativeLib.ShadowHook.Blocks

/-! Where the rewritten instructions lie, one block after the other, and how addresses in the old
code go over into addresses in the new. -/

namespace NativeLib.ShadowHook

open Arm64

variable {inst : BitVec 32} {insts : List (BitVec 32)} {pc a : BitVec 64} {rinfo : RewriteInfo}

/-- The length that is returned is that of what was written, and it is the one in the table unless
the instruction could not be moved. -/
theorem a64Rewrite_len (inst : BitVec 32) (pc : BitVec 64) (rinfo : RewriteInfo) :
    (a64Rewrite inst pc rinfo).2 = 4 * (a64Rewrite inst pc rinfo).1.length ∧
      ((a64Rewrite inst pc rinfo).2 = 0 ∨
        (a64Rewrite inst pc rinfo).2 = a64GetRewriteInstLen inst) := by
  have hadr : ∀ type, (a64RewriteAdr inst pc type rinfo).2 =
      4 * (a64RewriteAdr inst pc type rinfo).1.length ∧
      ((a64RewriteAdr inst pc type rinfo).2 = 0 ∨ (a64RewriteAdr inst pc type rinfo).2 = 16) := by
    intro type
    rw [a64RewriteAdr_eq]
    split_ifs <;> simp
  have hldr : ∀ type kind, A64Type.load? type = some kind →
      (a64RewriteLdr inst pc type rinfo).2 = 4 * (a64RewriteLdr inst pc type rinfo).1.length ∧
      ((a64RewriteLdr inst pc type rinfo).2 = 0 ∨
        (a64RewriteLdr inst pc type rinfo).2 = type.rewriteInstLen) := by
    intro type kind hkind
    rw [a64RewriteLdr_eq hkind]
    cases type <;> cases hkind <;> simp [A64Type.rewriteInstLen] <;> split_ifs <;> simp
  rw [a64Rewrite, a64GetRewriteInstLen]
  cases a64GetType inst with
  | ignored => exact ⟨rfl, .inr rfl⟩
  | b | bl | bCond | cbz | cbnz | tbz | tbnz => exact ⟨rfl, .inr rfl⟩
  | adr | adrp => exact hadr _
  | ldrLit32 => exact hldr _ _ rfl
  | ldrLit64 => exact hldr _ _ rfl
  | ldrswLit => exact hldr _ _ rfl
  | prfmLit => exact hldr _ _ rfl
  | ldrSimdLit32 => exact hldr _ _ rfl
  | ldrSimdLit64 => exact hldr _ _ rfl
  | ldrSimdLit128 => exact hldr _ _ rfl

/-- The blocks of the instructions, the first of which stood at `pc`. -/
def blocks (rinfo : RewriteInfo) : BitVec 64 → List (BitVec 32) → List (BitVec 32)
  | _, [] => []
  | pc, inst :: insts => (a64Rewrite inst pc rinfo).1 ++ blocks rinfo (pc + 4) insts

/-- Every instruction can be moved. -/
def Movable (rinfo : RewriteInfo) : BitVec 64 → List (BitVec 32) → Prop
  | _, [] => True
  | pc, inst :: insts => (a64Rewrite inst pc rinfo).2 ≠ 0 ∧ Movable rinfo (pc + 4) insts

/-- How far from the start the block of the instruction `i` is. -/
def blockOffset (insts : List (BitVec 32)) (i : ℕ) : ℕ :=
  ((insts.take i).map a64GetRewriteInstLen).sum

theorem blockOffset_succ {i : ℕ} (h : insts[i]? = some inst) :
    blockOffset insts (i + 1) = blockOffset insts i + a64GetRewriteInstLen inst := by
  rw [blockOffset, List.take_add_one, h, List.map_append, List.sum_append]
  simp [blockOffset]

theorem blockOffset_cons (i : ℕ) :
    blockOffset (inst :: insts) (i + 1) = a64GetRewriteInstLen inst + blockOffset insts i := by
  simp [blockOffset]

theorem a64GetRewriteInstLen_le (inst : BitVec 32) : a64GetRewriteInstLen inst ≤ 28 := by
  rw [a64GetRewriteInstLen]
  cases a64GetType inst <;> decide

theorem blockOffset_le (insts : List (BitVec 32)) :
    blockOffset insts insts.length ≤ 28 * insts.length := by
  induction insts with
  | nil => exact Nat.le_refl 0
  | cons inst insts ih =>
    have hle := a64GetRewriteInstLen_le inst
    rw [List.length_cons, blockOffset_cons]
    omega

theorem blockOffset_mono {i j : ℕ} (h : i ≤ j) : blockOffset insts i ≤ blockOffset insts j := by
  obtain ⟨k, rfl⟩ := Nat.exists_eq_add_of_le h
  rw [blockOffset, blockOffset, List.take_add, List.map_append, List.sum_append]
  exact Nat.le_add_right ..

theorem four_mul_length_block (h : (a64Rewrite inst pc rinfo).2 ≠ 0) :
    4 * (a64Rewrite inst pc rinfo).1.length = a64GetRewriteInstLen inst := by
  obtain ⟨hlen, htable⟩ := a64Rewrite_len inst pc rinfo
  rw [← hlen, htable.resolve_left h]

theorem four_mul_length_blocks (h : Movable rinfo pc insts) :
    4 * (blocks rinfo pc insts).length = blockOffset insts insts.length := by
  induction insts generalizing pc with
  | nil => rfl
  | cons inst insts ih =>
    rw [blocks, List.length_append, Nat.mul_add, four_mul_length_block h.1, ih h.2,
      List.length_cons, blockOffset_cons]

/-- Every block lies where the lengths before it say. -/
theorem codeAt_block {mem : BitVec 64 → BitVec 8} {i : ℕ} (hmov : Movable rinfo pc insts)
    (h : CodeAt mem a (blocks rinfo pc insts)) (hi : insts[i]? = some inst) :
    (a64Rewrite inst (pc + BitVec.ofNat 64 (4 * i)) rinfo).2 ≠ 0 ∧
      CodeAt mem (a + BitVec.ofNat 64 (blockOffset insts i))
        (a64Rewrite inst (pc + BitVec.ofNat 64 (4 * i)) rinfo).1 := by
  induction insts generalizing pc a i with
  | nil => simp at hi
  | cons first insts ih =>
    obtain ⟨hfirst, hrest⟩ := codeAt_append.mp h
    cases i with
    | zero =>
      obtain rfl : first = inst := Option.some.inj hi
      rw [Nat.mul_zero, BitVec.add_zero]
      exact ⟨hmov.1, by rwa [blockOffset, List.take_zero, List.map_nil, List.sum_nil,
        BitVec.add_zero]⟩
    | succ i =>
      rw [← add_four_mul, blockOffset_cons, ← add_ofNat_add, ← four_mul_length_block hmov.1]
      exact ih hmov.2 hrest hi

/-! The addresses. -/

/-- Adding to an address without running over the end. -/
theorem toNat_add_ofNat {k : ℕ} (h : a.toNat + k < 2 ^ 64) :
    (a + BitVec.ofNat 64 k).toNat = a.toNat + k := by
  have hk : k < 2 ^ 64 := Nat.lt_of_le_of_lt (Nat.le_add_left ..) h
  rw [BitVec.toNat_add, BitVec.toNat_ofNat, Nat.mod_eq_of_lt hk, Nat.mod_eq_of_lt h]

theorem fixOffset_eq {lens : List ℕ} {j : ℕ} (offset : ℕ) (hj : j ≤ lens.length)
    (hend : a.toNat + 4 * j < 2 ^ 64) :
    RewriteInfo.fixOffset (a + BitVec.ofNat 64 (4 * j)) a offset lens =
      offset + (lens.take j).sum := by
  induction lens generalizing a j offset with
  | nil => simp [RewriteInfo.fixOffset]
  | cons len lens ih =>
    rw [RewriteInfo.fixOffset]
    cases j with
    | zero => simp
    | succ j =>
      have hlt : ¬ a ≥ a + BitVec.ofNat 64 (4 * (j + 1)) := by
        rw [ge_iff_le, BitVec.le_def, toNat_add_ofNat hend]
        omega
      have hnext : (a + 4).toNat = a.toNat + 4 :=
        toNat_add_ofNat (k := 4) (by omega)
      rw [if_neg hlt, ← add_four_mul, ih _ (by simpa using hj) (by omega), List.take_succ_cons,
        List.sum_cons, Nat.add_assoc]

/-- The address is one of the code that is moved. -/
def RewriteInfo.Inside (rinfo : RewriteInfo) (addr : BitVec 64) : Prop :=
  rinfo.startAddr ≤ addr ∧ addr < rinfo.endAddr

instance (rinfo : RewriteInfo) (addr : BitVec 64) : Decidable (rinfo.Inside addr) :=
  inferInstanceAs (Decidable (_ ∧ _))

theorem RewriteInfo.fixAddr_of_not {addr : BitVec 64} (h : ¬ rinfo.Inside addr) :
    rinfo.fixAddr addr = addr := if_neg h

/-- What `sh_inst_hook_rewrite` fills in for some instructions. -/
structure RewriteInfo.For (rinfo : RewriteInfo) (insts : List (BitVec 32)) : Prop where
  lens : rinfo.instLens = insts.map a64GetRewriteInstLen
  «end» : rinfo.endAddr = rinfo.startAddr + BitVec.ofNat 64 (4 * insts.length)
  noWrap : rinfo.startAddr.toNat + 4 * insts.length < 2 ^ 64

namespace RewriteInfo.For

variable (h : rinfo.For insts)
include h

theorem inside_iff {i : ℕ} (hi : i ≤ insts.length) :
    rinfo.Inside (rinfo.startAddr + BitVec.ofNat 64 (4 * i)) ↔ i < insts.length := by
  have hstart := h.noWrap
  rw [RewriteInfo.Inside, h.end, BitVec.le_def, BitVec.lt_def, toNat_add_ofNat hstart,
    toNat_add_ofNat (by omega)]
  omega

/-- Where a branch out of the moved code goes that stays inside it. -/
theorem fixAddr_eq {i : ℕ} (hi : i < insts.length) :
    rinfo.fixAddr (rinfo.startAddr + BitVec.ofNat 64 (4 * i)) =
      rinfo.buf + BitVec.ofNat 64 (blockOffset insts i) := by
  have hstart := h.noWrap
  have hoffset : RewriteInfo.fixOffset (rinfo.startAddr + BitVec.ofNat 64 (4 * i))
      rinfo.startAddr 0 rinfo.instLens = 0 + (rinfo.instLens.take i).sum :=
    fixOffset_eq 0 (by rw [h.lens, List.length_map]; omega) (by omega)
  rw [h.lens, Nat.zero_add, ← List.map_take, ← h.lens] at hoffset
  refine (if_pos ((h.inside_iff (by omega)).mpr hi)).trans ?_
  rw [hoffset]
  rfl

/-- An address of the code in the step of instructions is one of an instruction. -/
theorem exists_index {addr : BitVec 64} (hin : rinfo.Inside addr)
    (halign : (addr - rinfo.startAddr).toNat % 4 = 0) :
    ∃ i < insts.length, addr = rinfo.startAddr + BitVec.ofNat 64 (4 * i) := by
  obtain ⟨hle, hlt⟩ := hin
  rw [h.end, BitVec.lt_def, toNat_add_ofNat h.noWrap] at hlt
  rw [BitVec.le_def] at hle
  have hsub : (addr - rinfo.startAddr).toNat = addr.toNat - rinfo.startAddr.toNat :=
    BitVec.toNat_sub_of_le (BitVec.le_def.mpr hle)
  refine ⟨(addr - rinfo.startAddr).toNat / 4, by omega, ?_⟩
  rw [Nat.mul_div_cancel' (Nat.dvd_of_mod_eq_zero halign), BitVec.ofNat_toNat,
    BitVec.setWidth_eq, BitVec.add_comm, BitVec.sub_add_cancel]

end RewriteInfo.For

end NativeLib.ShadowHook
