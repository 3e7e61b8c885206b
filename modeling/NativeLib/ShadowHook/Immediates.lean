import NativeLib.Arm64.Decoding
import NativeLib.ShadowHook.A64

/-! What `sh_a64.cpp` takes out of an instruction is what the instruction says: its type, its
register and the number in it. -/

namespace NativeLib.ShadowHook

open Arm64

variable {inst : BitVec 32}

theorem getBits32_eq (n : BitVec 32) (low len : ℕ) (h : low + len ≤ 32) (hlen : 0 < len) :
    getBits32 n (low + len - 1) low = (n.extractLsb' low len).setWidth 32 := by
  ext i hi
  rw [getBits32, BitVec.getElem_ushiftRight, BitVec.getLsbD_shiftLeft, BitVec.getElem_setWidth,
    BitVec.getLsbD_extractLsb']
  by_cases hin : i < len
  · have hlt : 31 - (low + len - 1) + low + i < 32 := by omega
    have hge : ¬ 31 - (low + len - 1) + low + i < 31 - (low + len - 1) := by omega
    rw [show 31 - (low + len - 1) + low + i - (31 - (low + len - 1)) = low + i by omega]
    simp [hin, hlt, hge]
  · have hge : ¬ 31 - (low + len - 1) + low + i < 32 := by omega
    simp [hin, hge]

theorem getBit64_pos {n : BitVec 64} {idx : ℕ} (h : idx < 64) :
    0 < getBit64 n idx ↔ n.getLsbD idx = true := by
  have hbit : getBit64 n idx = (n.extractLsb' idx 1).setWidth 64 := by
    ext i hi
    rw [getBit64, BitVec.getElem_ushiftRight, BitVec.getLsbD_shiftLeft, BitVec.getElem_setWidth,
      BitVec.getLsbD_extractLsb']
    cases i with
    | zero =>
      rw [show 63 + 0 - (63 - idx) = idx by omega]
      simp [show ¬ 63 + 0 < 63 - idx by omega]
    | succ i => simp [show ¬ 63 + (i + 1) < 64 by omega]
  have hone : ∀ b : BitVec 1, 0 < b.setWidth 64 ↔ b.getLsbD 0 = true := by decide
  rw [hbit, hone, BitVec.getLsbD_extractLsb']
  simp

/-- The macro extends the sign of a number of `len` bits. -/
theorem signExtend64_eq {len : ℕ} (n : BitVec len) (hlen : 0 < len) (h : len < 64) :
    signExtend64 (n.setWidth 64) len = n.signExtend 64 := by
  have hmsb : (n.setWidth 64).getLsbD (len - 1) = n.msb := by
    rw [BitVec.getLsbD_setWidth, BitVec.msb_eq_getLsbD_last]
    simp [show len - 1 < 64 by omega]
  have hones : ∀ i < 64, (0xFFFFFFFFFFFFFFFF#64 <<< len).getLsbD i = decide (len ≤ i) := by
    intro i hi
    rw [show 0xFFFFFFFFFFFFFFFF#64 = BitVec.allOnes 64 by decide, BitVec.getLsbD_shiftLeft,
      BitVec.getLsbD_allOnes]
    simp only [hi, show i - len < 64 by omega, decide_true, Bool.true_and, Bool.and_true,
      ← decide_not, Nat.not_lt]
  have hpast : ∀ i, ¬ i < len → n.getLsbD i = false := fun i hi =>
    BitVec.getLsbD_of_ge n i (by omega)
  apply BitVec.eq_of_getLsbD_eq
  intro i hi
  rw [signExtend64, BitVec.getLsbD_signExtend, ← hmsb, decide_eq_true hi, Bool.true_and]
  split_ifs with hpos hin hin
  · rw [BitVec.getLsbD_or, hones i hi, BitVec.getLsbD_setWidth, decide_eq_true hi,
      decide_eq_false (by omega), Bool.true_and, Bool.or_false]
  · rw [BitVec.getLsbD_or, hones i hi, decide_eq_true (by omega), Bool.or_true,
      (getBit64_pos (by omega)).mp hpos]
  · rw [BitVec.getLsbD_setWidth, decide_eq_true hi, Bool.true_and]
  · rw [getBit64_pos (by omega), Bool.not_eq_true] at hpos
    rw [BitVec.getLsbD_setWidth, decide_eq_true hi, Bool.true_and, hpos, hpast i hin]

theorem shiftLeft_eq_append {m : ℕ} (x : BitVec m) (k : ℕ) :
    x.setWidth 64 <<< k = (x ++ 0#k).setWidth 64 := by
  apply BitVec.eq_of_getLsbD_eq
  intro i hi
  simp only [BitVec.getLsbD_shiftLeft, BitVec.getLsbD_setWidth, BitVec.getLsbD_append, hi,
    show i - k < 64 by omega, decide_true, Bool.true_and]
  by_cases hk : i < k <;> simp [hk]

theorem or_eq_append {m k : ℕ} (x : BitVec m) (y : BitVec k) :
    x.setWidth 64 <<< k ||| y.setWidth 64 = (x ++ y).setWidth 64 := by
  apply BitVec.eq_of_getLsbD_eq
  intro i hi
  simp only [BitVec.getLsbD_or, BitVec.getLsbD_shiftLeft, BitVec.getLsbD_setWidth,
    BitVec.getLsbD_append, hi, show i - k < 64 by omega, decide_true, Bool.true_and]
  by_cases hk : i < k
  · simp [hk]
  · simp [hk, BitVec.getLsbD_of_ge y i (by omega)]

theorem setWidth_getBits32 (n : BitVec 32) (low len : ℕ) (h : low + len ≤ 32) (hlen : 0 < len) :
    (getBits32 n (low + len - 1) low).setWidth 64 = (n.extractLsb' low len).setWidth 64 := by
  rw [getBits32_eq n low len h hlen]
  apply BitVec.eq_of_getLsbD_eq
  intro i hi
  simp only [BitVec.getLsbD_setWidth, hi, decide_true, Bool.true_and]
  by_cases hin : i < 32
  · simp [hin]
  · simp [hin, BitVec.getLsbD_of_ge (n.extractLsb' low len) i (by omega)]

/-! The offsets. -/

/-- A field of `len` bits that counts words. -/
theorem wordOffset_eq (low len : ℕ) (h : low + len ≤ 32) (hlen : 0 < len) :
    signExtend64 ((getBits32 inst (low + len - 1) low).setWidth 64 <<< 2) (len + 2) =
      (inst.extractLsb' low len ++ 0#2).signExtend 64 := by
  rw [setWidth_getBits32 inst low len h hlen, shiftLeft_eq_append]
  exact signExtend64_eq _ (by omega) (by omega)

theorem offset26_eq : signExtend64 ((getBits32 inst 25 0).setWidth 64 <<< 2) 28 = imm26 inst :=
  wordOffset_eq 0 26 (by omega) (by omega)

theorem offset19_eq : signExtend64 ((getBits32 inst 23 5).setWidth 64 <<< 2) 21 = imm19 inst :=
  wordOffset_eq 5 19 (by omega) (by omega)

theorem offset14_eq : signExtend64 ((getBits32 inst 18 5).setWidth 64 <<< 2) 16 = imm14 inst :=
  wordOffset_eq 5 14 (by omega) (by omega)

theorem immhi_eq : (getBits32 inst 23 5).setWidth 64 = (inst.extractLsb' 5 19).setWidth 64 :=
  setWidth_getBits32 inst 5 19 (by omega) (by omega)

theorem immlo_eq : (getBits32 inst 30 29).setWidth 64 = (inst.extractLsb' 29 2).setWidth 64 :=
  setWidth_getBits32 inst 29 2 (by omega) (by omega)

theorem adrOffset_eq :
    signExtend64 ((getBits32 inst 23 5).setWidth 64 <<< 2 ||| (getBits32 inst 30 29).setWidth 64)
      21 = (imm21 inst).signExtend 64 := by
  rw [immhi_eq, immlo_eq, or_eq_append]
  exact signExtend64_eq _ (by omega) (by omega)

theorem adrpOffset_eq :
    signExtend64 ((getBits32 inst 23 5).setWidth 64 <<< 14 |||
      (getBits32 inst 30 29).setWidth 64 <<< 12) 33 = (imm21 inst ++ 0#12).signExtend 64 := by
  have hshift : (getBits32 inst 23 5).setWidth 64 <<< 14 |||
      (getBits32 inst 30 29).setWidth 64 <<< 12 = (imm21 inst).setWidth 64 <<< 12 := by
    rw [immhi_eq, immlo_eq, imm21, ← or_eq_append, BitVec.shiftLeft_or_distrib,
      ← BitVec.shiftLeft_add]
  rw [hshift, shiftLeft_eq_append]
  exact signExtend64_eq _ (by omega) (by omega)

theorem getBits32_rt : getBits32 inst 4 0 = (rt inst).setWidth 32 :=
  getBits32_eq inst 0 5 (by omega) (by omega)

/-! The types. -/

namespace A64Type

/-- The load that a type stands for. -/
def load? : A64Type → Option Load
  | .ldrLit32 => some .w
  | .ldrLit64 => some .x
  | .ldrswLit => some .sw
  | .prfmLit => some .prefetch
  | .ldrSimdLit32 => some .s
  | .ldrSimdLit64 => some .d
  | .ldrSimdLit128 => some .q
  | _ => none

/-- What instructions of a type have in common. -/
def Shows (inst : BitVec 32) : A64Type → Prop
  | .ignored => ¬ (decode inst).PcRelative
  | .b => inst &&& 0xFC000000 = 0x14000000
  | .bCond => inst &&& 0xFF000010 = 0x54000000
  | .bl => inst &&& 0xFC000000 = 0x94000000
  | .adr => inst &&& 0x9F000000 = 0x10000000
  | .adrp => inst &&& 0x9F000000 = 0x90000000
  | .cbz | .cbnz => inst &&& 0x7E000000 = 0x34000000
  | .tbz | .tbnz => inst &&& 0x7E000000 = 0x36000000
  | type => ∃ kind, type.load? = some kind ∧ inst &&& 0xFF000000 = kind.opcode

end A64Type

/-- One more bit under a mask. -/
theorem and_mask_bit {mask val : BitVec 32} (i : ℕ) (h : inst &&& mask = val) :
    inst &&& (mask ||| BitVec.twoPow 32 i) = val ∨
      inst &&& (mask ||| BitVec.twoPow 32 i) = val ||| BitVec.twoPow 32 i := by
  rw [BitVec.and_or_distrib_left, h, BitVec.and_twoPow]
  split_ifs
  · exact .inr rfl
  · exact .inl BitVec.or_zero

/-- A row of tests, one test at a time. -/
theorem of_ite {α : Type} {P : α → Prop} {c : Prop} [Decidable c] {t e : α} (ht : c → P t)
    (he : ¬ c → P e) : P (if c then t else e) := by
  by_cases h : c
  · rw [if_pos h]
    exact ht h
  · rw [if_neg h]
    exact he h

/-- Every instruction that reads its own address is recognised for what it is. -/
theorem shows_a64GetType (inst : BitVec 32) : (a64GetType inst).Shows inst := by
  rw [a64GetType]
  refine of_ite id fun hb => of_ite id fun hbCond => of_ite id fun hbl => of_ite id fun hadr =>
    of_ite id fun hadrp => of_ite (fun h => ⟨.w, rfl, h⟩) fun hw =>
    of_ite (fun h => ⟨.x, rfl, h⟩) fun hx => of_ite (fun h => ⟨.sw, rfl, h⟩) fun hsw =>
    of_ite (fun h => ⟨.prefetch, rfl, h⟩) fun hprfm => of_ite (fun h => ⟨.s, rfl, h⟩) fun hs =>
    of_ite (fun h => ⟨.d, rfl, h⟩) fun hd => of_ite (fun h => ⟨.q, rfl, h⟩) fun hq =>
    of_ite (fun h => Memory.and_of_and h (by decide) (by decide)) fun hcbz =>
    of_ite (fun h => Memory.and_of_and h (by decide) (by decide)) fun hcbnz =>
    of_ite (fun h => Memory.and_of_and h (by decide) (by decide)) fun htbz =>
    of_ite (fun h => Memory.and_of_and h (by decide) (by decide)) fun htbnz => ?_
  have hmask : 0x7E000000 ||| BitVec.twoPow 32 24 = 0x7F000000#32 := by decide
  have hcb : inst &&& 0x7E000000 ≠ 0x34000000 := by
    intro h
    have hbit := and_mask_bit 24 h
    rw [hmask, show 0x34000000 ||| BitVec.twoPow 32 24 = 0x35000000#32 by decide] at hbit
    exact hbit.elim hcbz hcbnz
  have htb : inst &&& 0x7E000000 ≠ 0x36000000 := by
    intro h
    have hbit := and_mask_bit 24 h
    rw [hmask, show 0x36000000 ||| BitVec.twoPow 32 24 = 0x37000000#32 by decide] at hbit
    exact hbit.elim htbz htbnz
  rw [A64Type.Shows, decode, if_neg hb, if_neg hbl, if_neg hbCond, if_neg hcb, if_neg htb,
    if_neg hadr, if_neg hadrp, if_neg hw, if_neg hx, if_neg hsw, if_neg hprfm, if_neg hs,
    if_neg hd, if_neg hq]
  iterate 12 refine of_ite (P := fun i : Instr => ¬ i.PcRelative) (fun _ => not_false) fun _ => ?_
  exact not_false

end NativeLib.ShadowHook
