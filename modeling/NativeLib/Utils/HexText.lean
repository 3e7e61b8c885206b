import Mathlib.Data.BitVec
import NativeLib.Collections.Positional
import NativeLib.Linker.Symbol
import NativeLib.Memory.Fields

/-! `utils/stringUtils.cpp`: bytes as hexadecimal text, and hexadecimal text as an `int`. The
weight of a digit is a `size_t`, the sum of the digits an `int`. -/

namespace NativeLib.Utils

open Collections
open Linker (ElfClass)
open Memory (sshiftRight_and_mask)

/-- A `char` as an `int`. On some machines it has a sign. -/
def charToInt (signedChar : Bool) (c : UInt8) : BitVec 32 :=
  if signedChar then c.toBitVec.signExtend 32 else c.toBitVec.setWidth 32

/-- `"0123456789ABCDEF"`. -/
def hex : List UInt8 :=
  [48, 49, 50, 51, 52, 53, 54, 55, 56, 57, 65, 66, 67, 68, 69, 70]

/-- `hex[(c >> 4) & 0xf]`. -/
def hexHigh (signedChar : Bool) (c : UInt8) : UInt8 :=
  hex.getD ((charToInt signedChar c).sshiftRight 4 &&& 0xf).toNat 0

/-- `hex[c & 0xf]`. -/
def hexLow (signedChar : Bool) (c : UInt8) : UInt8 :=
  hex.getD (charToInt signedChar c &&& 0xf).toNat 0

/-- `StringUtils::binaryToHex`. -/
def binaryToHex (signedChar : Bool) (binaryStr : List UInt8) : List UInt8 :=
  binaryStr.flatMap fun c => [hexHigh signedChar c, hexLow signedChar c]

/-- `isdigit`. No negative `int` is a digit. -/
def isdigit (c : UInt8) : Bool := 48 ≤ c && c ≤ 57

/-- `c - '0'` or `c - 'A' + 10`. -/
def hexDigit (signedChar : Bool) (c : UInt8) : BitVec 32 :=
  if isdigit c then charToInt signedChar c - 48 else charToInt signedChar c - 65 + 10

/-- `sum += digit * base`, where `base` is a `size_t`. -/
def addDigit (cls : ElfClass) (sum digit : BitVec 32) (base : BitVec cls.bits) : BitVec 32 :=
  (sum.signExtend cls.bits + digit.signExtend cls.bits * base).setWidth 32

/-- The loop of `HexToInt`, from position `i` down to 2. -/
def hexLoop (cls : ElfClass) (signedChar : Bool) (indexstr : List UInt8) :
    ℕ → BitVec cls.bits → BitVec 32 → BitVec 32
  | i + 2, base, sum =>
    hexLoop cls signedChar indexstr (i + 1) (base * 16)
      (addDigit cls sum (hexDigit signedChar (indexstr.getD (i + 2) 0)) base)
  | _, _, sum => sum

/-- `StringUtils::HexToInt`. What stands in front of `str` is `"0x"`. -/
def hexToInt (cls : ElfClass) (signedChar : Bool) (str : List UInt8) : ℤ :=
  let indexstr := [48, 120] ++ str
  (hexLoop cls signedChar indexstr (indexstr.length - 1) 1 0).toInt

variable {cls : ElfClass} {signedChar : Bool}

theorem bits_ge (cls : ElfClass) : 32 ≤ cls.bits := by
  cases cls <;> decide

/-- Whatever is computed in a wider `size_t` is the same in 32 bits. -/
theorem addDigit_eq (sum digit : BitVec 32) (base : BitVec cls.bits) :
    addDigit cls sum digit base = sum + digit * base.setWidth 32 := by
  have hself : ∀ x : BitVec 32, (x.signExtend cls.bits).setWidth 32 = x := by
    intro x
    ext i hi
    have hbits : i < cls.bits := hi.trans_le (bits_ge cls)
    rw [BitVec.getElem_setWidth, BitVec.getLsbD_signExtend]
    simp [hi, hbits]
  rw [addDigit, BitVec.setWidth_add _ _ (bits_ge cls), BitVec.setWidth_mul _ _ (bits_ge cls),
    hself, hself]

/-- The loop adds the value of what stands behind `"0x"`. -/
theorem hexLoop_eq (str tail : List UInt8) (base : BitVec cls.bits) (sum : BitVec 32) :
    hexLoop cls signedChar ([48, 120] ++ str ++ tail) (str.length + 1) base sum =
      sum + base.setWidth 32 * positional 16 (str.map (hexDigit signedChar)) := by
  induction str using List.reverseRecOn generalizing tail base sum with
  | nil =>
    rw [List.map_nil, positional_nil, mul_zero, add_zero]
    rfl
  | append_singleton str c ih =>
    have hread : ([48, 120] ++ (str ++ [c]) ++ tail).getD (str.length + 2) 0 = c := by simp
    have hbase : (base * 16).setWidth 32 = base.setWidth 32 * 16 := by
      rw [BitVec.setWidth_mul _ _ (bits_ge cls)]
      cases cls <;> rfl
    rw [List.length_append, List.length_singleton, hexLoop, hread, addDigit_eq]
    have hstr : [48, 120] ++ (str ++ [c]) ++ tail = [48, 120] ++ str ++ (c :: tail) := by simp
    rw [hstr, ih, hbase, List.map_append, List.map_singleton, positional_concat]
    ring

theorem hexToInt_eq (cls : ElfClass) (signedChar : Bool) (str : List UInt8) :
    hexToInt cls signedChar str = (positional 16 (str.map (hexDigit signedChar))).toInt := by
  have hloop := @hexLoop_eq cls signedChar str [] 1 0
  have hone : (1 : BitVec cls.bits).setWidth 32 = 1 := by cases cls <;> rfl
  rw [List.append_nil, hone, one_mul, zero_add] at hloop
  rw [hexToInt, ← hloop]
  congr 1

/-- Four bits of a byte, whether it was extended with its sign or not. -/
theorem charToInt_nibble (signedChar : Bool) (c : UInt8) {k : ℕ} (hk : k + 4 ≤ 8) :
    ((charToInt signedChar c).sshiftRight k &&& 0xf).toNat = c.toNat >>> k % 16 := by
  have hmask : (0xf : BitVec 32) = (BitVec.allOnes 4).setWidth 32 := rfl
  have hbits : (charToInt signedChar c).extractLsb' k 4 = c.toBitVec.extractLsb' k 4 := by
    ext i hi
    have hbyte : k + i < 8 := by omega
    have hint : k + i < 32 := by omega
    rw [BitVec.getElem_extractLsb', BitVec.getElem_extractLsb', charToInt]
    cases signedChar with
    | false => simp [hbyte, hint]
    | true =>
      rw [if_pos rfl, BitVec.getLsbD_signExtend]
      simp [hbyte, hint]
  rw [hmask, sshiftRight_and_mask _ (by omega), hbits, BitVec.toNat_setWidth,
    BitVec.extractLsb'_toNat, UInt8.toNat_toBitVec]
  exact Nat.mod_eq_of_lt ((Nat.mod_lt _ (by decide)).trans (by decide))

theorem hexDigit_hex (signedChar : Bool) :
    ∀ n < 16, hexDigit signedChar (hex.getD n 0) = (n : BitVec 32) := by
  cases signedChar <;> decide

theorem hexHigh_eq (signedChar : Bool) (c : UInt8) :
    hexHigh signedChar c = hex.getD (c.toNat / 16) 0 := by
  have hlt := c.toNat_lt
  have hn : c.toNat >>> 4 % 16 = c.toNat / 16 := by
    rw [Nat.shiftRight_eq_div_pow]
    omega
  rw [hexHigh, charToInt_nibble signedChar c (le_refl 8), hn]

theorem hexLow_eq (signedChar : Bool) (c : UInt8) :
    hexLow signedChar c = hex.getD (c.toNat % 16) 0 := by
  have hshift := charToInt_nibble signedChar c (show 0 + 4 ≤ 8 by decide)
  rw [BitVec.sshiftRight_zero, Nat.shiftRight_zero] at hshift
  rw [hexLow, hshift]

theorem hexDigit_hexHigh (signedChar : Bool) (c : UInt8) :
    hexDigit signedChar (hexHigh signedChar c) = ((c.toNat / 16 : ℕ) : BitVec 32) := by
  have hlt := c.toNat_lt
  rw [hexHigh_eq]
  exact hexDigit_hex signedChar _ (by omega)

theorem hexDigit_hexLow (signedChar : Bool) (c : UInt8) :
    hexDigit signedChar (hexLow signedChar c) = ((c.toNat % 16 : ℕ) : BitVec 32) := by
  rw [hexLow_eq]
  exact hexDigit_hex signedChar _ (Nat.mod_lt _ (by decide))

/-- The value of a row of bytes, the most significant one first. -/
def bigEndian (s : List UInt8) : ℕ := positional 256 (s.map UInt8.toNat)

/-- What is written as hexadecimal text is read back, as far as an `int` goes. -/
theorem hexToInt_binaryToHex (cls : ElfClass) (signedChar : Bool) (s : List UInt8) :
    hexToInt cls signedChar (binaryToHex signedChar s) = (bigEndian s : ℤ).bmod (2 ^ 32) := by
  have hbyte : ∀ c : UInt8, hexDigit signedChar (hexHigh signedChar c) * 16 +
      hexDigit signedChar (hexLow signedChar c) = (c.toNat : BitVec 32) := by
    intro c
    rw [hexDigit_hexHigh, hexDigit_hexLow]
    exact_mod_cast congrArg (Nat.cast (R := BitVec 32)) (Nat.div_add_mod' c.toNat 16)
  have hvalue : positional 16 ((binaryToHex signedChar s).map (hexDigit signedChar)) =
      (bigEndian s : BitVec 32) := by
    have hcast := map_positional (Nat.castRingHom (BitVec 32)) 256 (s.map UInt8.toNat)
    rw [binaryToHex, List.map_flatMap]
    refine (positional_flatMap 16 (fun c => hexDigit signedChar (hexHigh signedChar c))
      (fun c => hexDigit signedChar (hexLow signedChar c)) s).trans ?_
    simp only [hbyte]
    rw [List.map_map] at hcast
    exact hcast.symm
  rw [hexToInt_eq, hvalue]
  exact BitVec.toInt_ofNat' (bigEndian s)

/-- `std::toupper` of an `unsigned char`. -/
def toupper (c : UInt8) : UInt8 := if 97 ≤ c ∧ c ≤ 122 then c - 32 else c

/-- `std::tolower` of an `unsigned char`. -/
def tolower (c : UInt8) : UInt8 := if 65 ≤ c ∧ c ≤ 90 then c + 32 else c

/-- `StringUtils::toUpperCase`. -/
def toUpperCase (str : List UInt8) : List UInt8 := str.map toupper

/-- `StringUtils::toLowerCase`. -/
def toLowerCase (str : List UInt8) : List UInt8 := str.map tolower

/-- A decimal digit, or a letter from `a` to `f` in either case. -/
def isxdigit (c : UInt8) : Bool := isdigit c || (65 ≤ c && c ≤ 70) || (97 ≤ c && c ≤ 102)

/-- A small letter. -/
def islower (c : UInt8) : Bool := 97 ≤ c && c ≤ 122

theorem hexDigit_cases (signedChar : Bool) : ∀ c : BitVec 8, isxdigit ⟨c⟩ = true →
    hexDigit signedChar ⟨c⟩ =
        hexDigit signedChar (toupper ⟨c⟩) + 32 * ((islower ⟨c⟩).toNat : BitVec 32) ∧
      hexDigit signedChar (tolower ⟨c⟩) =
        hexDigit signedChar (toupper ⟨c⟩) + 32 * ((!isdigit ⟨c⟩).toNat : BitVec 32) := by
  cases signedChar <;> decide

/-- Digits that are 0 or 1 and weigh 32 times as much are lost in 32 bits unless one stands among
the last seven. -/
theorem bits_vanish (bit : UInt8 → Bool) (h : List UInt8) :
    32 * positional 16 (h.map fun c => ((bit c).toNat : BitVec 32)) = 0 ↔
      ∀ c ∈ h.drop (h.length - 7), bit c = false := by
  let weight (l : List UInt8) : ℕ := positional 16 (l.map fun c => (bit c).toNat)
  have hcast : 32 * positional 16 (h.map fun c => ((bit c).toNat : BitVec 32)) =
      BitVec.ofNat 32 (32 * weight h) := by
    have hmap := map_positional (Nat.castRingHom (BitVec 32)) 16 (h.map fun c => (bit c).toNat)
    rw [List.map_map] at hmap
    rw [BitVec.ofNat_mul]
    exact congrArg (32 * ·) hmap.symm
  have hsplit : weight h = weight (h.take (h.length - 7)) * 2 ^ 28 +
      weight (h.drop (h.length - 7)) := by
    by_cases hlen : h.length ≤ 7
    · rw [Nat.sub_eq_zero_of_le hlen]
      simp [weight]
    · have hlow : (h.drop (h.length - 7)).length = 7 := by
        rw [List.length_drop]
        omega
      have happend := positional_append 16
        ((h.take (h.length - 7)).map fun c => (bit c).toNat)
        ((h.drop (h.length - 7)).map fun c => (bit c).toNat)
      rw [← List.map_append, List.take_append_drop, List.length_map, hlow] at happend
      exact happend
  have hlow : weight (h.drop (h.length - 7)) < 2 ^ 27 := by
    have hones := @positional_ones_lt 15 ((h.drop (h.length - 7)).map fun c => (bit c).toNat) (by
      intro d hd
      obtain ⟨c, -, rfl⟩ := List.mem_map.mp hd
      exact Bool.toNat_le _)
    have hpow : 16 ^ ((h.drop (h.length - 7)).map fun c => (bit c).toNat).length ≤ 16 ^ 7 := by
      apply Nat.pow_le_pow_right (by decide)
      rw [List.length_map, List.length_drop]
      omega
    have hlt : weight (h.drop (h.length - 7)) * 15 < 16 ^ 7 := hones.trans_le hpow
    omega
  have hzero : (32 * weight h) % 2 ^ 32 = 0 ↔ weight (h.drop (h.length - 7)) = 0 := by omega
  rw [hcast, ← BitVec.toNat_inj, BitVec.toNat_ofNat]
  refine hzero.trans ((positional_eq_zero (by decide)).trans ?_)
  rw [List.forall_mem_map]
  simp only [Bool.toNat_eq_zero]

/-- A change of letters that adds 32 to some digits. -/
theorem hexToInt_map_eq_iff {h : List UInt8} {f : UInt8 → UInt8} {bit : UInt8 → Bool}
    (hf : ∀ c ∈ h, hexDigit signedChar (f c) =
      hexDigit signedChar (toupper c) + 32 * ((bit c).toNat : BitVec 32)) :
    hexToInt cls signedChar (h.map f) = hexToInt cls signedChar (toUpperCase h) ↔
      ∀ c ∈ h.drop (h.length - 7), bit c = false := by
  have hadd : positional 16 ((h.map f).map (hexDigit signedChar)) =
      positional 16 ((toUpperCase h).map (hexDigit signedChar)) +
        32 * positional 16 (h.map fun c => ((bit c).toNat : BitVec 32)) := by
    rw [toUpperCase, List.map_map, List.map_map, ← positional_map_add]
    exact congrArg (positional 16) (List.map_congr_left hf)
  rw [hexToInt_eq, hexToInt_eq, BitVec.toInt_inj, hadd, add_eq_left, bits_vanish]

/-- The three runs agree as long as there is no letter among the last seven digits. -/
theorem hexToInt_case_iff (cls : ElfClass) (signedChar : Bool) {h : List UInt8}
    (hh : ∀ c ∈ h, isxdigit c = true) :
    (hexToInt cls signedChar h = hexToInt cls signedChar (toUpperCase h) ∧
        hexToInt cls signedChar (toUpperCase h) = hexToInt cls signedChar (toLowerCase h)) ↔
      ∀ c ∈ h.drop (h.length - 7), isdigit c = true := by
  have hself := @hexToInt_map_eq_iff cls signedChar h id islower fun c hc =>
    (hexDigit_cases signedChar c.toBitVec (hh c hc)).1
  have hlower := @hexToInt_map_eq_iff cls signedChar h tolower (fun c => !isdigit c) fun c hc =>
    (hexDigit_cases signedChar c.toBitVec (hh c hc)).2
  rw [List.map_id] at hself
  rw [hself, eq_comm, toLowerCase, hlower]
  simp only [Bool.not_eq_false']
  refine and_iff_right_of_imp ?_
  intro hdigits c hc
  have hdigit := hdigits c hc
  simp only [isdigit, Bool.and_eq_true, decide_eq_true_eq, UInt8.le_iff_toNat_le] at hdigit
  have h9 : c.toNat ≤ 57 := hdigit.2
  have hlt : ¬ (97 : UInt8) ≤ c := by
    rw [UInt8.le_iff_toNat_le]
    exact Nat.not_le_of_lt (h9.trans_lt (by decide))
  simp [islower, hlt]

/-- A letter in front of seven digits. -/
theorem hexToInt_case_high :
    (hexToInt .elf64 true [97, 48, 48, 48, 48, 48, 48, 48] =
        hexToInt .elf64 true (toUpperCase [97, 48, 48, 48, 48, 48, 48, 48]) ∧
      hexToInt .elf64 true (toUpperCase [97, 48, 48, 48, 48, 48, 48, 48]) =
        hexToInt .elf64 true (toLowerCase [97, 48, 48, 48, 48, 48, 48, 48])) ↔
      ∀ c ∈ [97, 48, 48, 48, 48, 48, 48, 48].drop 1, isdigit c = true :=
  hexToInt_case_iff .elf64 true (List.all_eq_true.mp (by decide))

/-- `a` is not read as `A`. -/
theorem hexToInt_case_differs : ¬ ∀ (cls : ElfClass) (signedChar : Bool) (h : List UInt8),
    (∀ c ∈ h, isxdigit c = true) →
      hexToInt cls signedChar h = hexToInt cls signedChar (toUpperCase h) ∧
        hexToInt cls signedChar (toUpperCase h) = hexToInt cls signedChar (toLowerCase h) := by
  intro h
  have hdigits : ∀ c ∈ [97], isxdigit c = true := List.all_eq_true.mp (by decide)
  exact absurd (h .elf64 true [97] hdigits).1 (by decide)

end NativeLib.Utils
