import Mathlib.Algebra.Group.Nat.Defs
import Mathlib.Data.List.Sort
import NativeLib.Interaction.Loops

/-! Loops that sweep a range of addresses in steps of one size. -/

namespace NativeLib.Interaction

open Prog (visits ends)

variable {w k n size : ℕ} {begin limit p : BitVec w}

/-- `n` addresses, `k` apart. -/
def strided (k : ℕ) (begin : BitVec w) (n : ℕ) : List (BitVec w) :=
  (List.range n).map fun i => begin + BitVec.ofNat w (k * i)

theorem strided_succ : strided k begin (n + 1) =
    strided k begin n ++ [begin + BitVec.ofNat w (k * n)] := by
  rw [strided, List.range_succ, List.map_append, List.map_singleton, strided]

theorem toNat_add_ofNat (h : begin.toNat + n < 2 ^ w) :
    (begin + BitVec.ofNat w n).toNat = begin.toNat + n := by
  rw [BitVec.toNat_add, BitVec.toNat_ofNat, Nat.add_mod_mod, Nat.mod_eq_of_lt h]

theorem toNat_sub_ofNat (h : n ≤ p.toNat) : (p - BitVec.ofNat w n).toNat = p.toNat - n := by
  have hn : (BitVec.ofNat w n).toNat = n := by
    rw [BitVec.toNat_ofNat, Nat.mod_eq_of_lt (h.trans_lt p.isLt)]
  rw [BitVec.toNat_sub_of_le (by rwa [BitVec.le_def, hn]), hn]

theorem mem_strided (h : ∀ i < n, begin.toNat + k * i < 2 ^ w) :
    p ∈ strided k begin n ↔ ∃ i < n, p.toNat = begin.toNat + k * i := by
  simp only [strided, List.mem_map, List.mem_range]
  refine exists_congr fun i => and_congr_right fun hi => ?_
  rw [← BitVec.toNat_inj, toNat_add_ofNat (h i hi), eq_comm]

theorem strided_sorted (hk : 0 < k) (h : ∀ i < n, begin.toNat + k * i < 2 ^ w) :
    (strided k begin n).Pairwise (· < ·) := by
  refine List.pairwise_map.mpr (List.pairwise_lt_range.imp_of_mem ?_)
  intro i j hi hj hij
  rw [BitVec.lt_def, toNat_add_ofNat (h i (List.mem_range.mp hi)),
    toNat_add_ofNat (h j (List.mem_range.mp hj))]
  have := Nat.mul_lt_mul_of_pos_left hij hk
  omega

theorem iterate_add (i : ℕ) :
    (fun p : BitVec w => p + BitVec.ofNat w k)^[i] begin = begin + BitVec.ofNat w (k * i) := by
  induction i with
  | zero => simp
  | succ i ih =>
    rw [Function.iterate_succ_apply', ih, BitVec.add_assoc, ← BitVec.ofNat_add, Nat.mul_succ]

/-- A loop that steps upwards stops at the first step that is not below the limit. -/
theorem visits_strided (k n : ℕ) (begin limit : BitVec w) (hn : 0 < n)
    (hgo : ∀ i, 0 < i → i < n → begin.toNat + k * i < limit.toNat)
    (hstop : limit.toNat ≤ begin.toNat + k * n) (hover : begin.toNat + k * n < 2 ^ w) {fuel : ℕ}
    (hfuel : n ≤ fuel) :
    visits (· + BitVec.ofNat w k) (· < limit) fuel begin = strided k begin n ∧
      ends (· + BitVec.ofNat w k) (· < limit) fuel begin = true := by
  have hlt : ∀ i ≤ n, begin.toNat + k * i < 2 ^ w := fun i hi => by
    have := Nat.mul_le_mul_left k hi
    omega
  have hat : ∀ i ≤ n, ((fun p : BitVec w => p + BitVec.ofNat w k)^[i] begin < limit ↔
      begin.toNat + k * i < limit.toNat) := fun i hi => by
    rw [iterate_add, BitVec.lt_def, toNat_add_ofNat (hlt i hi)]
  obtain ⟨hvisits, hends⟩ := Prog.visits_eq_iterate (· + BitVec.ofNat w k)
    (fun p => decide (p < limit)) (x := begin) (n := n)
    (fun i hi hin => decide_eq_true ((hat i (by omega)).mpr (hgo i hi hin)))
    (decide_eq_false fun h => absurd ((hat n le_rfl).mp h) (by omega)) hn hfuel
  refine ⟨?_, hends⟩
  rw [hvisits, strided]
  exact List.map_congr_left fun i _ => iterate_add i

/-- The 4-aligned addresses of a range that has an aligned start, with `size` bytes of the range
from there on. -/
def alignedWithin (size : ℕ) (begin limit : BitVec w) : List (BitVec w) :=
  strided 4 begin ((limit.toNat + 4 - size - begin.toNat) / 4)

theorem alignedWithin_lt (hsize : 0 < size) {i : ℕ}
    (hi : i < (limit.toNat + 4 - size - begin.toNat) / 4) : begin.toNat + 4 * i < 2 ^ w := by
  have := limit.isLt
  omega

theorem mem_alignedWithin (hsize : 0 < size) (hbegin : 4 ∣ begin.toNat) :
    p ∈ alignedWithin size begin limit ↔
      4 ∣ p.toNat ∧ begin.toNat ≤ p.toNat ∧ p.toNat + size ≤ limit.toNat := by
  rw [alignedWithin, mem_strided fun i => alignedWithin_lt hsize]
  refine ⟨?_, ?_⟩
  · rintro ⟨i, hi, hp⟩
    omega
  · rintro ⟨hp, hle, hend⟩
    exact ⟨(p.toNat - begin.toNat) / 4, by omega, by omega⟩

theorem alignedWithin_sorted (hsize : 0 < size) :
    (alignedWithin size begin limit).Pairwise (· < ·) :=
  strided_sorted (by omega) fun _ => alignedWithin_lt hsize

end NativeLib.Interaction
