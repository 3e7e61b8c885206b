import NativeLib.Dlfc.GnuLookup

/-! A GNU hash section by the rules of the ABI, for every symbol table whose symbols stand grouped
by their buckets. -/

namespace NativeLib.Dlfc

open Collections
open Linker (ElfClass)

namespace GnuParts

variable {c : ElfClass}

/-- The first symbol of a bucket, or 0. -/
def firstOf (p : GnuParts c) (b : ℕ) : ℕ :=
  ((List.range p.dynsym.length).find? fun i =>
    p.symndx.toNat ≤ i ∧ p.bucketOf i = b).getD 0

/-- The hash of a symbol with the low bit for the end of its group. -/
def chainWord (p : GnuParts c) (i : ℕ) : UInt32 :=
  .ofNat (2 * (p.hash i / 2) + if LastOfGroup p.bucketOf p.dynsym.length i then 1 else 0)

/-- As many buckets as before, filled in, and a filter that lets everything through. -/
def build (p : GnuParts c) : GnuParts c where
  dynsym := p.dynsym
  strings := p.strings
  symndx := p.symndx
  shift2 := p.shift2
  bloom := [BitVec.allOnes c.bits]
  buckets := (List.range p.buckets.length).map fun b => .ofNat (p.firstOf b)
  chain := (List.range (p.dynsym.length - p.symndx.toNat)).map fun k =>
    p.chainWord (p.symndx.toNat + k)

variable (p : GnuParts c) {i b : ℕ}

theorem bucketOf_build : p.build.bucketOf = p.bucketOf := by
  funext i
  have hlen : p.build.buckets.length = p.buckets.length := by
    rw [build, List.length_map, List.length_range]
  rw [bucketOf, bucketOf, hlen]
  rfl

theorem getElem?_buckets_build (hb : b < p.buckets.length) :
    p.build.buckets[b]? = some (.ofNat (p.firstOf b)) := by
  rw [build, List.getElem?_map, List.getElem?_range hb]
  rfl

theorem getElem?_chain_build (hlo : p.symndx.toNat ≤ i) (hi : i < p.dynsym.length) :
    p.build.chain[i - p.symndx.toNat]? = some (p.chainWord i) := by
  have hk : i - p.symndx.toNat < p.dynsym.length - p.symndx.toNat := by omega
  rw [build, List.getElem?_map, List.getElem?_range hk, Option.map_some, Nat.add_sub_cancel' hlo]

theorem firstOf_eq (h : FirstOfGroup p.bucketOf p.symndx.toNat p.dynsym.length i) :
    p.firstOf (p.bucketOf i) = i := by
  have hfind : (List.range p.dynsym.length).find?
      (fun j => p.symndx.toNat ≤ j ∧ p.bucketOf j = p.bucketOf i) = some i := by
    rw [List.find?_range_eq_some]
    refine ⟨decide_eq_true ⟨h.ge, rfl⟩, List.mem_range.mpr h.lt, ?_⟩
    intro j hj
    have hnot : ¬ (p.symndx.toNat ≤ j ∧ p.bucketOf j = p.bucketOf i) := by
      intro hboth
      have hle := h.first j hboth.1 (Nat.lt_trans hj h.lt) hboth.2
      omega
    rw [decide_eq_false hnot]
    rfl
  rw [firstOf, hfind, Option.getD_some]

theorem firstOf_empty
    (h : ∀ i, p.symndx.toNat ≤ i → i < p.dynsym.length → p.bucketOf i ≠ b) :
    p.firstOf b = 0 := by
  have hfind : (List.range p.dynsym.length).find?
      (fun j => p.symndx.toNat ≤ j ∧ p.bucketOf j = b) = none := by
    rw [List.find?_range_eq_none]
    intro j hj
    rw [decide_eq_false fun hboth => h j hboth.1 hj hboth.2]
    rfl
  rw [firstOf, hfind, Option.getD_none]

theorem toNat_chainWord (i : ℕ) :
    (p.chainWord i).toNat = 2 * (p.hash i / 2) +
      if LastOfGroup p.bucketOf p.dynsym.length i then 1 else 0 := by
  have hlt : p.hash i < 2 ^ 32 := Nat.mod_lt _ (by decide)
  refine UInt32.toNat_ofNat_of_lt' (show _ < 2 ^ 32 from ?_)
  by_cases hlast : LastOfGroup p.bucketOf p.dynsym.length i
  · rw [if_pos hlast]
    omega
  · rw [if_neg hlast]
    omega

theorem chainWord_half (i : ℕ) : (p.chainWord i).toNat / 2 = p.hash i / 2 := by
  rw [toNat_chainWord]
  by_cases hlast : LastOfGroup p.bucketOf p.dynsym.length i
  · rw [if_pos hlast]
    omega
  · rw [if_neg hlast]
    omega

theorem chainWord_low (i : ℕ) :
    (p.chainWord i).toNat % 2 = 1 ↔ LastOfGroup p.bucketOf p.dynsym.length i := by
  rw [toNat_chainWord]
  by_cases hlast : LastOfGroup p.bucketOf p.dynsym.length i
  · rw [if_pos hlast]
    exact iff_of_true (by omega) hlast
  · rw [if_neg hlast]
    exact iff_of_false (by omega) hlast

end GnuParts

/-- The rules of the ABI can be kept for every table of symbols that stand grouped. -/
def GnuTable.build {c : ElfClass} (p : GnuParts c) (symndx_pos : 1 ≤ p.symndx.toNat)
    (dynsym_le : p.dynsym.length ≤ 2 ^ 32) (buckets_pos : 0 < p.buckets.length)
    (buckets_lt : p.buckets.length < 2 ^ 32) (shift2_lt : p.shift2 < 32)
    (terminated : ∀ i, p.symndx.toNat ≤ i → i < p.dynsym.length → (p.symName i).isSome)
    (grouped : Grouped p.bucketOf p.symndx.toNat p.dynsym.length) : GnuTable c where
  toGnuParts := p.build
  symndx_pos
  dynsym_le
  bloom_lt := by rw [GnuParts.build, List.length_singleton]; decide
  buckets_lt := by rwa [GnuParts.build, List.length_map, List.length_range]
  shift2_lt
  terminated
  grouped := by
    rw [p.bucketOf_build]
    exact grouped
  bucket_first := by
    intro i hfirst
    rw [p.bucketOf_build] at hfirst ⊢
    have hb : p.bucketOf i < p.buckets.length := Nat.mod_lt _ buckets_pos
    rw [p.getElem?_buckets_build hb, p.firstOf_eq hfirst]
  bucket_empty := by
    intro b hb hempty
    rw [p.bucketOf_build] at hempty
    rw [GnuParts.build, List.length_map, List.length_range] at hb
    rw [p.getElem?_buckets_build hb, p.firstOf_empty hempty]
    rfl
  chain_word := by
    intro i hlo hi
    refine ⟨p.chainWord i, ?_, p.chainWord_half i, ?_⟩
    · exact p.getElem?_chain_build hlo hi
    · rw [p.bucketOf_build]
      exact p.chainWord_low i
  bloom_bits := by
    intro i _ _
    have hpos : 0 < c.bits := by cases c <;> decide
    refine ⟨BitVec.allOnes c.bits, ?_, ?_, ?_⟩
    · rw [GnuParts.build, List.length_singleton, Nat.mod_one]
      rfl
    · rw [BitVec.getLsbD_allOnes]
      exact decide_eq_true (Nat.mod_lt _ hpos)
    · rw [BitVec.getLsbD_allOnes]
      exact decide_eq_true (Nat.mod_lt _ hpos)

/-! Two buckets: the symbols `a` and `c` are in the first of them, `b` in the other. -/

def twoBuckets : GnuParts .elf64 where
  dynsym := [⟨0, 0, 0, 0⟩, ⟨1, 0x12, 0x500, 8⟩, ⟨3, 0x12, 0x600, 8⟩, ⟨5, 0x12, 0x700, 8⟩]
  strings := [0, 97, 0, 99, 0, 98, 0]
  symndx := 1
  shift2 := 5
  bloom := []
  buckets := [0, 0]
  chain := []

theorem twoBuckets_grouped : Grouped twoBuckets.bucketOf 1 4 := by
  have hall : ∀ i j k : Fin 4, 1 ≤ i.val → i ≤ j → j ≤ k →
      twoBuckets.bucketOf i = twoBuckets.bucketOf k →
        twoBuckets.bucketOf j = twoBuckets.bucketOf k := by decide
  intro i j k hi hij hjk hk
  exact hall ⟨i, by omega⟩ ⟨j, by omega⟩ ⟨k, hk⟩ hi hij hjk

def twoBucketsTable : GnuTable .elf64 :=
  .build twoBuckets (by decide) (by decide) (by decide) (by decide) (by decide)
    (by
      have hall : ∀ i < 4, 1 ≤ i → (twoBuckets.symName i).isSome := by decide
      exact fun i hlo hi => hall i hi hlo)
    twoBuckets_grouped

/-- `c` is found behind `a`, in the bucket of both. -/
theorem twoBucketsTable_lookup : ∃ g fuel, gnuHashSection .elf64 twoBucketsTable.dBuf = some g ∧
    gnuLookup .elf64 g twoBucketsTable.tables fuel [99] (gnuHash [99]) = some 0x600 :=
  twoBucketsTable.gnuLookup_eq [99]

end NativeLib.Dlfc
