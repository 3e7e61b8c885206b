import Mathlib.Algebra.Group.Nat.Defs
import Mathlib.Data.List.Induction
import NativeLib.Collections.Groups
import NativeLib.Dlfc.SymbolTables
import NativeLib.Memory.Fields

/-! The search in a GNU hash section, which is as good as one in the symbol table. -/

namespace NativeLib.Dlfc

open Collections
open Linker (ElfClass)
open Memory (exists_append)

/-- The hash of the code is the one of the ABI. -/
theorem toNat_gnuHash (name : List UInt8) : (gnuHash name).toNat = gnuAbiHash name := by
  induction name using List.reverseRecOn with
  | nil => rfl
  | append_singleton name c ih =>
    have hstep : gnuHash (name ++ [c]) =
        gnuHash name + ((gnuHash name <<< 5) + c.toUInt32) := by
      rw [gnuHash, List.foldl_append]
      rfl
    have hshift : (gnuHash name <<< 5).toNat = (gnuHash name).toNat * 32 % 2 ^ 32 := by
      rw [UInt32.toNat_shiftLeft]
      exact congrArg (· % 2 ^ 32) (Nat.shiftLeft_eq _ 5)
    rw [hstep, UInt32.toNat_add, UInt32.toNat_add, hshift, UInt8.toNat_toUInt32, ih, gnuAbiHash,
      gnuAbiHash, List.foldl_append, List.foldl_cons, List.foldl_nil]
    omega

/-- A dynamic symbol table with a hash table for the symbols from `symndx` on. -/
structure GnuParts (c : ElfClass) where
  dynsym : List Sym
  strings : List UInt8
  symndx : UInt32
  shift2 : UInt32
  bloom : List (BitVec c.bits)
  buckets : List UInt32
  chain : List UInt32

/-- The words of an `uintptr_t`. -/
def words : (c : ElfClass) → BitVec c.bits → List UInt32
  | .elf32, x => [⟨x⟩]
  | .elf64, x => [⟨x.extractLsb' 0 32⟩, ⟨x.extractLsb' 32 32⟩]

namespace GnuParts

variable {c : ElfClass}

/-- The name of a symbol. -/
def symName (t : GnuParts c) (i : ℕ) : Option (List UInt8) :=
  t.dynsym[i]?.bind fun sym => nameAt t.strings sym.stName

def hash (t : GnuParts c) (i : ℕ) : ℕ := gnuAbiHash ((t.symName i).getD [])

def bucketOf (t : GnuParts c) (i : ℕ) : ℕ := t.hash i % t.buckets.length

/-- The section in the file. -/
def dBuf (t : GnuParts c) : List UInt32 :=
  [.ofNat t.buckets.length, t.symndx, .ofNat t.bloom.length, t.shift2] ++
    t.bloom.flatMap (words c) ++ t.buckets ++ t.chain

def tables (t : GnuParts c) : Tables := ⟨t.dBuf, t.dynsym, t.strings⟩

/-- The value of the first symbol with that name from the symbol `i` on. -/
def searchFrom (t : GnuParts c) (name : List UInt8) (i : ℕ) : ℕ :=
  ((t.dynsym.drop i).find? fun sym => nameAt t.strings sym.stName = some name).elim 0 Sym.stValue

/-- The search from one symbol to the next. -/
def linearSearch (t : GnuParts c) (name : List UInt8) : ℕ := t.searchFrom name t.symndx.toNat

section search

variable {t : GnuParts c} {i j : ℕ} {name : List UInt8} {sym : Sym}

theorem symName_eq (h : t.dynsym[i]? = some sym) :
    t.symName i = nameAt t.strings sym.stName := by
  rw [symName, h, Option.bind_some]

theorem searchFrom_of_le (h : t.dynsym.length ≤ i) : t.searchFrom name i = 0 := by
  rw [searchFrom, List.drop_eq_nil_of_le h]
  rfl

theorem searchFrom_eq (h : t.dynsym[i]? = some sym) :
    t.searchFrom name i = if t.symName i = some name then sym.stValue
      else t.searchFrom name (i + 1) := by
  obtain ⟨hi, hsym⟩ := List.getElem?_eq_some_iff.mp h
  rw [searchFrom, List.drop_eq_getElem_cons hi, hsym, List.find?_cons, symName_eq h]
  by_cases hname : nameAt t.strings sym.stName = some name
  · rw [if_pos hname, decide_eq_true hname]
    rfl
  · rw [if_neg hname, decide_eq_false hname]
    rfl

/-- Symbols with other names can be left out. -/
theorem searchFrom_skip (hij : i ≤ j) (h : ∀ k, i ≤ k → k < j → t.symName k ≠ some name) :
    t.searchFrom name i = t.searchFrom name j := by
  induction j, hij using Nat.le_induction with
  | base => rfl
  | succ j hij ih =>
    rw [ih fun k hk hlt => h k hk (Nat.lt_succ_of_lt hlt)]
    by_cases hj : j < t.dynsym.length
    · rw [searchFrom_eq (List.getElem?_eq_getElem hj), if_neg (h j hij (Nat.lt_succ_self j))]
    · rw [searchFrom_of_le (by omega), searchFrom_of_le (by omega)]

theorem searchFrom_none (h : ∀ k, i ≤ k → k < t.dynsym.length → t.symName k ≠ some name) :
    t.searchFrom name i = 0 := by
  by_cases hi : i ≤ t.dynsym.length
  · rw [searchFrom_skip hi h, searchFrom_of_le (le_refl _)]
  · exact searchFrom_of_le (by omega)

end search

end GnuParts

/-- The hash table is built by the rules of the ABI. -/
structure GnuTable (c : ElfClass) extends GnuParts c where
  symndx_pos : 1 ≤ symndx.toNat
  dynsym_le : dynsym.length ≤ 2 ^ 32
  bloom_lt : bloom.length < 2 ^ 32
  buckets_lt : buckets.length < 2 ^ 32
  shift2_lt : shift2 < 32
  terminated : ∀ i, symndx.toNat ≤ i → i < dynsym.length → (toGnuParts.symName i).isSome
  grouped : Grouped toGnuParts.bucketOf symndx.toNat dynsym.length
  bucket_first : ∀ i, FirstOfGroup toGnuParts.bucketOf symndx.toNat dynsym.length i →
    buckets[toGnuParts.bucketOf i]? = some (.ofNat i)
  bucket_empty : ∀ b < buckets.length,
    (∀ i, symndx.toNat ≤ i → i < dynsym.length → toGnuParts.bucketOf i ≠ b) →
      buckets[b]? = some 0
  chain_word : ∀ i, symndx.toNat ≤ i → i < dynsym.length →
    ∃ w, chain[i - symndx.toNat]? = some w ∧ w.toNat / 2 = toGnuParts.hash i / 2 ∧
      (w.toNat % 2 = 1 ↔ LastOfGroup toGnuParts.bucketOf dynsym.length i)
  bloom_bits : ∀ i, symndx.toNat ≤ i → i < dynsym.length →
    ∃ w, bloom[toGnuParts.hash i / c.bits % bloom.length]? = some w ∧
      w.getLsbD (toGnuParts.hash i % c.bits) = true ∧
      w.getLsbD (toGnuParts.hash i / 2 ^ shift2.toNat % c.bits) = true

theorem length_words {c : ElfClass} (x : BitVec c.bits) : (words c x).length = ptrWords c := by
  cases c <;> rfl

theorem length_flatMap_words {c : ElfClass} (xs : List (BitVec c.bits)) :
    (xs.flatMap (words c)).length = xs.length * ptrWords c := by
  induction xs with
  | nil => exact (Nat.zero_mul _).symm
  | cons x xs ih =>
    rw [List.flatMap_cons, List.length_append, length_words, ih, List.length_cons, Nat.succ_mul,
      Nat.add_comm]

theorem halves (x : BitVec (32 + 32)) : x.extractLsb' 32 32 ++ x.extractLsb' 0 32 = x := by
  obtain ⟨hi, lo, rfl⟩ := exists_append x
  rw [BitVec.extractLsb'_append_eq_left, BitVec.extractLsb'_append_eq_right]

theorem uintptrAt_words {c : ElfClass} (before rest : List UInt32) (x : BitVec c.bits) :
    uintptrAt c (before ++ (words c x ++ rest)) before.length = some x := by
  cases c with
  | elf32 => rw [uintptrAt, List.drop_left]; rfl
  | elf64 =>
    rw [uintptrAt, List.drop_left]
    exact congrArg some (halves x)

namespace GnuTable

variable {c : ElfClass} (t : GnuTable c) {i : ℕ} {name : List UInt8}

/-- What the constructor finds in the section. -/
def gnu : GnuHash where
  nbucket := .ofNat t.buckets.length
  symndx := t.symndx
  bloomSize := .ofNat t.bloom.length
  shift2 := t.shift2
  bloomFilter := 4
  bucket := 4 + t.bloom.length * ptrWords c
  chain := ((4 + t.bloom.length * ptrWords c : ℕ) + t.buckets.length : ℤ) - t.symndx.toNat

theorem toNat_bloom : (UInt32.ofNat t.bloom.length).toNat = t.bloom.length :=
  UInt32.toNat_ofNat_of_lt' t.bloom_lt

theorem toNat_buckets : (UInt32.ofNat t.buckets.length).toNat = t.buckets.length :=
  UInt32.toNat_ofNat_of_lt' t.buckets_lt

theorem gnuHashSection_dBuf : gnuHashSection c t.dBuf = some t.gnu := by
  have h : gnuHashSection c t.dBuf = some ⟨.ofNat t.buckets.length, t.symndx,
      .ofNat t.bloom.length, t.shift2, 4,
      4 + (UInt32.ofNat t.bloom.length).toNat * ptrWords c,
      (((4 + (UInt32.ofNat t.bloom.length).toNat * ptrWords c : ℕ) : ℤ) +
        (UInt32.ofNat t.buckets.length).toNat) - t.symndx.toNat⟩ := rfl
  rw [h, toNat_bloom, toNat_buckets]
  rfl

theorem uintptrAt_bloom {j : ℕ} {w : BitVec c.bits} (h : t.bloom[j]? = some w) :
    uintptrAt c t.dBuf (4 + j * ptrWords c) = some w := by
  obtain ⟨hj, hw⟩ := List.getElem?_eq_some_iff.mp h
  have hbloom : t.bloom = t.bloom.take j ++ w :: t.bloom.drop (j + 1) := by
    rw [← hw, ← List.drop_eq_getElem_cons hj, List.take_append_drop]
  have hbefore : 4 + j * ptrWords c =
      ([.ofNat t.buckets.length, t.symndx, .ofNat t.bloom.length, t.shift2] ++
        (t.bloom.take j).flatMap (words c)).length := by
    rw [List.length_append, length_flatMap_words, List.length_take,
      Nat.min_eq_left (Nat.le_of_lt hj)]
    rfl
  have hdBuf : t.dBuf = ([.ofNat t.buckets.length, t.symndx, .ofNat t.bloom.length, t.shift2] ++
      (t.bloom.take j).flatMap (words c)) ++ (words c w ++
        ((t.bloom.drop (j + 1)).flatMap (words c) ++ t.buckets ++ t.chain)) := by
    rw [GnuParts.dBuf]
    nth_rewrite 2 [hbloom]
    simp only [List.flatMap_append, List.flatMap_cons, List.append_assoc]
  rw [hbefore, hdBuf, uintptrAt_words]

theorem length_head : ([.ofNat t.buckets.length, t.symndx, .ofNat t.bloom.length, t.shift2] ++
    t.bloom.flatMap (words c)).length = t.gnu.bucket := by
  rw [List.length_append, length_flatMap_words]
  rfl

theorem wordAt_bucket {b : ℕ} {w : UInt32} (h : t.buckets[b]? = some w) :
    wordAt t.dBuf (t.gnu.bucket + b) = some w := by
  obtain ⟨hb, hw⟩ := List.getElem?_eq_some_iff.mp h
  rw [← Int.natCast_add, wordAt, if_pos (Int.natCast_nonneg _), Int.toNat_natCast,
    ← t.length_head, GnuParts.dBuf, List.append_assoc,
    List.getElem?_append_right (Nat.le_add_right _ _), Nat.add_sub_cancel_left,
    List.getElem?_append_left hb, h]

theorem wordAt_chain {w : UInt32} (hi : t.symndx.toNat ≤ i)
    (h : t.chain[i - t.symndx.toNat]? = some w) : wordAt t.dBuf (t.gnu.chain + i) = some w := by
  have hplace : t.gnu.chain + i =
      (t.gnu.bucket + t.buckets.length + (i - t.symndx.toNat) : ℕ) := by
    simp only [gnu]
    push_cast
    omega
  rw [hplace, wordAt, if_pos (Int.natCast_nonneg _), Int.toNat_natCast, ← t.length_head,
    GnuParts.dBuf, ← List.length_append, List.getElem?_append_right (Nat.le_add_right _ _),
    Nat.add_sub_cancel_left, h]

theorem hash_of_named (h : t.symName i = some name) : t.hash i = (gnuHash name).toNat := by
  rw [GnuParts.hash, h, Option.getD_some, toNat_gnuHash]

theorem bucketOf_of_named (h : t.symName i = some name) :
    t.bucketOf i = (gnuHash name).toNat % t.buckets.length := by
  rw [GnuParts.bucketOf, hash_of_named t h]

theorem toNat_index (hi : i < t.dynsym.length) : (UInt32.ofNat i).toNat = i :=
  UInt32.toNat_ofNat_of_lt' (Nat.lt_of_lt_of_le hi t.dynsym_le)

theorem toNat_half (w : UInt32) : (w >>> 1).toNat = w.toNat / 2 := by
  rw [UInt32.toNat_shiftRight]
  exact Nat.shiftRight_succ w.toNat 0

theorem low_eq_zero (w : UInt32) : w &&& 1 = 0 ↔ ¬ w.toNat % 2 = 1 := by
  have hlow : (w &&& 1).toNat = w.toNat % 2 := by
    rw [UInt32.toNat_and]
    exact Nat.and_one_is_mod _
  rw [← UInt32.toNat_inj, hlow]
  exact Nat.mod_two_ne_one.symm

/-- One time round the loop. A symbol with the name has the hash, so comparing hashes first, all
but one bit of them, does not skip it. -/
theorem chainLoop_step (hlo : t.symndx.toNat ≤ i) {sym : Sym} (hsym : t.dynsym[i]? = some sym) :
    ∃ w : UInt32, (w &&& 1 = 0 ↔ ¬ LastOfGroup t.bucketOf t.dynsym.length i) ∧
      ∀ fuel, chainLoop t.gnu t.tables name (gnuHash name) (fuel + 1) (.ofNat i) =
        if t.symName i = some name then some sym.stValue
        else if w &&& 1 = 0 then
          chainLoop t.gnu t.tables name (gnuHash name) fuel (.ofNat i + 1)
        else some 0 := by
  obtain ⟨hi, -⟩ := List.getElem?_eq_some_iff.mp hsym
  obtain ⟨w, hw, hhash, hlast⟩ := t.chain_word i hlo hi
  obtain ⟨string, hstring⟩ := Option.isSome_iff_exists.mp (t.terminated i hlo hi)
  have hread : wordAt t.tables.dBuf (t.gnu.chain + (UInt32.ofNat i).toNat) = some w := by
    rw [toNat_index t hi]
    exact wordAt_chain t hlo hw
  have hsymbol : t.tables.dynsym[(UInt32.ofNat i).toNat]? = some sym := by
    rw [toNat_index t hi]
    exact hsym
  have hcString : cString t.tables.strings sym.stName = some string := by
    rw [← hstring, GnuParts.symName_eq hsym, cString_eq]
    rfl
  have hequal : (w ^^^ gnuHash name) >>> 1 = 0 ↔ t.hash i / 2 = (gnuHash name).toNat / 2 := by
    rw [UInt32.shiftRight_xor, UInt32.xor_eq_zero_iff, ← UInt32.toNat_inj, toNat_half,
      toNat_half, hhash]
  refine ⟨w, by rw [low_eq_zero, hlast], ?_⟩
  intro fuel
  rw [chainLoop, hread, hstring]
  by_cases hname : string = name
  · have hbits : (w ^^^ gnuHash name) >>> 1 = 0 := by
      rw [hequal, hash_of_named t (hstring.trans (congrArg some hname))]
    simp only [if_pos hbits, hsymbol, hcString, hname, Option.bind_eq_bind, Option.bind_some,
      if_true, Option.pure_def]
  · have hother : ¬ some string = some name := fun h => hname (Option.some_inj.mp h)
    by_cases hbits : (w ^^^ gnuHash name) >>> 1 = 0
    · simp only [if_pos hbits, hsymbol, hcString, if_neg (Ne.symm hname), if_neg hother,
        Option.bind_eq_bind, Option.bind_some, Option.pure_def]
    · simp only [if_neg hbits, if_neg hother, Option.bind_eq_bind, Option.bind_some,
        Option.pure_def]

/-- The loop over a bucket finds the first symbol with the name, and if there is none, it ends
with the bucket. -/
theorem chainLoop_eq {i : ℕ} (hlo : t.symndx.toNat ≤ i) (hi : i < t.dynsym.length)
    (hbucket : t.bucketOf i = (gnuHash name).toNat % t.buckets.length) :
    ∃ fuel, chainLoop t.gnu t.tables name (gnuHash name) fuel (.ofNat i) =
      some (t.searchFrom name i) := by
  have hsym : t.dynsym[i]? = some t.dynsym[i] := List.getElem?_eq_getElem hi
  obtain ⟨w, hlast, hstep⟩ := @chainLoop_step c t i name hlo _ hsym
  by_cases hname : t.symName i = some name
  · refine ⟨1, ?_⟩
    rw [hstep, if_pos hname, GnuParts.searchFrom_eq hsym, if_pos hname]
  · by_cases hend : LastOfGroup t.bucketOf t.dynsym.length i
    · refine ⟨1, ?_⟩
      rw [hstep, if_neg hname, if_neg (by rwa [hlast, not_not]), GnuParts.searchFrom_none]
      intro k hk hlt hnamed
      have hkey := (bucketOf_of_named t hnamed).trans hbucket.symm
      rw [Nat.le_antisymm (t.grouped.le_of_last hend hlo hlt hkey) hk] at hnamed
      exact hname hnamed
    · obtain ⟨hnext, hsame⟩ : i + 1 < t.dynsym.length ∧ t.bucketOf (i + 1) = t.bucketOf i := by
        rw [LastOfGroup, Classical.not_imp, not_not] at hend
        exact hend
      obtain ⟨fuel, hrest⟩ := chainLoop_eq (Nat.le_succ_of_le hlo) hnext (hsame.trans hbucket)
      refine ⟨fuel + 1, ?_⟩
      rw [hstep, if_neg hname, if_pos (hlast.mpr hend), GnuParts.searchFrom_eq hsym, if_neg hname,
        ← hrest, Nat.succ_eq_add_one, UInt32.ofNat_add]
      rfl
termination_by t.dynsym.length - i

theorem toNat_shifted (h : UInt32) : (h >>> t.shift2).toNat = h.toNat / 2 ^ t.shift2.toNat := by
  have hlt : t.shift2.toNat < 32 := UInt32.lt_iff_toNat_lt.mp t.shift2_lt
  rw [UInt32.toNat_shiftRight, Nat.mod_eq_of_lt hlt, Nat.shiftRight_eq_div_pow]

/-- Where there is a symbol with the name, both its bits are set. -/
theorem bloom_mask {w : BitVec c.bits} (hlo : t.symndx.toNat ≤ i) (hi : i < t.dynsym.length)
    (hname : t.symName i = some name)
    (hw : t.bloom[(gnuHash name).toNat / c.bits % t.bloom.length]? = some w) :
    bloomMask c t.shift2 (gnuHash name) &&& w = bloomMask c t.shift2 (gnuHash name) := by
  obtain ⟨w', hw', hlow, hhigh⟩ := t.bloom_bits i hlo hi
  rw [hash_of_named t hname] at hw' hlow hhigh
  rw [← toNat_shifted t] at hhigh
  rw [hw, Option.some_inj] at hw'
  rw [← hw'] at hlow hhigh
  rw [bloomMask, ← BitVec.twoPow_eq, ← BitVec.twoPow_eq, BitVec.and_comm,
    BitVec.and_or_distrib_left, BitVec.and_twoPow, BitVec.and_twoPow, if_pos hlow, if_pos hhigh]

/-- A symbol with a hash has a bucket and a word of the filter. -/
theorem nonempty_of_hashed (hlo : t.symndx.toNat ≤ i) (hi : i < t.dynsym.length) :
    t.buckets ≠ [] ∧ t.bloom ≠ [] := by
  obtain ⟨w, hw, -, -⟩ := t.bloom_bits i hlo hi
  obtain ⟨f, hfirst, -, -⟩ := @exists_first _ t.bucketOf _ _ _ hlo hi
  have hbucket := t.bucket_first f hfirst
  constructor
  · intro hnil
    rw [hnil] at hbucket
    exact Option.some_ne_none _ hbucket.symm
  · intro hnil
    rw [hnil] at hw
    exact Option.some_ne_none _ hw.symm

/-- The search in the bucket of the hash. -/
theorem bucket_search {b : ℕ} (hb : b = (gnuHash name).toNat % t.buckets.length)
    (hlt : b < t.buckets.length) :
    ∃ symIndex fuel, t.buckets[b]? = some symIndex ∧
      (if t.symndx ≤ symIndex then
        chainLoop t.gnu t.tables name (gnuHash name) fuel symIndex else some 0) =
          some (t.linearSearch name) := by
  by_cases hex : ∃ i, t.symndx.toNat ≤ i ∧ i < t.dynsym.length ∧ t.bucketOf i = b
  · obtain ⟨i, hlo, hi, hkey⟩ := hex
    obtain ⟨f, hfirst, hfkey, -⟩ := @exists_first _ t.bucketOf _ _ _ hlo hi
    rw [hkey] at hfkey
    obtain ⟨fuel, hloop⟩ := t.chainLoop_eq hfirst.ge hfirst.lt (hfkey.trans hb)
    have hge : t.symndx ≤ UInt32.ofNat f := by
      rw [UInt32.le_iff_toNat_le, t.toNat_index hfirst.lt]
      exact hfirst.ge
    refine ⟨.ofNat f, fuel, hfkey ▸ t.bucket_first f hfirst, ?_⟩
    rw [if_pos hge, hloop, GnuParts.linearSearch, GnuParts.searchFrom_skip hfirst.ge]
    intro k hk hkf hnamed
    have hle := hfirst.first k hk (Nat.lt_trans hkf hfirst.lt)
      ((t.bucketOf_of_named hnamed).trans (hfkey.trans hb).symm)
    omega
  · have hempty := t.bucket_empty b hlt fun i hlo hi hkey => hex ⟨i, hlo, hi, hkey⟩
    have hpos := t.symndx_pos
    have hge : ¬ t.symndx ≤ 0 := by
      rw [UInt32.le_iff_toNat_le]
      exact Nat.not_le_of_lt hpos
    refine ⟨0, 0, hempty, ?_⟩
    rw [if_neg hge, GnuParts.linearSearch, GnuParts.searchFrom_none]
    intro k hk hlt hnamed
    exact hex ⟨k, hk, hlt, (t.bucketOf_of_named hnamed).trans hb.symm⟩

/-- The case the lookup begins with. -/
theorem gnu_empty : (t.gnu.nbucket = 0 ∨ t.gnu.bloomSize = 0) ↔ t.buckets = [] ∨ t.bloom = [] := by
  rw [← UInt32.toNat_inj, ← UInt32.toNat_inj, gnu, toNat_buckets, toNat_bloom]
  exact or_congr List.length_eq_zero_iff List.length_eq_zero_iff

/-- The search through the hash table ends, reads nothing outside the tables, and finds the same
symbol as the search from one symbol to the next. -/
theorem gnuLookup_eq (name : List UInt8) :
    ∃ g fuel, gnuHashSection c t.dBuf = some g ∧
      gnuLookup c g t.tables fuel name (gnuHash name) = some (t.linearSearch name) := by
  by_cases hnil : t.buckets = [] ∨ t.bloom = []
  · refine ⟨t.gnu, 0, t.gnuHashSection_dBuf, ?_⟩
    rw [gnuLookup, if_pos (t.gnu_empty.mpr hnil), GnuParts.linearSearch, GnuParts.searchFrom_none]
    · rfl
    · intro k hk hlt _
      obtain ⟨hbuckets, hbloom⟩ := t.nonempty_of_hashed hk hlt
      exact absurd hnil (not_or_intro hbuckets hbloom)
  · obtain ⟨hbuckets, hbloom⟩ := not_or.mp hnil
    have hword : (gnuHash name).toNat / c.bits % t.bloom.length < t.bloom.length :=
      Nat.mod_lt _ (List.length_pos_iff.mpr hbloom)
    obtain ⟨w, hw⟩ : ∃ w, t.bloom[(gnuHash name).toNat / c.bits % t.bloom.length]? = some w :=
      ⟨_, List.getElem?_eq_getElem hword⟩
    have hfilter : uintptrAt c t.tables.dBuf (t.gnu.bloomFilter +
        (gnuHash name).toNat / c.bits % t.gnu.bloomSize.toNat * ptrWords c) = some w := by
      have hsize : t.gnu.bloomSize.toNat = t.bloom.length := t.toNat_bloom
      rw [hsize]
      exact t.uintptrAt_bloom hw
    obtain ⟨symIndex, fuel, hbucket, hsearch⟩ :=
      @bucket_search c t name _ rfl (Nat.mod_lt _ (List.length_pos_iff.mpr hbuckets))
    have hread : wordAt t.tables.dBuf
        (t.gnu.bucket + (gnuHash name % t.gnu.nbucket).toNat) = some symIndex := by
      have hcount : t.gnu.nbucket.toNat = t.buckets.length := t.toNat_buckets
      rw [UInt32.toNat_mod, hcount]
      exact t.wordAt_bucket hbucket
    refine ⟨t.gnu, fuel, t.gnuHashSection_dBuf, ?_⟩
    rw [gnuLookup, if_neg (mt t.gnu_empty.mp hnil), hfilter]
    have hshift : t.gnu.shift2 < 32 := t.shift2_lt
    simp only [Option.bind_eq_bind, Option.bind_some, if_pos hshift]
    by_cases hmask : bloomMask c t.gnu.shift2 (gnuHash name) &&& w =
        bloomMask c t.gnu.shift2 (gnuHash name)
    · rw [if_pos hmask, hread, Option.bind_some]
      exact hsearch
    · rw [if_neg hmask, GnuParts.linearSearch, GnuParts.searchFrom_none]
      · rfl
      · intro k hk hlt hnamed
        exact hmask (t.bloom_mask hk hlt hnamed hw)

end GnuTable

end NativeLib.Dlfc
