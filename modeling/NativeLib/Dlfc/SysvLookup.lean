import Mathlib.Algebra.Group.Nat.Defs
import Mathlib.Data.List.Induction
import NativeLib.Dlfc.SymbolTables
import NativeLib.Memory.Chains

/-! The search in a SysV hash section: each bucket is a list through the words of the chain. -/

namespace NativeLib.Dlfc

open Memory (Chain)

/-- `ElfImg::ElfHash`. -/
def elfHash (name : List UInt8) : UInt32 :=
  name.foldl (fun h p =>
    let h := (h <<< 4) + p.toUInt32
    let g := h &&& 0xf0000000
    h ^^^ g ^^^ (g >>> 24)) 0

theorem testBit_nibble (i : ℕ) : Nat.testBit 0xf0000000 i = decide (28 ≤ i ∧ i < 32) := by
  have h : 0xf0000000 = (2 ^ 4 - 1) <<< 28 := rfl
  rw [h, Nat.testBit_shiftLeft, Nat.testBit_two_pow_sub_one, Bool.eq_iff_iff]
  simp only [Bool.and_eq_true, decide_eq_true_eq, ge_iff_le]
  omega

theorem testBit_word (x : UInt32) {i : ℕ} (h : 32 ≤ i) : x.toNat.testBit i = false :=
  Nat.testBit_lt_two_pow (Nat.lt_of_lt_of_le x.toNat_lt (Nat.pow_le_pow_right (by decide) h))

/-- The upper four bits taken off. -/
theorem xor_nibble (x : UInt32) : x.toNat ^^^ (x.toNat &&& 0xf0000000) = x.toNat % 2 ^ 28 := by
  refine Nat.eq_of_testBit_eq fun i => ?_
  rw [Nat.testBit_xor, Nat.testBit_and, testBit_nibble, Nat.testBit_mod_two_pow]
  by_cases hlow : i < 28
  · have hnot : ¬ (28 ≤ i ∧ i < 32) := by omega
    simp [hlow, hnot]
  · by_cases hhigh : i < 32
    · simp [hlow, Nat.not_lt.mp hlow, hhigh]
    · simp [hlow, hhigh, testBit_word x (Nat.not_lt.mp hhigh)]

/-- The upper four bits, moved down to the next byte's. -/
theorem nibble_shift (x : UInt32) :
    (x.toNat &&& 0xf0000000) >>> 24 = x.toNat / 2 ^ 28 * 16 := by
  refine Nat.eq_of_testBit_eq fun i => ?_
  have hright : x.toNat / 2 ^ 28 * 16 = (x.toNat >>> 28) <<< 4 := by
    rw [Nat.shiftRight_eq_div_pow, Nat.shiftLeft_eq]
  rw [hright, Nat.testBit_shiftRight, Nat.testBit_and, testBit_nibble, Nat.testBit_shiftLeft,
    Nat.testBit_shiftRight]
  by_cases hlow : 4 ≤ i
  · have hi : 28 + (i - 4) = 24 + i := by omega
    rw [hi]
    by_cases hhigh : 24 + i < 32
    · simp [hlow, hhigh]
      omega
    · simp [testBit_word x (Nat.not_lt.mp hhigh)]
  · simp [hlow]
    omega

theorem toNat_clear (x : UInt32) :
    (x ^^^ (x &&& (0xf0000000 : UInt32)) ^^^ ((x &&& (0xf0000000 : UInt32)) >>> 24)).toNat =
      x.toNat % 2 ^ 28 ^^^ x.toNat / 2 ^ 28 * 16 := by
  rw [UInt32.toNat_xor, UInt32.toNat_xor, UInt32.toNat_shiftRight, UInt32.toNat_and]
  exact congrArg₂ (· ^^^ ·) (xor_nibble x) (nibble_shift x)

/-- The hash of the code is the one of the ABI. -/
theorem toNat_elfHash (name : List UInt8) : (elfHash name).toNat = sysvAbiHash name := by
  induction name using List.reverseRecOn with
  | nil => rfl
  | append_singleton name c ih =>
    have hshift : (elfHash name <<< 4).toNat = (elfHash name).toNat * 16 % 2 ^ 32 := by
      rw [UInt32.toNat_shiftLeft]
      exact congrArg (· % 2 ^ 32) (Nat.shiftLeft_eq _ 4)
    have hsum : ((elfHash name <<< 4) + c.toUInt32).toNat =
        ((elfHash name).toNat * 16 + c.toNat) % 2 ^ 32 := by
      rw [UInt32.toNat_add, hshift, UInt8.toNat_toUInt32, Nat.mod_add_mod]
    have hstep := toNat_clear ((elfHash name <<< 4) + c.toUInt32)
    rw [hsum, ih] at hstep
    rw [elfHash, sysvAbiHash, List.foldl_append, List.foldl_append]
    exact hstep
/-- What the constructor takes out of a SysV hash section, the pointers as offsets in words. -/
structure SysvHash where
  nbucket : UInt32
  bucket : ℕ
  chain : ℕ
deriving DecidableEq, Repr

/-- `case SHT_HASH` of the constructor. -/
def hashSection (dUn : List UInt32) : Option SysvHash :=
  dUn.head?.map fun nbucket => ⟨nbucket, 2, 2 + nbucket.toNat⟩

/-- The loop of `ElfLookup`. -/
def elfLoop (g : SysvHash) (t : Tables) (name : List UInt8) : ℕ → UInt32 → Option ℕ
  | 0, _ => none
  | fuel + 1, n =>
    if n = 0 then some 0
    else do
      let sym ← t.dynsym[n.toNat]?
      let string ← cString t.strings sym.stName
      if name = string then pure sym.stValue
      else do
        let next ← t.dBuf[g.chain + n.toNat]?
        elfLoop g t name fuel next

/-- `ElfImg::ElfLookup`. -/
def elfLookup (g : SysvHash) (t : Tables) (fuel : ℕ) (name : List UInt8) (hash : UInt32) :
    Option ℕ :=
  if g.nbucket = 0 then some 0
  else do
    let n ← t.dBuf[g.bucket + (hash % g.nbucket).toNat]?
    elfLoop g t name fuel n

/-- A dynamic symbol table with a SysV hash table. `order` is not in the file: it is the list of the
symbols of a bucket. -/
structure SysvTable where
  dynsym : List Sym
  strings : List UInt8
  buckets : List UInt32
  chain : List UInt32
  order : ℕ → List UInt32
  buckets_lt : buckets.length < 2 ^ 32
  dynsym_lt : dynsym.length < 2 ^ 32
  chain_eq : chain.length = dynsym.length
  lists : ∀ b, (h : b < buckets.length) →
    Chain (fun n => chain.getD n.toNat 0) 0 buckets[b] (order b)
  inside : ∀ b < buckets.length, ∀ n ∈ order b, n.toNat < dynsym.length
  terminated : ∀ sym ∈ dynsym, (nameAt strings sym.stName).isSome = true
  complete : ∀ n : UInt32, n ≠ 0 → (h : n.toNat < dynsym.length) → ∀ name,
    nameAt strings dynsym[n.toNat].stName = some name →
    0 < buckets.length ∧ n ∈ order (sysvAbiHash name % buckets.length)

namespace SysvTable

variable {t : SysvTable} {name : List UInt8} {n : UInt32} {sym : Sym}

/-- The section in the file. -/
def dUn (t : SysvTable) : List UInt32 :=
  [.ofNat t.buckets.length, .ofNat t.chain.length] ++ t.buckets ++ t.chain

def tables (t : SysvTable) : Tables := ⟨t.dUn, t.dynsym, t.strings⟩

def sysv (t : SysvTable) : SysvHash := ⟨.ofNat t.buckets.length, 2, 2 + t.buckets.length⟩

/-- The symbol has the name. -/
def Named (t : SysvTable) (name : List UInt8) (n : UInt32) : Bool :=
  (t.dynsym[n.toNat]?.bind fun sym => nameAt t.strings sym.stName) == some name

/-- What a search for the name finds: the symbol of the table that has it, the first in its list if
several do, and none only if no symbol of the table has it, the first one apart. -/
inductive Found (t : SysvTable) (name : List UInt8) : ℕ → Prop
  | symbol {before after : List UInt32} {n : UInt32} {sym : Sym}
      (hlist : t.order (sysvAbiHash name % t.buckets.length) = before ++ n :: after)
      (hbefore : ∀ m ∈ before, ¬ t.Named name m = true) (hsym : t.dynsym[n.toNat]? = some sym)
      (hname : nameAt t.strings sym.stName = some name) : Found t name sym.stValue
  | none (h : ∀ sym ∈ t.dynsym.tail, nameAt t.strings sym.stName ≠ some name) : Found t name 0

theorem toNat_buckets : (UInt32.ofNat t.buckets.length).toNat = t.buckets.length :=
  UInt32.toNat_ofNat_of_lt' t.buckets_lt

theorem hashSection_dUn : hashSection t.dUn = some t.sysv := by
  have hsize : (UInt32.ofNat t.buckets.length).toNat = t.buckets.length := toNat_buckets
  rw [hashSection, dUn, List.append_assoc, List.cons_append, List.head?_cons, Option.map_some,
    hsize]
  rfl

theorem getElem?_bucket {b : ℕ} (hb : b < t.buckets.length) :
    t.dUn[2 + b]? = some t.buckets[b] := by
  rw [dUn, List.append_assoc, List.getElem?_append_right (by simp), List.length_cons,
    List.length_singleton, Nat.add_sub_cancel_left, List.getElem?_append_left hb,
    List.getElem?_eq_getElem hb]

theorem getElem?_chain (hn : n.toNat < t.chain.length) :
    t.dUn[2 + t.buckets.length + n.toNat]? = some (t.chain.getD n.toNat 0) := by
  have hlen : ([UInt32.ofNat t.buckets.length, .ofNat t.chain.length] ++ t.buckets).length =
      2 + t.buckets.length := by
    rw [List.length_append]
    rfl
  rw [dUn, List.getElem?_append_right (by rw [hlen]; exact Nat.le_add_right ..), hlen,
    Nat.add_sub_cancel_left, List.getD_eq_getElem?_getD, List.getElem?_eq_getElem hn]
  rfl

/-- The loop goes through the list of the bucket. -/
theorem elfLoop_eq {l : List UInt32} (hlist : Chain (fun n => t.chain.getD n.toNat 0) 0 n l)
    (hinside : ∀ n ∈ l, n.toNat < t.dynsym.length) :
    elfLoop t.sysv t.tables name (l.length + 1) n =
      some (((l.find? (t.Named name)).bind fun n => t.dynsym[n.toNat]?).elim 0 Sym.stValue) := by
  induction hlist with
  | nil => rfl
  | @cons n l hn _ ih =>
    obtain ⟨hlt, hrest⟩ := List.forall_mem_cons.mp hinside
    have hsym := List.getElem?_eq_getElem hlt
    obtain ⟨string, hstring⟩ :=
      Option.isSome_iff_exists.mp (t.terminated _ (List.getElem_mem hlt))
    have hcString : cString t.strings t.dynsym[n.toNat].stName = some string := by
      rw [cString_eq, hstring]
    have hnamed : t.Named name n = (string == name) := by
      rw [Named, hsym, Option.bind_some, hstring, Option.some_beq_some]
    rw [List.length_cons, elfLoop, if_neg hn]
    simp only [tables, hsym, hcString, Option.bind_eq_bind, Option.bind_some]
    by_cases hname : name = string
    · rw [if_pos hname, List.find?_cons_of_pos (by rw [hnamed, hname]; exact beq_self_eq_true _),
        Option.bind_some, hsym]
      rfl
    · rw [if_neg hname, List.find?_cons_of_neg
        (by rw [hnamed, beq_iff_eq]; exact fun h => hname h.symm)]
      have hchain : t.dUn[t.sysv.chain + n.toNat]? = _ := getElem?_chain (t.chain_eq ▸ hlt)
      rw [hchain, Option.bind_some]
      exact ih hrest

/-- A symbol with the name is in the list of its hash. -/
theorem mem_order (hn : n ≠ 0) (hnamed : t.Named name n = true) :
    0 < t.buckets.length ∧ n ∈ t.order (sysvAbiHash name % t.buckets.length) := by
  obtain ⟨sym, hsym, hname⟩ := Option.bind_eq_some_iff.mp (beq_iff_eq.mp hnamed)
  obtain ⟨hlt, rfl⟩ := List.getElem?_eq_some_iff.mp hsym
  exact t.complete n hn hlt name hname

/-- No list holds the name, so no symbol of the table does. -/
theorem found_none (h : 0 < t.buckets.length →
    ∀ n ∈ t.order (sysvAbiHash name % t.buckets.length), ¬ t.Named name n = true) :
    t.Found name 0 := by
  refine .none fun sym hmem hname => ?_
  obtain ⟨i, hi, hsym⟩ := List.getElem_of_mem hmem
  rw [List.getElem_tail] at hsym
  have hlen : t.dynsym.tail.length = t.dynsym.length - 1 := List.length_tail
  have hlt := t.dynsym_lt
  have hn : (UInt32.ofNat (i + 1)).toNat = i + 1 :=
    UInt32.toNat_ofNat_of_lt' (show i + 1 < 2 ^ 32 by omega)
  have hne : UInt32.ofNat (i + 1) ≠ 0 := by
    intro hzero
    rw [hzero] at hn
    exact Nat.succ_ne_zero i hn.symm
  have hnamed : t.Named name (.ofNat (i + 1)) = true := by
    rw [Named, hn, List.getElem?_eq_getElem (by omega), Option.bind_some, hsym, hname]
    exact beq_self_eq_true _
  obtain ⟨hpos, hin⟩ := mem_order hne hnamed
  exact h hpos _ hin hnamed

/-- The search ends, reads nothing outside the tables, and finds a symbol with the name wherever
there is one. -/
theorem elfLookup_eq (t : SysvTable) (name : List UInt8) :
    ∃ g fuel value, hashSection t.dUn = some g ∧
      elfLookup g t.tables fuel name (elfHash name) = some value ∧ t.Found name value := by
  have hsize : t.sysv.nbucket.toNat = t.buckets.length := toNat_buckets
  by_cases hnone : t.buckets.length = 0
  · refine ⟨t.sysv, 0, 0, hashSection_dUn, ?_,
      found_none fun hpos => absurd hnone (Nat.ne_of_gt hpos)⟩
    have hzero : t.sysv.nbucket.toNat = (0 : UInt32).toNat := hsize.trans hnone
    rw [elfLookup, if_pos (UInt32.toNat_inj.mp hzero)]
  · have hb : sysvAbiHash name % t.buckets.length < t.buckets.length :=
      Nat.mod_lt _ (Nat.pos_of_ne_zero hnone)
    have hbucket : t.tables.dBuf[t.sysv.bucket + (elfHash name % t.sysv.nbucket).toNat]? =
        some t.buckets[sysvAbiHash name % t.buckets.length] := by
      rw [UInt32.toNat_mod, hsize, toNat_elfHash]
      exact getElem?_bucket hb
    have hloop := @elfLoop_eq t name _ _ (t.lists _ hb) (t.inside _ hb)
    have hlookup := fun fuel => show elfLookup t.sysv t.tables fuel name (elfHash name) =
        elfLoop t.sysv t.tables name fuel t.buckets[sysvAbiHash name % t.buckets.length] by
      rw [elfLookup, if_neg fun h => hnone (hsize.symm.trans (congrArg UInt32.toNat h)), hbucket]
      rfl
    cases hfind : (t.order (sysvAbiHash name % t.buckets.length)).find? (t.Named name) with
    | none =>
      rw [hfind] at hloop
      exact ⟨t.sysv, _, 0, hashSection_dUn, (hlookup _).trans hloop,
        found_none fun _ => List.find?_eq_none.mp hfind⟩
    | some n =>
      obtain ⟨hnamed, before, after, hlist, hbefore⟩ := List.find?_eq_some_iff_append.mp hfind
      obtain ⟨sym, hsym, hname⟩ := Option.bind_eq_some_iff.mp (beq_iff_eq.mp hnamed)
      rw [hfind, Option.bind_some, hsym] at hloop
      refine ⟨t.sysv, _, sym.stValue, hashSection_dUn, (hlookup _).trans hloop,
        .symbol hlist ?_ hsym hname⟩
      intro m hm
      simpa using hbefore m hm

end SysvTable

end NativeLib.Dlfc
