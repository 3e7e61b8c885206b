import Mathlib.Data.Int.Notation
import NativeLib.Dlfc.GnuLookup
import NativeLib.Dlfc.PrefixLookup
import NativeLib.Dlfc.SysvLookup

/-! What the constructor of an `ElfImg` makes of the sections of a file, and the address that comes
of a name. -/

namespace NativeLib.Dlfc

open Collections
open Linker (ElfClass)

inductive SectionType
  | progbits
  | symtab
  | strtab
  | hash
  | dynsym
  | gnuHash
  | other
deriving DecidableEq, Repr

/-- `SHT_PROGBITS` and its like. -/
def SectionType.of (shType : UInt32) : SectionType :=
  if shType = 1 then progbits
  else if shType = 2 then symtab
  else if shType = 3 then strtab
  else if shType = 5 then hash
  else if shType = 11 then dynsym
  else if shType = 0x6ffffff6 then gnuHash
  else other

/-- What is read of an `ElfW(Shdr)`, with the name it stands for. -/
structure Section (c : ElfClass) where
  name : String
  shType : UInt32
  offset : BitVec c.bits
  addr : BitVec c.bits
  size : BitVec c.bits
  entsize : BitVec c.bits
deriving DecidableEq, Repr

def Section.type {c : ElfClass} (s : Section c) : SectionType := .of s.shType

/-- `(off_t) section_h->sh_addr - (off_t) section_h->sh_offset`. -/
def Section.bias {c : ElfClass} (s : Section c) : BitVec c.bits := s.addr - s.offset

/-- What the constructor finds; a bias that has not been found yet is `-4396`. -/
structure Sections (c : ElfClass) where
  dynsym : Option (Section c)
  strtab : Option (Section c)
  symtab : Option (Section c)
  symstrOffsetForSymtab : BitVec c.bits
  bias : BitVec c.bits
  hash : Option (BitVec c.bits)
  gnuHash : Option (BitVec c.bits)
deriving DecidableEq, Repr

namespace Sections

variable {c : ElfClass}

/-- A turn of the loop of the constructor. -/
def add (s : Sections c) (h : Section c) : Sections c :=
  match h.type with
  | .dynsym => if s.bias = -4396 then { s with dynsym := some h } else s
  | .symtab => if h.name = ".symtab" then { s with symtab := some h } else s
  | .strtab =>
    { s with
      strtab := if s.bias = -4396 then some h else s.strtab
      symstrOffsetForSymtab :=
        if h.name = ".strtab" then h.offset else s.symstrOffsetForSymtab }
  | .progbits =>
    if s.strtab = none ∨ s.dynsym = none then s
    else if s.bias = -4396 then { s with bias := h.bias } else s
  | .hash => { s with hash := some h.offset }
  | .gnuHash => { s with gnuHash := some h.offset }
  | .other => s

/-- `ElfImg::ElfImg`, once the file is there. -/
def scan (sections : List (Section c)) : Sections c :=
  sections.foldl add ⟨none, none, none, 0, -4396, none, none⟩

/-- The last section of a kind. -/
def last (kind : Section c → Bool) (sections : List (Section c)) : Option (Section c) :=
  (sections.filter kind).getLast?

/-- The section settles the bias, if nothing in front of it has. -/
structure Settles (before : List (Section c)) (h : Section c) : Prop where
  type : h.type = .progbits
  bias : h.bias ≠ -4396
  dynsym : ∃ s ∈ before, s.type = .dynsym
  strtab : ∃ s ∈ before, s.type = .strtab

def Unsettled (sections : List (Section c)) : Prop :=
  ∀ before h after, sections = before ++ h :: after → ¬ Settles before h

variable {sections before after : List (Section c)} {h s : Section c} {kind : Section c → Bool}

theorem scan_append : scan (sections ++ [h]) = (scan sections).add h := by
  rw [scan, List.foldl_append]
  rfl

theorem last_append :
    last kind (sections ++ [h]) = if kind h then some h else last kind sections := by
  rw [last, List.filter_append]
  split_ifs with hk
  · rw [List.filter_cons_of_pos hk, List.filter_nil, List.getLast?_concat]
  · rw [List.filter_cons_of_neg hk, List.filter_nil, List.append_nil, last]

theorem last_eq_none : last kind sections = none ↔ ∀ s ∈ sections, ¬ kind s = true := by
  rw [last, List.getLast?_eq_none_iff, List.filter_eq_nil_iff]

theorem unsettled_of_append (hu : Unsettled (sections ++ after)) : Unsettled sections := by
  rintro before h after' rfl
  exact hu before h (after' ++ after) (by rw [List.append_assoc, List.cons_append])

section add

variable (t : Sections c) (h : Section c)

theorem symtab_add : (t.add h).symtab =
    if h.type == .symtab && h.name == ".symtab" then some h else t.symtab := by
  unfold add
  cases h.type <;> simp <;> split_ifs <;> rfl

theorem symstr_add : (t.add h).symstrOffsetForSymtab =
    if h.type == .strtab && h.name == ".strtab" then h.offset
    else t.symstrOffsetForSymtab := by
  unfold add
  cases h.type <;> simp <;> split_ifs <;> rfl

theorem hash_add : (t.add h).hash = if h.type == .hash then some h.offset else t.hash := by
  unfold add
  cases h.type <;> simp <;> split_ifs <;> rfl

theorem gnuHash_add :
    (t.add h).gnuHash = if h.type == .gnuHash then some h.offset else t.gnuHash := by
  unfold add
  cases h.type <;> simp <;> split_ifs <;> rfl

theorem dynsym_add : (t.add h).dynsym =
    if h.type == .dynsym && decide (t.bias = -4396) then some h else t.dynsym := by
  unfold add
  cases h.type <;> simp <;> split_ifs <;> rfl

theorem strtab_add : (t.add h).strtab =
    if h.type == .strtab && decide (t.bias = -4396) then some h else t.strtab := by
  unfold add
  cases h.type <;> simp <;> split_ifs <;> rfl

theorem bias_add : (t.add h).bias =
    if h.type = .progbits ∧ t.bias = -4396 ∧ t.strtab ≠ none ∧ t.dynsym ≠ none then h.bias
    else t.bias := by
  unfold add
  cases h.type <;> simp <;> split_ifs <;> simp_all

end add

/-- Which of these sections the scan has kept depends on their kind alone. -/
theorem scan_kinds (sections : List (Section c)) :
    (scan sections).symtab =
      last (fun s => s.type == .symtab && s.name == ".symtab") sections ∧
    (scan sections).symstrOffsetForSymtab =
      (last (fun s => s.type == .strtab && s.name == ".strtab") sections).elim 0 (·.offset) ∧
    (scan sections).hash = (last (·.type == .hash) sections).map (·.offset) ∧
    (scan sections).gnuHash = (last (·.type == .gnuHash) sections).map (·.offset) := by
  induction sections using List.reverseRecOn with
  | nil => exact ⟨rfl, rfl, rfl, rfl⟩
  | append_singleton sections h ih =>
    obtain ⟨hsymtab, hsymstr, hhash, hgnu⟩ := ih
    rw [scan_append, symtab_add, symstr_add, hash_add, gnuHash_add, hsymtab, hsymstr, hhash, hgnu]
    refine ⟨?_, ?_, ?_, ?_⟩ <;> rw [last_append] <;> split_ifs <;> rfl

/-- As long as nothing settles the bias, the last table of a kind counts. -/
theorem scan_unsettled (hu : Unsettled sections) :
    (scan sections).bias = -4396 ∧ (scan sections).dynsym = last (·.type == .dynsym) sections ∧
      (scan sections).strtab = last (·.type == .strtab) sections := by
  induction sections using List.reverseRecOn with
  | nil => exact ⟨rfl, rfl, rfl⟩
  | append_singleton sections h ih =>
    obtain ⟨hbias, hdynsym, hstrtab⟩ := ih (unsettled_of_append hu)
    rw [scan_append, bias_add, dynsym_add, strtab_add, last_append, last_append, hbias,
      decide_eq_true rfl, Bool.and_true, Bool.and_true, hdynsym, hstrtab]
    refine ⟨?_, rfl, rfl⟩
    split_ifs with hsettles
    · -- Both tables are there, so it can only be a bias that looks like none.
      obtain ⟨htype, -, hsome, hsome'⟩ := hsettles
      by_contra hne
      have htable : ∀ {kind : Section c → Bool}, last kind sections ≠ none →
          ∃ s ∈ sections, kind s = true := by
        intro kind hsome
        rw [Ne, last_eq_none] at hsome
        push Not at hsome
        exact hsome
      obtain ⟨s, hs, hstr⟩ := htable hsome
      obtain ⟨s', hs', hdyn⟩ := htable hsome'
      exact hu sections h [] rfl
        ⟨htype, hne, ⟨s', hs', beq_iff_eq.mp hdyn⟩, s, hs, beq_iff_eq.mp hstr⟩
    · rfl

/-- A section that settles the bias has the last word on it. -/
theorem scan_settled (hu : Unsettled before) (hs : Settles before h) (after : List (Section c)) :
    (scan (before ++ h :: after)).bias = h.bias ∧
      (scan (before ++ h :: after)).dynsym = (scan before).dynsym ∧
      (scan (before ++ h :: after)).strtab = (scan before).strtab := by
  induction after using List.reverseRecOn with
  | nil =>
    obtain ⟨hbias, hdynsym, hstrtab⟩ := scan_unsettled hu
    have hsome : (scan before).strtab ≠ none ∧ (scan before).dynsym ≠ none := by
      rw [hstrtab, hdynsym, Ne, Ne, last_eq_none, last_eq_none]
      obtain ⟨s, hmem, htype⟩ := hs.strtab
      obtain ⟨s', hmem', htype'⟩ := hs.dynsym
      exact ⟨fun hnone => hnone s hmem (beq_iff_eq.mpr htype),
        fun hnone => hnone s' hmem' (beq_iff_eq.mpr htype')⟩
    rw [scan_append, bias_add, dynsym_add, strtab_add, hs.type, if_pos ⟨rfl, hbias, hsome⟩]
    exact ⟨rfl, rfl, rfl⟩
  | append_singleton after s ih =>
    obtain ⟨hbias, hdynsym, hstrtab⟩ := ih
    rw [← List.cons_append, ← List.append_assoc, scan_append, bias_add, dynsym_add, strtab_add,
      hbias, decide_eq_false hs.bias, Bool.and_false, Bool.and_false,
      if_neg fun h => hs.bias h.2.1]
    exact ⟨rfl, hdynsym, hstrtab⟩

theorem exists_settles (sections : List (Section c)) :
    Unsettled sections ∨ ∃ before h after, sections = before ++ h :: after ∧
      Unsettled before ∧ Settles before h := by
  induction sections using List.reverseRecOn with
  | nil =>
    refine .inl fun before h after heq => ?_
    exact absurd heq (by simp)
  | append_singleton sections h ih =>
    rcases ih with hu | ⟨before, s, after, rfl, hu, hs⟩
    · by_cases hs : Settles sections h
      · exact .inr ⟨sections, h, [], rfl, hu, hs⟩
      · refine .inl fun before s after heq => ?_
        rcases List.eq_nil_or_concat after with rfl | ⟨after', s', rfl⟩
        · obtain ⟨rfl, hone⟩ := List.append_inj' heq rfl
          obtain ⟨rfl, -⟩ := List.cons.inj hone
          exact hs
        · rw [List.concat_eq_append, ← List.cons_append, ← List.append_assoc] at heq
          exact hu before s after' (List.append_inj' heq rfl).1
    · refine .inr ⟨before, s, after ++ [h], ?_, hu, hs⟩
      rw [List.append_assoc, List.cons_append]

/-- What the constructor makes of the sections: the symbols are those of the last dynamic symbol
table and the names those of the last string table in front of the section that settles the bias.
That is the first with a program in it that comes after one of each and does not give `-4396` again;
without such a section the bias stays `-4396`. The other tables are the last of their kind in the
file. -/
theorem scan_eq (sections : List (Section c)) :
    ∃ before, Unsettled before ∧
      (before = sections ∧ (scan sections).bias = -4396 ∨
        ∃ h after, sections = before ++ h :: after ∧ Settles before h ∧
          (scan sections).bias = h.bias) ∧
      (scan sections).dynsym = last (·.type == .dynsym) before ∧
      (scan sections).strtab = last (·.type == .strtab) before ∧
      (scan sections).symtab =
        last (fun s => s.type == .symtab && s.name == ".symtab") sections ∧
      (scan sections).symstrOffsetForSymtab =
        (last (fun s => s.type == .strtab && s.name == ".strtab") sections).elim 0 (·.offset) ∧
      (scan sections).hash = (last (·.type == .hash) sections).map (·.offset) ∧
      (scan sections).gnuHash = (last (·.type == .gnuHash) sections).map (·.offset) := by
  rcases exists_settles sections with hu | ⟨before, h, after, rfl, hu, hs⟩
  · obtain ⟨hbias, hdynsym, hstrtab⟩ := scan_unsettled hu
    exact ⟨sections, hu, .inl ⟨rfl, hbias⟩, hdynsym, hstrtab, scan_kinds sections⟩
  · obtain ⟨-, hdynsym, hstrtab⟩ := scan_unsettled hu
    obtain ⟨hbias', hdynsym', hstrtab'⟩ := scan_settled hu hs after
    exact ⟨before, hu, .inr ⟨h, after, rfl, hs, hbias'⟩, hdynsym'.trans hdynsym,
      hstrtab'.trans hstrtab, scan_kinds _⟩

end Sections

/-! The address of a name. -/

attribute [local instance] byteOrder

/-- An `ElfImg`, with the tables its pointers lead to. `base` is null if the library is not
loaded. -/
structure ElfImg (c : ElfClass) where
  gnuHash : Option (List UInt32)
  hash : Option (List UInt32)
  dynsym : List Sym
  strings : List UInt8
  symtab : Symtab
  base : BitVec c.bits
  bias : BitVec c.bits

namespace ElfImg

variable {c : ElfClass} (img : ElfImg c)

/-- `GnuLookup` and `ElfLookup`, without a section as with one that is empty. -/
def dynamic (gnuFuel elfFuel : ℕ) (name : List UInt8) : Option ℕ × Option ℕ :=
  (match img.gnuHash with
    | none => some 0
    | some dBuf => do
      let g ← gnuHashSection c dBuf
      gnuLookup c g ⟨dBuf, img.dynsym, img.strings⟩ gnuFuel name (Dlfc.gnuHash name),
    match img.hash with
    | none => some 0
    | some dUn => do
      let g ← hashSection dUn
      elfLookup g ⟨dUn, img.dynsym, img.strings⟩ elfFuel name (elfHash name))

/-- `ElfImg::getSymbOffset`, with the map of the names of `.symtab` before and after. -/
def getSymbOffset (gnuFuel elfFuel : ℕ) (symtabs : SymMap) (name : List UInt8) :
    Option (ℕ × SymMap) := do
  let offset ← (img.dynamic gnuFuel elfFuel name).1
  if 0 < offset then pure (offset, symtabs)
  else
    let offset ← (img.dynamic gnuFuel elfFuel name).2
    if 0 < offset then pure (offset, symtabs)
    else img.symtab.linearLookup symtabs name

/-- The end of `getSymbAddress` and of `getSymbPrefixFirstOffset`. -/
def address (offset : ℕ) : BitVec c.bits :=
  if 0 < offset ∧ img.base ≠ 0 then
    img.base + BitVec.ofNat c.bits offset - img.bias
  else 0

/-- `ElfImg::getSymbAddress`. -/
def getSymbAddress (gnuFuel elfFuel : ℕ) (symtabs : SymMap) (name : List UInt8) :
    Option (BitVec c.bits × SymMap) :=
  (img.getSymbOffset gnuFuel elfFuel symtabs name).map fun (offset, symtabs) =>
    (img.address offset, symtabs)

/-- `ElfImg::getSymbPrefixFirstOffset`. -/
def getSymbPrefixFirstOffset (symtabs : SymMap) (start : List UInt8) :
    Option (BitVec c.bits × SymMap) :=
  (img.symtab.prefixLookupFirst symtabs start).map fun (offset, symtabs) =>
    (img.address offset, symtabs)

/-- The maps that the names of `.symtab` may be in, after whatever has been looked up. -/
inductive Reached : SymMap → Prop
  | init : Reached SortedMap.empty
  | name {symtabs symtabs' : SymMap} {address : BitVec c.bits} (gnuFuel elfFuel : ℕ)
      (name : List UInt8) (h : Reached symtabs)
      (hrun : img.getSymbAddress gnuFuel elfFuel symtabs name = some (address, symtabs')) :
      Reached symtabs'
  | start {symtabs symtabs' : SymMap} {address : BitVec c.bits} (start : List UInt8)
      (h : Reached symtabs)
      (hrun : img.getSymbPrefixFirstOffset symtabs start = some (address, symtabs')) :
      Reached symtabs'

/-- The hash tables are built by the rules of the ABI, for the symbols of the file. -/
structure Built (gnu : Option (GnuTable c)) (sysv : Option SysvTable) : Prop where
  gnuHash : img.gnuHash = gnu.map (·.dBuf)
  gnu : ∀ t ∈ gnu, t.dynsym = img.dynsym ∧ t.strings = img.strings
  hash : img.hash = sysv.map (·.dUn)
  sysv : ∀ t ∈ sysv, t.dynsym = img.dynsym ∧ t.strings = img.strings

/-- What is found for a name: a symbol of the dynamic symbol table with a value, by one hash table
or the other, and only then one of `.symtab`. -/
inductive Finds (gnu : Option (GnuTable c)) (sysv : Option SysvTable) (name : List UInt8) :
    ℕ → Prop
  | gnu {t : GnuTable c} (h : t ∈ gnu) (hpos : 0 < t.linearSearch name) :
      Finds gnu sysv name (t.linearSearch name)
  | sysv {t : SysvTable} {value : ℕ} (hgnu : ∀ t ∈ gnu, t.linearSearch name = 0) (h : t ∈ sysv)
      (hfound : t.Found name value) (hpos : 0 < value) : Finds gnu sysv name value
  | symtab {sym : Sym} (hgnu : ∀ t ∈ gnu, t.linearSearch name = 0)
      (hsysv : ∀ t ∈ sysv, t.Found name 0)
      (h : img.symtab.FirstNamed img.symtab.symbols name sym) : Finds gnu sysv name sym.stValue
  | none (hgnu : ∀ t ∈ gnu, t.linearSearch name = 0) (hsysv : ∀ t ∈ sysv, t.Found name 0)
      (h : ∀ s ∈ img.symtab.symbols, ¬ img.symtab.Named s name) : Finds gnu sysv name 0

variable {img} {gnu : Option (GnuTable c)} {sysv : Option SysvTable} {symtabs symtabs' : SymMap}
  {name : List UInt8}

theorem linearLookup_eq (h : img.symtab.Cached symtabs) (name : List UInt8) :
    ∃ value, img.symtab.linearLookup symtabs name = some (value, img.symtab.built) ∧
      ((∃ sym, img.symtab.FirstNamed img.symtab.symbols name sym ∧ value = sym.stValue) ∨
        (∀ s ∈ img.symtab.symbols, ¬ img.symtab.Named s name) ∧ value = 0) := by
  rw [Symtab.linearLookup, Symtab.mayInitLinearMap_eq h, Option.bind_eq_bind, Option.bind_some]
  cases hfind : img.symtab.built.find name with
  | some x =>
    refine ⟨x.2.stValue, rfl, .inl ⟨x.2, ?_, rfl⟩⟩
    obtain rfl : x.1 = name := by simpa using List.find?_some hfind
    exact Symtab.mem_built.mp (List.mem_of_find?_eq_some hfind)
  | none =>
    refine ⟨0, rfl, .inr ⟨fun s hs hnamed => ?_, rfl⟩⟩
    obtain ⟨x, hx, hkey⟩ := Symtab.exists_key hs hnamed
    exact List.find?_eq_none.mp hfind x hx (by simpa using hkey)

theorem dynamic_eq (h : img.Built gnu sysv) (name : List UInt8) :
    ∃ gnuFuel elfFuel value, img.dynamic gnuFuel elfFuel name =
      (some (gnu.elim 0 (·.linearSearch name)), some value) ∧
        (∀ t ∈ sysv, t.Found name value) ∧ (sysv = none → value = 0) := by
  obtain ⟨gnuFuel, hgnu⟩ : ∃ gnuFuel, ∀ elfFuel, (img.dynamic gnuFuel elfFuel name).1 =
      some (gnu.elim 0 (·.linearSearch name)) := by
    cases gnu with
    | none =>
      refine ⟨0, fun elfFuel => ?_⟩
      rw [dynamic, h.gnuHash]
      rfl
    | some t =>
      obtain ⟨g, fuel, hsection, hlookup⟩ := t.gnuLookup_eq name
      obtain ⟨hdynsym, hstrings⟩ := h.gnu t rfl
      refine ⟨fuel, fun elfFuel => ?_⟩
      rw [dynamic, h.gnuHash, ← hdynsym, ← hstrings]
      simp only [Option.map_some, hsection, Option.bind_eq_bind, Option.bind_some]
      exact hlookup
  obtain ⟨elfFuel, value, hsysv, hfound⟩ : ∃ elfFuel value,
      (∀ gnuFuel, (img.dynamic gnuFuel elfFuel name).2 = some value) ∧
        (∀ t ∈ sysv, t.Found name value) ∧ (sysv = none → value = 0) := by
    cases sysv with
    | none =>
      refine ⟨0, 0, fun gnuFuel => ?_, fun t ht => absurd ht (by simp), fun _ => rfl⟩
      rw [dynamic, h.hash]
      rfl
    | some t =>
      obtain ⟨g, fuel, value, hsection, hlookup, hfound⟩ := t.elfLookup_eq name
      obtain ⟨hdynsym, hstrings⟩ := h.sysv t rfl
      refine ⟨fuel, value, fun gnuFuel => ?_, ?_, fun hnone => absurd hnone (by simp)⟩
      · rw [dynamic, h.hash, ← hdynsym, ← hstrings]
        simp only [Option.map_some, hsection, Option.bind_eq_bind, Option.bind_some]
        exact hlookup
      · intro t' ht'
        obtain rfl : t = t' := Option.some.inj ht'
        exact hfound
  exact ⟨gnuFuel, elfFuel, value, Prod.ext (hgnu elfFuel) (hsysv gnuFuel), hfound⟩

theorem getSymbOffset_eq (h : img.Built gnu sysv) (hcached : img.symtab.Cached symtabs)
    (name : List UInt8) :
    ∃ gnuFuel elfFuel value symtabs',
      img.getSymbOffset gnuFuel elfFuel symtabs name = some (value, symtabs') ∧
        img.Finds gnu sysv name value := by
  obtain ⟨gnuFuel, elfFuel, elfValue, hdynamic, hfound, hnone⟩ := dynamic_eq h name
  refine ⟨gnuFuel, elfFuel, ?_⟩
  rw [getSymbOffset, hdynamic]
  simp only [Option.bind_eq_bind, Option.bind_some]
  have hgnu : ¬ 0 < gnu.elim 0 (·.linearSearch name) → ∀ t ∈ gnu, t.linearSearch name = 0 := by
    rintro hzero t rfl
    exact Nat.eq_zero_of_not_pos hzero
  have hsysv : ¬ 0 < elfValue → ∀ t ∈ sysv, t.Found name 0 := by
    intro hzero
    rwa [Nat.eq_zero_of_not_pos hzero] at hfound
  split_ifs with hpos hpos'
  · refine ⟨_, _, rfl, ?_⟩
    cases gnu with
    | none => exact absurd hpos (Nat.lt_irrefl 0)
    | some t => exact .gnu rfl hpos
  · refine ⟨_, _, rfl, ?_⟩
    cases sysv with
    | none => exact absurd (hnone rfl) (Nat.ne_of_gt hpos')
    | some t => exact .sysv (hgnu hpos) rfl (hfound t rfl) hpos'
  · obtain ⟨value, hlookup, hvalue⟩ := linearLookup_eq hcached name
    refine ⟨value, _, hlookup, ?_⟩
    rcases hvalue with ⟨sym, hfirst, rfl⟩ | ⟨hnone, rfl⟩
    · exact .symtab (hgnu hpos) (hsysv hpos') hfirst
    · exact .none (hgnu hpos) (hsysv hpos') hnone

/-- Whatever has been looked up, the map is empty or complete. -/
theorem Reached.cached (h : img.Reached symtabs) : img.symtab.Cached symtabs := by
  induction h with
  | init => exact .inl rfl
  | name gnuFuel elfFuel name _ hrun ih =>
    obtain ⟨⟨offset, symtabs'⟩, hoffset, heq⟩ := Option.map_eq_some_iff.mp hrun
    obtain ⟨-, rfl⟩ := Prod.mk.inj heq
    rw [getSymbOffset] at hoffset
    obtain ⟨gnuValue, -, hoffset⟩ := Option.bind_eq_some_iff.mp hoffset
    split_ifs at hoffset
    · obtain ⟨-, rfl⟩ := Prod.mk.inj (Option.some.inj hoffset)
      exact ih
    · obtain ⟨elfValue, -, hoffset⟩ := Option.bind_eq_some_iff.mp hoffset
      split_ifs at hoffset
      · obtain ⟨-, rfl⟩ := Prod.mk.inj (Option.some.inj hoffset)
        exact ih
      · obtain ⟨value, hlookup, -⟩ := linearLookup_eq ih name
        rw [hlookup] at hoffset
        obtain ⟨-, rfl⟩ := Prod.mk.inj (Option.some.inj hoffset)
        exact .inr rfl
  | start start _ hrun ih =>
    obtain ⟨⟨offset, symtabs'⟩, hoffset, heq⟩ := Option.map_eq_some_iff.mp hrun
    obtain ⟨-, rfl⟩ := Prod.mk.inj heq
    obtain ⟨value, hlookup, -⟩ := Symtab.prefixLookupFirst_eq ih start
    rw [hlookup] at hoffset
    obtain ⟨-, rfl⟩ := Prod.mk.inj (Option.some.inj hoffset)
    exact .inr rfl

/-- Whatever has been looked up before, a lookup reads nothing outside the tables, and its address
is that of a symbol with the name, as long as a table holds one. -/
theorem getSymbAddress_eq (h : img.Built gnu sysv) (hreached : img.Reached symtabs)
    (name : List UInt8) :
    ∃ gnuFuel elfFuel value symtabs',
      img.getSymbAddress gnuFuel elfFuel symtabs name = some (img.address value, symtabs') ∧
        img.Finds gnu sysv name value := by
  obtain ⟨gnuFuel, elfFuel, value, symtabs', hoffset, hfinds⟩ :=
    getSymbOffset_eq h hreached.cached name
  refine ⟨gnuFuel, elfFuel, value, symtabs', ?_, hfinds⟩
  rw [getSymbAddress, hoffset]
  rfl

/-! A library with one symbol, `f`, in a SysV hash table with one bucket. -/

def oneBucket : SysvTable where
  dynsym := [⟨0, 0, 0, 0⟩, ⟨1, 0x12, 0x500, 8⟩]
  strings := [0, 102, 0]
  buckets := [1]
  chain := [0, 0]
  order _ := [1]
  buckets_lt := by decide
  dynsym_lt := by decide
  chain_eq := rfl
  lists b hb := by
    obtain rfl : b = 0 := Nat.lt_one_iff.mp hb
    exact .cons (show (1 : UInt32) ≠ 0 by decide) .nil
  inside _ _ n hn := by
    obtain rfl := List.mem_singleton.mp hn
    decide
  terminated := by decide
  complete n hn hlt name _ := by
    refine ⟨by decide, List.mem_singleton.mpr (UInt32.toNat_inj.mp ?_)⟩
    have hpos : n.toNat ≠ 0 := fun h => hn (UInt32.toNat_inj.mp h)
    have hlt' : n.toNat < 2 := hlt
    have hone : n.toNat = 1 := by omega
    exact hone

def oneSymbol : ElfImg .elf64 where
  gnuHash := none
  hash := some oneBucket.dUn
  dynsym := oneBucket.dynsym
  strings := oneBucket.strings
  symtab := ⟨[], none, 0, fun _ h => absurd h (by simp)⟩
  base := 0x7000000
  bias := 0

/-- `f` is found, and nothing else is. -/
theorem oneSymbol_address : ∃ gnuFuel elfFuel value symtabs',
    oneSymbol.getSymbAddress gnuFuel elfFuel SortedMap.empty [102] =
      some (oneSymbol.address value, symtabs') ∧
        oneSymbol.Finds none (some oneBucket) [102] value := by
  refine getSymbAddress_eq ⟨rfl, fun t ht => absurd ht (by simp), rfl, fun t ht => ?_⟩ .init [102]
  obtain rfl : oneBucket = t := Option.some.inj ht
  exact ⟨rfl, rfl⟩

end ElfImg

end NativeLib.Dlfc
