import NativeLib.Collections.SortedMap
import NativeLib.Dlfc.SymbolTables

/-! The map of the symbols of `.symtab` by their names, and the first name with a prefix. The map
is built by the lookup that first needs it. -/

namespace NativeLib.Dlfc

open Collections

/-- `char`s are compared as `unsigned char`s. -/
local instance byteOrder : LinearOrder UInt8 where
  le_refl := UInt8.le_refl
  le_trans := fun _ _ _ => UInt8.le_trans
  le_antisymm := fun _ _ => UInt8.le_antisymm
  le_total := UInt8.le_total
  lt_iff_le_not_ge := fun a b => by
    rw [UInt8.not_le]
    exact ⟨fun h => ⟨UInt8.le_of_lt h, h⟩, fun h => h.2⟩
  toDecidableLE := inferInstance
  toDecidableEq := inferInstance
  toDecidableLT := inferInstance

def STT_OBJECT : UInt8 := 1
def STT_FUNC : UInt8 := 2

/-- `st_type == STT_FUNC || st_type == STT_OBJECT`, and a size. -/
def Sym.exported (sym : Sym) : Bool :=
  (sym.stInfo &&& 0xf = STT_FUNC || sym.stInfo &&& 0xf = STT_OBJECT) && sym.stSize ≠ 0

/-- What the lookups in `.symtab` read: the file from `header` on, the `symtab_count` symbols at
`symtab_start` unless that is null, and the offset of their names, 0 if there are none. The names
that are needed end in the file. -/
structure Symtab where
  file : List UInt8
  symtabStart : Option (List Sym)
  symstrOffset : ℕ
  terminated : ∀ syms, symtabStart = some syms → symstrOffset ≠ 0 → ∀ sym ∈ syms,
    sym.Sized → (nameAt file (symstrOffset + sym.stName)).isSome = true

abbrev SymMap := SortedMap (List UInt8) Sym

namespace Symtab

/-- `st_name` of `MayInitLinearMap`. -/
def stName (img : Symtab) (sym : Sym) : Option (List UInt8) :=
  cString img.file (img.symstrOffset + sym.stName)

/-- The loop of `MayInitLinearMap`. -/
def initLoop (img : Symtab) : List Sym → SymMap → Option SymMap
  | [], symtabs => some symtabs
  | sym :: syms, symtabs =>
    if sym.exported then do
      let name ← img.stName sym
      img.initLoop syms (symtabs.emplace name sym)
    else img.initLoop syms symtabs

/-- `ElfImg::MayInitLinearMap`. -/
def mayInitLinearMap (img : Symtab) (symtabs : SymMap) : Option SymMap :=
  if symtabs.entries = [] then
    match img.symtabStart with
    | some syms => if img.symstrOffset ≠ 0 then img.initLoop syms symtabs else some symtabs
    | none => some symtabs
  else some symtabs

/-- `ElfImg::LinearLookup`: the result and the map afterwards. -/
def linearLookup (img : Symtab) (symtabs : SymMap) (name : List UInt8) : Option (ℕ × SymMap) := do
  let symtabs ← img.mayInitLinearMap symtabs
  match symtabs.find name with
  | some i => pure (i.2.stValue, symtabs)
  | none => pure (0, symtabs)

/-- `ElfImg::PrefixLookupFirst`: the result and the map afterwards. -/
def prefixLookupFirst (img : Symtab) (symtabs : SymMap) (start : List UInt8) :
    Option (ℕ × SymMap) := do
  let symtabs ← img.mayInitLinearMap symtabs
  match symtabs.lowerBound start with
  | some i => if start.isPrefixOf i.1 then pure (i.2.stValue, symtabs) else pure (0, symtabs)
  | none => pure (0, symtabs)

/-- The symbols that have names. -/
def symbols (img : Symtab) : List Sym :=
  if img.symstrOffset = 0 then [] else img.symtabStart.getD []

/-- A function or an object with a size and this name. -/
def Named (img : Symtab) (sym : Sym) (name : List UInt8) : Prop :=
  sym.Sized ∧ nameAt img.file (img.symstrOffset + sym.stName) = some name

/-- The earliest entry of the table with this name. -/
def FirstNamed (img : Symtab) (syms : List Sym) (name : List UInt8) (sym : Sym) : Prop :=
  ∃ before after, syms = before ++ sym :: after ∧ img.Named sym name ∧
    ∀ s ∈ before, ¬ img.Named s name

/-- The symbol with the least of the names that begin with `start`, the earliest one if it has
that name together with others. -/
def Least (img : Symtab) (start : List UInt8) (sym : Sym) : Prop :=
  ∃ name, start <+: name ∧ img.FirstNamed img.symbols name sym ∧
    ∀ s ∈ img.symbols, ∀ name', img.Named s name' → start <+: name' → name ≤ name'

/-- The entries that are offered to the map. -/
def pairs (img : Symtab) : List Sym → List (List UInt8 × Sym)
  | [] => []
  | sym :: syms =>
    if sym.exported then
      match img.stName sym with
      | some name => (name, sym) :: img.pairs syms
      | none => img.pairs syms
    else img.pairs syms

/-- The map once it has been built. -/
def built (img : Symtab) : SymMap := SortedMap.empty.emplaceAll (img.pairs img.symbols)

/-- An earlier lookup. -/
inductive Lookup where
  | linear (name : List UInt8)
  | first (start : List UInt8)

/-- The map after a lookup. -/
def lookup (img : Symtab) (symtabs : SymMap) : Lookup → Option SymMap
  | .linear name => (img.linearLookup symtabs name).map Prod.snd
  | .first start => (img.prefixLookupFirst symtabs start).map Prod.snd

variable {img : Symtab} {syms : List Sym} {sym s : Sym} {name start : List UInt8}
  {symtabs : SymMap}

theorem exported_iff : sym.exported = true ↔ sym.Sized := by
  have hlow : (sym.stInfo &&& 0xf).toNat = sym.stInfo.toNat % 16 := by
    rw [UInt8.toNat_and]
    exact Nat.and_two_pow_sub_one_eq_mod _ 4
  have htype : ∀ x : UInt8, sym.stInfo &&& 0xf = x ↔ sym.stInfo.toNat % 16 = x.toNat := by
    intro x
    rw [← hlow, UInt8.toNat_inj]
  simp only [Sym.exported, Sym.Sized, Bool.and_eq_true, Bool.or_eq_true, decide_eq_true_eq, htype]
  exact and_congr_left' or_comm

theorem named_iff : img.Named sym name ↔ sym.exported = true ∧ img.stName sym = some name := by
  rw [Named, exported_iff, stName, cString_eq]

theorem not_firstNamed_nil : ¬ img.FirstNamed [] name sym := by
  intro h
  obtain ⟨before, after, heq, -⟩ := h
  exact List.append_ne_nil_of_right_ne_nil before (List.cons_ne_nil sym after) heq.symm

theorem firstNamed_cons :
    img.FirstNamed (s :: syms) name sym ↔
      sym = s ∧ img.Named s name ∨ ¬ img.Named s name ∧ img.FirstNamed syms name sym := by
  constructor
  · intro h
    obtain ⟨before, after, heq, hnamed, hfirst⟩ := h
    cases before with
    | nil =>
      obtain ⟨rfl, rfl⟩ := List.cons.inj heq
      exact .inl ⟨rfl, hnamed⟩
    | cons x before =>
      obtain ⟨rfl, rfl⟩ := List.cons.inj heq
      obtain ⟨hx, hfirst⟩ := List.forall_mem_cons.mp hfirst
      exact .inr ⟨hx, before, after, rfl, hnamed, hfirst⟩
  · intro h
    rcases h with ⟨rfl, hnamed⟩ | ⟨hs, before, after, rfl, hnamed, hfirst⟩
    · exact ⟨[], syms, rfl, hnamed, fun _ h => absurd h List.not_mem_nil⟩
    · exact ⟨s :: before, after, rfl, hnamed, List.forall_mem_cons.mpr ⟨hs, hfirst⟩⟩

theorem exists_firstNamed (hs : s ∈ syms) (hname : img.Named s name) :
    ∃ sym, img.FirstNamed syms name sym := by
  induction syms with
  | nil => exact absurd hs List.not_mem_nil
  | cons x syms ih =>
    by_cases hx : img.Named x name
    · exact ⟨x, firstNamed_cons.mpr (.inl ⟨rfl, hx⟩)⟩
    · rcases List.mem_cons.mp hs with rfl | hs
      · exact absurd hname hx
      · obtain ⟨sym, hsym⟩ := ih hs
        exact ⟨sym, firstNamed_cons.mpr (.inr ⟨hx, hsym⟩)⟩

/-- The first pair of the list is the first entry of the table. -/
theorem firstPair_pairs (syms : List Sym) :
    FirstPair (img.pairs syms) (name, sym) ↔ img.FirstNamed syms name sym := by
  induction syms with
  | nil => exact iff_of_false not_firstPair_nil not_firstNamed_nil
  | cons s syms ih =>
    rw [firstNamed_cons, pairs]
    by_cases hs : s.exported = true
    · cases hname : img.stName s with
      | none =>
        have hnot : ¬ img.Named s name := fun h =>
          Option.some_ne_none name ((named_iff.mp h).2.symm.trans hname)
        rw [if_pos hs, ih, or_iff_right fun h => hnot h.2, and_iff_right hnot]
      | some name' =>
        have hnamed : img.Named s name ↔ name = name' := by
          rw [named_iff, and_iff_right hs, hname, Option.some_inj, eq_comm]
        rw [if_pos hs, firstPair_cons, ih, hnamed, Prod.mk.injEq, and_comm]
    · have hnot : ¬ img.Named s name := fun h => hs (named_iff.mp h).1
      rw [if_neg hs, ih, or_iff_right fun h => hnot h.2, and_iff_right hnot]

/-- The loop offers its entries to the map. -/
theorem initLoop_eq (h : ∀ sym ∈ syms, sym.exported = true → (img.stName sym).isSome = true) :
    img.initLoop syms symtabs = some (symtabs.emplaceAll (img.pairs syms)) := by
  induction syms generalizing symtabs with
  | nil => rfl
  | cons s syms ih =>
    obtain ⟨hs, hsyms⟩ := List.forall_mem_cons.mp h
    rw [initLoop, pairs]
    by_cases hexported : s.exported = true
    · obtain ⟨name, hname⟩ := Option.isSome_iff_exists.mp (hs hexported)
      rw [if_pos hexported, if_pos hexported, hname]
      exact ih hsyms
    · rw [if_neg hexported, if_neg hexported]
      exact ih hsyms

/-- The map is empty or has been built. -/
def Cached (img : Symtab) (symtabs : SymMap) : Prop :=
  symtabs = SortedMap.empty ∨ symtabs = img.built

theorem mayInitLinearMap_eq (h : img.Cached symtabs) :
    img.mayInitLinearMap symtabs = some img.built := by
  by_cases hentries : symtabs.entries = []
  · have hempty : symtabs = SortedMap.empty := SortedMap.ext hentries
    rw [mayInitLinearMap, if_pos hentries, hempty, built, symbols]
    cases hstart : img.symtabStart with
    | none =>
      rw [Option.getD_none, ite_self]
      rfl
    | some syms =>
      by_cases hoffset : img.symstrOffset = 0
      · rw [if_pos hoffset]
        exact if_neg (not_not.mpr hoffset)
      · rw [if_neg hoffset, Option.getD_some]
        refine (if_pos hoffset).trans (initLoop_eq ?_)
        intro sym hsym hexported
        rw [stName, cString_eq]
        exact img.terminated syms hstart hoffset sym hsym (exported_iff.mp hexported)
  · have hbuilt : symtabs = img.built := by
      refine h.resolve_left ?_
      intro hempty
      exact hentries (congrArg SortedMap.entries hempty)
    rw [mayInitLinearMap, if_neg hentries, hbuilt]

/-- The entries of the map are the first ones with their names. -/
theorem mem_built : (name, sym) ∈ img.built.entries ↔ img.FirstNamed img.symbols name sym := by
  have hnone : (name, sym) ∉ (SortedMap.empty : SymMap).entries := List.not_mem_nil
  rw [built, SortedMap.mem_emplaceAll, firstPair_pairs, or_iff_right hnone]
  exact and_iff_right List.not_mem_nil

/-- A name with the prefix is the key of an entry. -/
theorem exists_key (hs : s ∈ img.symbols) (hname : img.Named s name) :
    ∃ x ∈ img.built.entries, x.1 = name := by
  obtain ⟨sym, hsym⟩ := exists_firstNamed hs hname
  exact ⟨(name, sym), mem_built.mpr hsym, rfl⟩

/-- What the lookup returns, and that the map has been built then. -/
theorem prefixLookupFirst_eq (h : img.Cached symtabs) (start : List UInt8) :
    ∃ value, img.prefixLookupFirst symtabs start = some (value, img.built) ∧
      ((∃ sym, img.Least start sym ∧ value = sym.stValue) ∨
        (∀ s ∈ img.symbols, ∀ name, img.Named s name → ¬ start <+: name) ∧ value = 0) := by
  rw [prefixLookupFirst, mayInitLinearMap_eq h, Option.bind_eq_bind, Option.bind_some]
  cases hbound : img.built.lowerBound start with
  | none =>
    refine ⟨0, rfl, .inr ⟨?_, rfl⟩⟩
    intro s hs name hname hstart
    obtain ⟨x, hx, rfl⟩ := exists_key hs hname
    exact SortedMap.lowerBound_eq_none hbound x hx (prefix_le hstart)
  | some i =>
    obtain ⟨name, sym⟩ := i
    obtain ⟨hmem, hle, hleast⟩ := SortedMap.lowerBound_eq_some hbound
    by_cases hstart : start <+: name
    · refine ⟨sym.stValue, if_pos (List.isPrefixOf_iff_prefix.mpr hstart), .inl ?_⟩
      refine ⟨sym, ⟨name, hstart, mem_built.mp hmem, ?_⟩, rfl⟩
      intro s hs name' hname hstart'
      obtain ⟨x, hx, rfl⟩ := exists_key hs hname
      exact hleast x hx (prefix_le hstart')
    · refine ⟨0, if_neg (mt List.isPrefixOf_iff_prefix.mp hstart), .inr ⟨?_, rfl⟩⟩
      intro s hs name' hname hstart'
      obtain ⟨x, hx, rfl⟩ := exists_key hs hname
      exact hstart (prefix_of_le_of_le hstart' hle (hleast x hx (prefix_le hstart')))

theorem lookup_cached (h : img.Cached symtabs) (l : Lookup) :
    img.lookup symtabs l = some img.built := by
  cases l with
  | linear name =>
    rw [lookup, linearLookup, mayInitLinearMap_eq h, Option.bind_eq_bind, Option.bind_some]
    cases img.built.find name <;> rfl
  | first start =>
    obtain ⟨value, hrun, -⟩ := prefixLookupFirst_eq h start
    rw [lookup, hrun]
    rfl

/-- Any run of lookups goes through, and leaves the map empty or built. -/
theorem lookups_cached (h : img.Cached symtabs) (ls : List Lookup) :
    ∃ symtabs', ls.foldlM img.lookup symtabs = some symtabs' ∧ img.Cached symtabs' := by
  induction ls generalizing symtabs with
  | nil => exact ⟨symtabs, rfl, h⟩
  | cons l ls ih =>
    rw [List.foldlM_cons, lookup_cached h]
    exact ih (.inr rfl)

/-- Whatever has been looked up before, the first name with the prefix is found, at its earliest
entry. -/
theorem prefixLookupFirst_least (img : Symtab) (ls : List Lookup) (start : List UInt8) :
    ∃ symtabs value symtabs', ls.foldlM img.lookup SortedMap.empty = some symtabs ∧
      img.prefixLookupFirst symtabs start = some (value, symtabs') ∧
      ((∃ sym, img.Least start sym ∧ value = sym.stValue) ∨
        (∀ s ∈ img.symbols, ∀ name, img.Named s name → ¬ start <+: name) ∧ value = 0) := by
  obtain ⟨symtabs, hrun, hcached⟩ := lookups_cached (.inl rfl) ls
  obtain ⟨value, hlookup, hvalue⟩ := prefixLookupFirst_eq hcached start
  exact ⟨symtabs, value, img.built, hrun, hlookup, hvalue⟩

/-! A table of two functions, `ab` and `aa`, and an object `aa` behind them. -/

def threeNames : Symtab where
  file := [0, 97, 98, 0, 97, 97, 0]
  symtabStart := some [⟨0, 0x12, 0x500, 8⟩, ⟨3, 0x12, 0x600, 8⟩, ⟨3, 0x11, 0x700, 4⟩]
  symstrOffset := 1
  terminated := by
    intro syms hstart _
    obtain rfl := Option.some.inj hstart
    decide

/-- After a lookup by a name, the least name with the prefix is found at its first entry. -/
theorem threeNames_least : ∃ symtabs value symtabs',
    [Lookup.linear [97, 98]].foldlM threeNames.lookup SortedMap.empty = some symtabs ∧
      threeNames.prefixLookupFirst symtabs [97] = some (value, symtabs') ∧
      ((∃ sym, threeNames.Least [97] sym ∧ value = sym.stValue) ∨
        (∀ s ∈ threeNames.symbols, ∀ name, threeNames.Named s name → ¬ [97] <+: name) ∧
          value = 0) :=
  prefixLookupFirst_least threeNames [.linear [97, 98]] [97]

example : (threeNames.prefixLookupFirst SortedMap.empty [97]).map Prod.fst = some 0x600 := by decide

end Symtab

end NativeLib.Dlfc
