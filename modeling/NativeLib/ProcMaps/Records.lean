import Mathlib.Algebra.Group.Int.Defs
import Mathlib.Data.Int.Order.Basic
import NativeLib.ProcMaps.Buffers
import NativeLib.ProcMaps.Scanf

/-! `proc_maps_parser/pmparser.cpp`: the whole record that `pmparser_parse` makes of a line, and
when it is the entry that the kernel printed. -/

namespace NativeLib.ProcMaps

open HideMaps

/-- `procmaps_struct` without the link. -/
structure ProcmapsRecord (abi : Abi) where
  origPath : List Char
  addrStart : abi.Long
  addrEnd : abi.Long
  length : abi.Long
  perm : List Char
  isR : Bool
  isW : Bool
  isX : Bool
  isP : Bool
  offset : abi.Long
  dev : List Char
  inode : BitVec 32
  pathname : List Char
  deriving DecidableEq, Repr

/-- `strtol(s, NULL, 10)`: a value that does not fit is cut off at the limits of `long`. -/
def strtol (abi : Abi) (s : Line) : ℤ :=
  let (negative, s) := sign (s.dropWhile FindSyscall.isSpace)
  let value : ℤ := Nat.ofDigitChars 10 (s.takeWhile Char.isDigit) 0
  max (-2 ^ (abi.bits - 1)) (min (2 ^ (abi.bits - 1) - 1) (if negative then -value else value))

/-- `atoi`. -/
def atoi (abi : Abi) (s : Line) : BitVec 32 := BitVec.ofInt 32 (strtol abi s)

/-- One round of the loop of `pmparser_parse`; no result where a store leaves its buffer or an
address stays unset. -/
def parseRecord (abi : Abi) (buf : Line) : Option (ProcmapsRecord abi) := do
  let f ← splitLine buf
  let stores ← parseStores buf
  if ∀ s ∈ stores, s.Inside then
    let (addrStart, _) ← FindSyscall.scanHex abi.bits f.addr1
    let (addrEnd, _) ← FindSyscall.scanHex abi.bits f.addr2
    let (offset, _) ← FindSyscall.scanHex abi.bits f.offset
    some {
      origPath := buf
      addrStart, addrEnd
      length := addrEnd - addrStart
      perm := f.perm
      isR := f.perm[0]? == some 'r'
      isW := f.perm[1]? == some 'w'
      isX := f.perm[2]? == some 'x'
      isP := f.perm[3]? == some 'p'
      offset
      dev := f.device
      inode := atoi abi f.inode
      pathname := f.pathname }
  else none

/-- The record says of the mapping what the entry does. -/
structure ProcmapsRecord.Describes {abi : Abi} (r : ProcmapsRecord abi)
    (e : MapsEntry abi.bits) : Prop where
  addrStart : r.addrStart.toNat = e.start
  addrEnd : r.addrEnd.toNat = e.stop
  length : r.length.toNat = e.stop - e.start
  isR : r.isR = e.perms.r
  isW : r.isW = e.perms.w
  isX : r.isX = e.perms.x
  isP : r.isP = !e.shared
  offset : r.offset.toInt = e.offset
  dev : r.dev = e.device
  inode : r.inode.toInt = e.inode
  pathname : r.pathname = e.path

variable {abi : Abi}

/-- The record of an entry. -/
def recordOf (e : MapsEntry abi.bits) (pad : ℕ) : ProcmapsRecord abi where
  origPath := e.line pad
  addrStart := .ofNat _ e.start
  addrEnd := .ofNat _ e.stop
  length := .ofNat _ e.stop - .ofNat _ e.start
  perm := permText e.perms e.shared
  isR := e.perms.r
  isW := e.perms.w
  isX := e.perms.x
  isP := !e.shared
  offset := .ofNat _ e.offset
  dev := e.device
  inode := atoi abi (decText e.inode)
  pathname := cutPath e.path

/-- The parser makes that record of a line that fits. -/
theorem parseRecord_entry (e : MapsEntry abi.bits) (pad : ℕ) (hlen : (e.line pad).length < 1024) :
    parseRecord abi (e.line pad) = some (recordOf e pad) := by
  have hpath : e.path.length ≤ PATH_MAX - 1 := by
    have := e.path_length_lt pad
    simp only [PATH_MAX]
    omega
  obtain ⟨stores, hstores, hinside⟩ := parseStores_inside e pad hpath hlen
  have hscan : ∀ n, FindSyscall.scanHex abi.bits (hexText 8 n) = some (.ofNat _ n, []) := by
    intro n
    have := scanHex_number (w := abi.bits) (scanHex_hexText 8 n) stops_nil
    rwa [List.append_nil] at this
  simp only [parseRecord, e.splitLine_entry, hstores, Option.bind_eq_bind, Option.bind_some,
    if_pos hinside, MapsEntry.fields, hscan]
  obtain ⟨⟨r, w, x⟩, hperms⟩ : ∃ p, e.perms = p := ⟨_, rfl⟩
  simp only [recordOf, hperms, permText]
  cases r <;> cases w <;> cases x <;> cases e.shared <;> rfl

/-- What the functions that hide mappings use of the record. -/
def ProcmapsRecord.item (r : ProcmapsRecord abi) : ProcmapsStruct :=
  ⟨r.addrStart.toNat, r.addrEnd.toNat, r.isR, r.isW, r.isX, r.pathname⟩

def MapsEntry.record {bits : ℕ} (e : MapsEntry bits) : ProcmapsStruct :=
  ⟨e.start, e.stop, e.perms.r, e.perms.w, e.perms.x, cutPath e.path⟩

theorem item_recordOf (e : MapsEntry abi.bits) (pad : ℕ) : (recordOf e pad).item = e.record := by
  have hstart := Nat.mod_eq_of_lt (e.start_lt.trans e.stop_lt)
  have hstop := Nat.mod_eq_of_lt e.stop_lt
  rw [ProcmapsRecord.item, recordOf, BitVec.toNat_ofNat, BitVec.toNat_ofNat, hstart, hstop]
  rfl

/-- A piece that is read into a record fits into `orig_path`. -/
theorem length_of_parseRecord {buf : Line} {r : ProcmapsRecord abi}
    (h : parseRecord abi buf = some r) : buf.length < 1024 := by
  obtain ⟨f, -, h⟩ := Option.bind_eq_some_iff.mp h
  obtain ⟨stores, hstores, h⟩ := Option.bind_eq_some_iff.mp h
  split at h
  · next hinside => exact origPath_inside hstores hinside
  · exact absurd h (by simp)

theorem cutPath_eq_self {path : List Char} :
    cutPath path = path ↔ ∀ c ∈ path, isBlank c = false := by
  refine ⟨?_, cutPath_eq⟩
  intro h c hc
  rw [← h] at hc
  simpa using List.mem_takeWhile_imp hc

/-- A number fits into `long` when the sign bit is not needed. -/
theorem toInt_long (abi : Abi) (n : ℕ) :
    (BitVec.ofNat abi.bits n).toInt = n ↔ n < 2 ^ (abi.bits - 1) := by
  rw [BitVec.toInt_ofNat', Int.bmod_def]
  cases abi <;> simp only [Abi.bits] <;> omega

/-- The digits of a number are read back, up to the largest `long`. -/
theorem strtol_decText (n : ℕ) : strtol abi (decText n) = min (2 ^ (abi.bits - 1) - 1) (n : ℤ) := by
  obtain ⟨c, text, htext⟩ := List.exists_cons_of_ne_nil (decText_column n).nonempty
  have hdigit : c.isDigit = true := decText_digit c (htext ▸ List.mem_cons_self ..)
  have hall : (decText n).takeWhile Char.isDigit = decText n := by
    rw [List.takeWhile_eq_self_iff]
    exact decText_digit
  have hsign : sign ((decText n).dropWhile FindSyscall.isSpace) = (false, decText n) := by
    rw [htext, List.dropWhile_cons_of_neg (by simp [isSpace_of_isDigit hdigit]),
      sign_of_isDigit hdigit]
  have hvalue : Nat.ofDigitChars 10 (decText n) 0 = n := Nat.ofDigitChars_ten_toDigits
  have hpos : (0 : ℤ) < 2 ^ (abi.bits - 1) := Int.pow_pos (by decide)
  simp only [strtol, hsign, hall, hvalue]
  rw [if_neg (by decide)]
  omega

theorem toInt_atoi (abi : Abi) (n : ℕ) : (atoi abi (decText n)).toInt = n ↔ n < 2 ^ 31 := by
  refine ⟨?_, ?_⟩
  · intro h
    have := BitVec.toInt_lt (x := atoi abi (decText n))
    omega
  · intro h
    have hlong : (2 : ℤ) ^ 31 ≤ 2 ^ (abi.bits - 1) := by cases abi <;> decide
    rw [atoi, strtol_decText, min_eq_right (by omega)]
    exact BitVec.toInt_ofInt_eq_self (by decide) (by omega) (by omega)

/-- The record describes the entry exactly when the name has no blank and the numbers fit into
their fields. -/
theorem parseRecord_describes_iff (e : MapsEntry abi.bits) (pad : ℕ)
    (hlen : (e.line pad).length < 1024) :
    (∃ r, parseRecord abi (e.line pad) = some r ∧ r.Describes e) ↔
      (∀ c ∈ e.path, isBlank c = false) ∧ e.inode < 2 ^ 31 ∧ e.offset < 2 ^ (abi.bits - 1) := by
  rw [parseRecord_entry e pad hlen]
  simp only [Option.some_inj, exists_eq_left', ← cutPath_eq_self, ← toInt_long abi,
    ← toInt_atoi abi]
  refine ⟨fun h => ⟨h.pathname, h.inode, h.offset⟩, ?_⟩
  rintro ⟨hpath, hinode, hoffset⟩
  have hstart := Nat.mod_eq_of_lt (e.start_lt.trans e.stop_lt)
  have hstop := Nat.mod_eq_of_lt e.stop_lt
  have hlt := e.start_lt
  refine ⟨?_, ?_, ?_, rfl, rfl, rfl, rfl, hoffset, rfl, hinode, hpath⟩
  · rw [recordOf, BitVec.toNat_ofNat, hstart]
  · rw [recordOf, BitVec.toNat_ofNat, hstop]
  · rw [recordOf, BitVec.toNat_sub_of_le]
    · rw [BitVec.toNat_ofNat, BitVec.toNat_ofNat, hstart, hstop]
    · rw [BitVec.le_def, BitVec.toNat_ofNat, BitVec.toNat_ofNat, hstart, hstop]
      omega

theorem parseRecord_describes_iff_short :
    (∃ r, parseRecord .aarch64 ((longPath 3).line 1) = some r ∧ r.Describes (longPath 3)) :=
  (parseRecord_describes_iff (longPath 3) 1 (by decide)).mpr
    ⟨forall_of_any (by decide), by decide, by decide⟩

/-- A library that was deleted while it was mapped. -/
def deletedLibrary : MapsEntry Abi.aarch64.bits :=
  .plain 0x1000 0x2000 ['/', 'a', ' ', '(', 'd', ')'] page_lt_page page_lt_pow (by decide)
    (by decide)

/-- Of the name of a deleted library only the first word is kept. -/
theorem deleted_name_cut : (deletedLibrary.line 1).length < 1024 ∧
    ¬ ∃ r, parseRecord .aarch64 (deletedLibrary.line 1) = some r ∧ r.Describes deletedLibrary := by
  refine ⟨by decide, ?_⟩
  rw [parseRecord_entry _ _ (by decide)]
  rintro ⟨r, hr, hdescribes⟩
  obtain rfl := Option.some.inj hr
  have hpath := hdescribes.pathname
  revert hpath
  decide

end NativeLib.ProcMaps
