import Mathlib.Algebra.Group.Nat.Defs
import Mathlib.Data.List.Forall2
import Mathlib.Data.List.TakeWhile
import NativeLib.Memory.MemoryMap

/-! `proc_maps_parser/pmparser.cpp`: a line of the maps file, split into columns. The loops of
`_pmparser_split_line` do not look for the end of the line; where one runs past it there is no
result. -/

namespace NativeLib.HideMaps

open Memory

/-- The two ABIs of the library. -/
inductive Abi where
  | arm
  | aarch64
  deriving DecidableEq, Repr

namespace Abi

/-- The width of a `long`, a pointer and a `uintptr_t`. -/
def bits : Abi → ℕ
  | arm => 32
  | aarch64 => 64

/-- The last page is never mapped: the kernel returns error numbers in its place. -/
def limit (abi : Abi) : ℕ := 2 ^ abi.bits - pageSize

/-- `a - b` on `uintptr_t`. -/
def sub (abi : Abi) (a b : ℕ) : ℕ := (a + 2 ^ abi.bits - b) % 2 ^ abi.bits

end Abi

abbrev Abi.Long (abi : Abi) : Type := BitVec abi.bits

abbrev Line := List Char

/-- The columns `_pmparser_split_line` fills. -/
structure MapsFields where
  addr1 : List Char
  addr2 : List Char
  perm : List Char
  offset : List Char
  device : List Char
  inode : List Char
  pathname : List Char
  deriving DecidableEq, Repr

/-- `buf[i]=='\t' || buf[i]==' '`. -/
def isBlank (c : Char) : Bool := c == '\t' || c == ' '

/-- `while(!stop(buf[i])) { out[i-orig]=buf[i]; i++; }`: what was copied, and what is left. -/
def copyUntil (stop : Char → Bool) : Line → Option (List Char × Line)
  | [] => none
  | c :: buf =>
      if stop c then some ([], c :: buf)
      else (copyUntil stop buf).map fun (out, rest) => (c :: out, rest)

/-- `while(buf[i]=='\t' || buf[i]==' ') i++;`. -/
def skipBlanks (buf : Line) : Line := buf.dropWhile isBlank

/-- `_pmparser_split_line`. -/
def splitLine (buf : Line) : Option MapsFields := do
  let (addr1, buf) ← copyUntil (· == '-') buf
  let (addr2, buf) ← copyUntil isBlank (buf.drop 1)
  let (perm, buf) ← copyUntil isBlank (skipBlanks buf)
  let (offset, buf) ← copyUntil isBlank (skipBlanks buf)
  let (device, buf) ← copyUntil isBlank (skipBlanks buf)
  let (inode, buf) ← copyUntil isBlank (skipBlanks buf)
  let (pathname, _) ← copyUntil (fun c => isBlank c || c == '\n') (skipBlanks buf)
  some ⟨addr1, addr2, perm, offset, device, inode, pathname⟩

/-- What the functions that hide mappings use of `procmaps_struct`. -/
structure ProcmapsStruct where
  addrStart : ℕ
  addrEnd : ℕ
  isR : Bool
  isW : Bool
  isX : Bool
  pathname : List Char
  deriving DecidableEq, Repr

/-- A hexadecimal digit, as the kernel prints it. -/
def hexDigit (c : Char) : Option ℕ :=
  if '0' ≤ c ∧ c ≤ '9' then some (c.toNat - '0'.toNat)
  else if 'a' ≤ c ∧ c ≤ 'f' then some (c.toNat - 'a'.toNat + 10)
  else none

/-- The number that a column of hexadecimal digits stands for. -/
def scanHex : List Char → Option ℕ
  | [] => none
  | digits => (digits.mapM hexDigit).map (·.foldl (fun v d => 16 * v + d) 0)

theorem copyUntil_append {stop : Char → Bool} {c : Char} (hc : stop c = true) (rest : Line) :
    ∀ {out : List Char}, (∀ x ∈ out, stop x = false) →
      copyUntil stop (out ++ c :: rest) = some (out, c :: rest)
  | [], _ => by simp [copyUntil, hc]
  | x :: out, h => by
    have ih := copyUntil_append hc rest fun y hy => h y (List.mem_cons_of_mem x hy)
    simp [copyUntil, h x, ih]

/-- What the parser keeps of a pathname: it stops at the first blank. -/
def cutPath (path : List Char) : List Char :=
  (skipBlanks path).takeWhile fun c => !isBlank c

theorem cutPath_eq {path : List Char} (h : ∀ c ∈ path, isBlank c = false) :
    cutPath path = path := by
  have hskip : skipBlanks path = path := by
    cases path with
    | nil => rfl
    | cons c path => exact List.dropWhile_cons_of_neg (by simp [h c (List.mem_cons_self ..)])
  rw [cutPath, hskip, List.takeWhile_eq_self_iff]
  intro c hc
  simp [h c hc]

theorem copyUntil_newline (rest : Line) : ∀ {path : List Char}, '\n' ∉ path →
    ∃ left, copyUntil (fun c => isBlank c || c == '\n') (path ++ '\n' :: rest) =
      some (path.takeWhile fun c => !isBlank c, left)
  | [], _ => ⟨'\n' :: rest, by simp [copyUntil]⟩
  | x :: path, h => by
    rw [List.mem_cons, not_or] at h
    by_cases hx : isBlank x = true
    · exact ⟨x :: (path ++ '\n' :: rest), by simp [copyUntil, hx]⟩
    · obtain ⟨left, ih⟩ := copyUntil_newline rest h.2
      have hxn : x ≠ '\n' := fun he => h.1 he.symm
      exact ⟨left, by simp [copyUntil, hx, hxn, ih]⟩

/-- A column of the maps file: some characters, none of them blank. -/
structure Column (text : List Char) : Prop where
  nonempty : text ≠ []
  noBlank : ∀ c ∈ text, isBlank c = false

theorem column_of_all {text : List Char}
    (h : (!text.isEmpty && text.all fun c => !isBlank c) = true) : Column text := by
  rw [Bool.and_eq_true] at h
  refine ⟨?_, ?_⟩
  · rintro rfl
    simp at h
  · simpa using h.2

theorem Column.skip {text : List Char} (h : Column text) (pad : List Char)
    (hpad : ∀ c ∈ pad, isBlank c = true) (rest : Line) :
    skipBlanks (pad ++ (text ++ rest)) = text ++ rest := by
  obtain ⟨c, text, rfl⟩ := List.exists_cons_of_ne_nil h.nonempty
  rw [skipBlanks, List.dropWhile_append_of_pos hpad, List.cons_append,
    List.dropWhile_cons_of_neg (by simp [h.noBlank c (List.mem_cons_self ..)])]

/-- A column with a blank before and after it is copied whole. -/
theorem Column.copy {text : List Char} (h : Column text) (rest : Line) :
    copyUntil isBlank (skipBlanks (' ' :: (text ++ ' ' :: rest))) = some (text, ' ' :: rest) := by
  have := h.skip [' '] (by simp [isBlank]) (' ' :: rest)
  rw [List.singleton_append] at this
  rw [this]
  exact copyUntil_append rfl rest h.noBlank

/-- Blanks before the name are skipped; the newline behind it is not one of them. -/
theorem skipBlanks_path {pad : List Char} (hpad : ∀ c ∈ pad, isBlank c = true)
    (path : List Char) : skipBlanks (pad ++ (path ++ ['\n'])) = skipBlanks path ++ ['\n'] := by
  unfold skipBlanks
  rw [List.dropWhile_append_of_pos hpad, List.dropWhile_append]
  split
  · next h =>
    rw [List.isEmpty_iff.mp h]
    rfl
  · rfl

theorem mapM_mem {α β : Type} {f : α → Option β} : ∀ {l : List α} {l' : List β},
    l.mapM f = some l' → ∀ x ∈ l, ∃ y, f x = some y
  | [], _, _ => by simp
  | x :: l, l', h => by
    rw [List.mapM_cons] at h
    obtain ⟨y, hy, h⟩ := Option.bind_eq_some_iff.mp h
    obtain ⟨ys, hys, -⟩ := Option.bind_eq_some_iff.mp h
    intro z hz
    rcases List.mem_cons.mp hz with rfl | hz
    · exact ⟨y, hy⟩
    · exact mapM_mem hys z hz

/-- A number is a column, and holds no dash. -/
theorem scanHex_column {text : List Char} {v : ℕ} (h : scanHex text = some v) :
    Column text ∧ ∀ c ∈ text, (c == '-') = false := by
  obtain ⟨ds, hds, hv⟩ : ∃ ds, text.mapM hexDigit = some ds ∧ text ≠ [] := by
    unfold scanHex at h
    split at h
    · simp at h
    · next hne =>
      obtain ⟨ds, hds, -⟩ := Option.map_eq_some_iff.mp h
      exact ⟨ds, hds, hne⟩
  have hother : ∀ c ∈ text, ∀ x, hexDigit x = none → c ≠ x := by
    rintro c hc x hx rfl
    obtain ⟨d, hd⟩ := mapM_mem hds c hc
    simp [hx] at hd
  refine ⟨⟨hv, ?_⟩, ?_⟩
  · intro c hc
    simp [isBlank, hother c hc '\t' (by decide), hother c hc ' ' (by decide)]
  · intro c hc
    simp [hother c hc '-' (by decide)]

theorem scanHex_snoc {text : List Char} {v d : ℕ} {c : Char} (h : scanHex text = some v)
    (hc : hexDigit c = some d) : scanHex (text ++ [c]) = some (16 * v + d) := by
  unfold scanHex at h
  split at h
  · simp at h
  · next hne =>
    obtain ⟨ds, hds, rfl⟩ := Option.map_eq_some_iff.mp h
    unfold scanHex
    split
    · next heq => simp at heq
    · simp [List.mapM_append, hds, hc]

/-- Every number has a text. -/
theorem scanHex_toDigits (v : ℕ) : scanHex (Nat.toDigits 16 v) = some v := by
  induction v using Nat.strongRecOn with
  | ind v ih =>
    have hdigit : ∀ d < 16, hexDigit d.digitChar = some d := by decide
    by_cases hlt : v < 16
    · rw [Nat.toDigits_of_lt_base hlt]
      simp [scanHex, hdigit v hlt]
    · have hle : 16 ≤ v := Nat.le_of_not_lt hlt
      rw [Nat.toDigits_of_base_le (by decide) hle,
        scanHex_snoc (ih (v / 16) (by omega)) (hdigit (v % 16) (by omega)), Option.some_inj]
      omega

/-- Columns with a blank behind each are split as they are; of the name is left what stands
before its first blank. -/
theorem splitLine_columns {addr1 addr2 perm offset device inode pad path : List Char}
    (haddr1 : ∀ c ∈ addr1, (c == '-') = false) (haddr2 : Column addr2) (hperm : Column perm)
    (hoffset : Column offset) (hdevice : Column device) (hinode : Column inode)
    (hpad : ∀ c ∈ pad, isBlank c = true) (hpath : '\n' ∉ path) :
    splitLine (addr1 ++ '-' :: (addr2 ++ ' ' :: (perm ++ ' ' :: (offset ++ ' ' :: (device ++ ' ' ::
      (inode ++ ' ' :: (pad ++ (path ++ ['\n'])))))))) =
      some ⟨addr1, addr2, perm, offset, device, inode, cutPath path⟩ := by
  have h₂ : ∀ rest, copyUntil isBlank (addr2 ++ ' ' :: rest) = some (addr2, ' ' :: rest) :=
    fun rest => copyUntil_append rfl rest haddr2.noBlank
  have hskip : skipBlanks (' ' :: (pad ++ (path ++ ['\n']))) = skipBlanks path ++ ['\n'] :=
    skipBlanks_path (by simpa [isBlank] using hpad) path
  have hmem : '\n' ∉ skipBlanks path := fun h => hpath (List.dropWhile_subset _ h)
  obtain ⟨left, hcut⟩ := copyUntil_newline [] hmem
  rw [splitLine, copyUntil_append rfl _ haddr1]
  simp only [Option.bind_eq_bind, Option.bind_some, List.drop_one, List.tail_cons, h₂,
    hperm.copy, hoffset.copy, hdevice.copy, hinode.copy, hskip, hcut]
  rfl

/-- The permission column: `s` instead of `p` for a shared mapping. -/
def permText (p : Perms) (shared : Bool) : List Char :=
  [if p.r then 'r' else '-', if p.w then 'w' else '-', if p.x then 'x' else '-',
    if shared then 's' else 'p']

theorem permText_column (p : Perms) (shared : Bool) : Column (permText p shared) := by
  apply column_of_all
  obtain ⟨r, w, x⟩ := p
  revert r w x shared
  decide

end NativeLib.HideMaps
