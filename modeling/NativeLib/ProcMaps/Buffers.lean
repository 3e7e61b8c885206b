import NativeLib.ProcMaps.MapsEntry

/-! The buffers of `proc_maps_parser/pmparser.cpp`: what `pmparser_parse` and
`_pmparser_split_line` store for a line, and where. -/

namespace NativeLib.ProcMaps

open HideMaps

def PROCMAPS_LINE_MAX_LENGTH : ℕ := PATH_MAX + 100

/-- The local buffers of `pmparser_parse`, and the strings of `procmaps_struct`. -/
inductive Buffer where
  | addr1
  | addr2
  | perm
  | offset
  | dev
  | inode
  | pathname
  | nodeOrigPath
  | nodePerm
  | nodeDev
  | nodePathname
  deriving DecidableEq, Repr

def Buffer.size : Buffer → ℕ
  | addr1 => 20
  | addr2 => 20
  | perm => 8
  | offset => 20
  | dev => 10
  | inode => 30
  | pathname => PATH_MAX
  | nodeOrigPath => 1024
  | nodePerm => 5
  | nodeDev => 50
  | nodePathname => PATH_MAX

/-- A byte stored at an index of a buffer. -/
structure Store where
  buffer : Buffer
  index : ℕ
  deriving DecidableEq, Repr

def Store.Inside (s : Store) : Prop := s.index < s.buffer.size

instance (s : Store) : Decidable s.Inside := inferInstanceAs (Decidable (_ < _))

/-- A string is written, then its terminator. -/
def copied (buffer : Buffer) (text : List Char) : List Store :=
  (List.range (text.length + 1)).map (⟨buffer, ·⟩)

/-- The stores of `_pmparser_split_line`. -/
def splitStores (f : MapsFields) : List Store :=
  copied .addr1 f.addr1 ++ copied .addr2 f.addr2 ++ copied .perm f.perm ++
    copied .offset f.offset ++ copied .dev f.device ++ copied .inode f.inode ++
      ⟨.pathname, 0⟩ :: copied .pathname f.pathname

/-- The stores of one round of the loop of `pmparser_parse`: a `strcpy` of the line, the columns,
and a `strcpy` of three of them. -/
def parseStores (buf : Line) : Option (List Store) := do
  let f ← splitLine buf
  some (copied .nodeOrigPath buf ++ splitStores f ++ copied .nodePerm f.perm ++
    copied .nodeDev f.device ++ copied .nodePathname f.pathname)

theorem inside_copied {buffer : Buffer} {text : List Char} :
    (∀ s ∈ copied buffer text, s.Inside) ↔ text.length < buffer.size := by
  simp only [copied, List.forall_mem_map, List.mem_range, Store.Inside]
  refine ⟨fun h => h _ (Nat.lt_succ_self _), ?_⟩
  intro h i hi
  omega

namespace MapsEntry

variable {bits : ℕ} (e : MapsEntry bits)

/-- The columns of the entry as the parser splits them. -/
def fields : MapsFields where
  addr1 := hexText 8 e.start
  addr2 := hexText 8 e.stop
  perm := permText e.perms e.shared
  offset := hexText 8 e.offset
  device := e.device
  inode := decText e.inode
  pathname := cutPath e.path

theorem splitLine_entry (pad : ℕ) : splitLine (e.line pad) = some e.fields := by
  obtain ⟨-, hdash⟩ := scanHex_column (scanHex_hexText 8 e.start)
  refine splitLine_columns hdash (hexText_column _ _) (permText_column _ _) (hexText_column _ _)
    e.device_column (decText_column _) ?_ e.path_newline
  intro c hc
  rw [List.eq_of_mem_replicate hc]
  rfl

theorem cutPath_length (path : List Char) : (cutPath path).length ≤ path.length :=
  (List.takeWhile_prefix _).length_le.trans (List.dropWhile_sublist _).length_le

theorem path_length_lt (pad : ℕ) : e.path.length < (e.line pad).length := by
  simp only [line, List.length_append, List.length_cons, List.length_nil]
  omega

end MapsEntry

theorem pow_bits_le (abi : Abi) : 2 ^ abi.bits ≤ 2 ^ 64 :=
  Nat.pow_le_pow_right (by decide) (by cases abi <;> decide)

/-- An address has no more than sixteen digits. -/
theorem address_length {abi : Abi} {n : ℕ} (h : n < 2 ^ abi.bits) :
    (hexText 8 n).length ≤ 16 :=
  hexText_length (by decide) (by decide) (h.trans_le ((pow_bits_le abi).trans (by decide)))

theorem offset_length {bits : ℕ} (e : MapsEntry bits) : (hexText 8 e.offset).length ≤ 16 :=
  hexText_length (by decide) (by decide) (e.offset_lt.trans (by decide))

theorem inode_length {bits : ℕ} (e : MapsEntry bits) : (decText e.inode).length ≤ 20 :=
  decText_length (by decide) (e.inode_lt.trans (by decide))

/-- How long the columns before the name get. -/
theorem columns_length {abi : Abi} (e : MapsEntry abi.bits) :
    (hexText 8 e.start).length ≤ 16 ∧ (hexText 8 e.stop).length ≤ 16 ∧
      (hexText 8 e.offset).length ≤ 16 ∧ e.device.length ≤ 9 ∧ (decText e.inode).length ≤ 20 :=
  ⟨address_length (e.start_lt.trans e.stop_lt), address_length e.stop_lt, offset_length e,
    e.device_length, inode_length e⟩

/-- The columns before the name take 88 characters at most. -/
theorem line_length_le {abi : Abi} (e : MapsEntry abi.bits) (pad : ℕ) :
    (e.line pad).length ≤ 88 + pad + e.path.length := by
  obtain ⟨hstart, hstop, hoffset, hdev, hinode⟩ := columns_length e
  simp only [MapsEntry.line, permText, List.length_append, List.length_cons, List.length_nil,
    List.length_replicate]
  omega

/-- The columns before the name always fit. -/
theorem splitStores_inside {abi : Abi} (e : MapsEntry abi.bits)
    (hpath : e.path.length ≤ PATH_MAX - 1) : ∀ s ∈ splitStores e.fields, s.Inside := by
  have hcut := MapsEntry.cutPath_length e.path
  obtain ⟨hstart, hstop, hoffset, hdev, hinode⟩ := columns_length e
  unfold splitStores
  simp only [List.forall_mem_append, List.forall_mem_cons, inside_copied]
  simp only [MapsEntry.fields, Buffer.size, Store.Inside, permText, PATH_MAX, List.length_cons,
    List.length_nil] at hpath ⊢
  omega

theorem origPath_inside {buf : Line} {stores : List Store} (h : parseStores buf = some stores)
    (hinside : ∀ s ∈ stores, s.Inside) : buf.length < 1024 := by
  obtain ⟨f, -, h⟩ := Option.bind_eq_some_iff.mp h
  obtain rfl := Option.some.inj h
  simp only [List.forall_mem_append, inside_copied] at hinside
  exact hinside.1.1.1.1

/-- A line that fits into `orig_path` is stored inside the buffers. -/
theorem parseStores_inside {abi : Abi} (e : MapsEntry abi.bits) (pad : ℕ)
    (hpath : e.path.length ≤ PATH_MAX - 1) (hlen : (e.line pad).length < 1024) :
    ∃ stores, parseStores (e.line pad) = some stores ∧ ∀ s ∈ stores, s.Inside := by
  have hcut := MapsEntry.cutPath_length e.path
  have hdev := e.device_length
  have hperm : (permText e.perms e.shared).length < Buffer.nodePerm.size := by
    simp [permText, Buffer.size]
  have hnodeDev : e.device.length < Buffer.nodeDev.size := by
    rw [Buffer.size]
    omega
  have hnodePath : (cutPath e.path).length < Buffer.nodePathname.size := by
    simp only [Buffer.size, PATH_MAX] at hpath ⊢
    omega
  refine ⟨_, by rw [parseStores, e.splitLine_entry]; rfl, ?_⟩
  simp only [List.forall_mem_append]
  exact ⟨⟨⟨⟨inside_copied.mpr hlen, splitStores_inside e hpath⟩, inside_copied.mpr hperm⟩,
    inside_copied.mpr hnodeDev⟩, inside_copied.mpr hnodePath⟩

/-- All stores stay inside their buffers exactly when the line fits into `orig_path`. -/
theorem parseStores_inside_iff {abi : Abi} (e : MapsEntry abi.bits) (pad : ℕ)
    (hpath : e.path.length ≤ PATH_MAX - 1) :
    (∃ stores, parseStores (e.line pad) = some stores ∧ ∀ s ∈ stores, s.Inside) ↔
      (e.line pad).length < 1024 := by
  refine ⟨?_, parseStores_inside e pad hpath⟩
  rintro ⟨stores, hstores, hinside⟩
  exact origPath_inside hstores hinside

theorem page_lt_pow : 0x2000 < 2 ^ Abi.aarch64.bits := by decide

/-- A mapping of a file with a name of `n` letters. -/
def longPath (n : ℕ) : MapsEntry Abi.aarch64.bits :=
  .plain 0x1000 0x2000 (List.replicate n 'a') page_lt_page page_lt_pow
    (fun h => absurd (List.eq_of_mem_replicate h) (by decide))
    (fun h => absurd (List.eq_of_mem_replicate h) (by decide))

theorem parseStores_inside_iff_short :
    (∃ stores, parseStores ((longPath 3).line 1) = some stores ∧ ∀ s ∈ stores, s.Inside) :=
  (parseStores_inside_iff (longPath 3) 1 (by decide)).mpr (by decide)

/-- A name that the line buffer has room for runs over the end of `orig_path`. -/
theorem origPath_overflows : (longPath 1024).path.length ≤ PATH_MAX - 1 ∧
    ((longPath 1024).line 1).length ≤ PROCMAPS_LINE_MAX_LENGTH - 1 ∧
    ¬ ∃ stores, parseStores ((longPath 1024).line 1) = some stores ∧ ∀ s ∈ stores, s.Inside := by
  have hlen := (longPath 1024).path_length_lt 1
  have hle := line_length_le (longPath 1024) 1
  have hpath : (longPath 1024).path.length = 1024 := List.length_replicate
  refine ⟨?_, ?_, ?_⟩
  · simp only [hpath, PATH_MAX]
    omega
  · simp only [PROCMAPS_LINE_MAX_LENGTH, PATH_MAX]
    omega
  · rintro ⟨stores, hstores, hinside⟩
    have := origPath_inside hstores hinside
    omega

end NativeLib.ProcMaps
