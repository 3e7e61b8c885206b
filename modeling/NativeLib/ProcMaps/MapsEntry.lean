import Mathlib.Algebra.Group.Nat.Defs
import NativeLib.HideMaps.PmParser

/-! The maps file of a process: its entries and the line the kernel prints for each. A
character is a byte. -/

namespace NativeLib.ProcMaps

open HideMaps Memory

def PATH_MAX : ℕ := 4096

/-- An entry of the maps file of a process with addresses of `bits` bits. The path is a C string
and a newline in it is shown as an escape. -/
structure MapsEntry (bits : ℕ) where
  start : ℕ
  stop : ℕ
  perms : Perms
  shared : Bool
  offset : ℕ
  major : ℕ
  minor : ℕ
  inode : ℕ
  path : List Char
  start_lt : start < stop
  stop_lt : stop < 2 ^ bits
  offset_lt : offset < 2 ^ 63
  major_lt : major < 2 ^ 12
  minor_lt : minor < 2 ^ 20
  inode_lt : inode < 2 ^ 64
  path_newline : '\n' ∉ path
  path_nul : '\x00' ∉ path

/-- `%0<width>lx`. -/
def hexText (width n : ℕ) : List Char :=
  List.replicate (width - (Nat.toDigits 16 n).length) '0' ++ Nat.toDigits 16 n

/-- `%lu`. -/
def decText (n : ℕ) : List Char := Nat.toDigits 10 n

namespace MapsEntry

variable {bits : ℕ}

/-- `%02x:%02x`. -/
def device (e : MapsEntry bits) : List Char := hexText 2 e.major ++ ':' :: hexText 2 e.minor

/-- The line of the maps file, with `pad` more blanks before the path. -/
def line (e : MapsEntry bits) (pad : ℕ) : Line :=
  hexText 8 e.start ++ '-' :: (hexText 8 e.stop ++ ' ' :: (permText e.perms e.shared ++ ' ' ::
    (hexText 8 e.offset ++ ' ' :: (e.device ++ ' ' :: (decText e.inode ++ ' ' ::
      (List.replicate pad ' ' ++ (e.path ++ ['\n'])))))))

end MapsEntry

/-- A readable private mapping of no device. -/
def MapsEntry.plain {bits : ℕ} (start stop : ℕ) (path : List Char) (hlt : start < stop)
    (hstop : stop < 2 ^ bits) (hnewline : '\n' ∉ path) (hnul : '\x00' ∉ path) :
    MapsEntry bits where
  start
  stop
  perms := ⟨true, false, false⟩
  shared := false
  offset := 0
  major := 0
  minor := 0
  inode := 0
  path
  start_lt := hlt
  stop_lt := hstop
  offset_lt := by decide
  major_lt := by decide
  minor_lt := by decide
  inode_lt := by decide
  path_newline := hnewline
  path_nul := hnul

/-- The bounds of the second page, which the sample mappings are made of. -/
theorem page_lt_page : 0x1000 < 0x2000 := by decide

/-- `lines` is what the maps file shows for the entries. -/
def Shows {bits : ℕ} (entries : List (MapsEntry bits)) (lines : List Line) : Prop :=
  List.Forall₂ (fun e line => ∃ pad, line = e.line pad) entries lines

/-- Every list of entries is shown in some way. -/
theorem shows_line {bits : ℕ} (entries : List (MapsEntry bits)) (pad : ℕ) :
    Shows entries (entries.map (·.line pad)) := by
  unfold Shows
  rw [List.forall₂_map_right_iff, List.forall₂_same]
  exact fun e _ => ⟨pad, rfl⟩

theorem scanHex_cons (c : Char) (text : List Char) : scanHex (c :: text) =
    ((c :: text).mapM hexDigit).map (·.foldl (fun v d => 16 * v + d) 0) := rfl

theorem scanHex_zeros {text : List Char} {v : ℕ} (h : scanHex text = some v) (k : ℕ) :
    scanHex (List.replicate k '0' ++ text) = some v := by
  induction k with
  | zero => simpa using h
  | succ k ih =>
    obtain ⟨c, rest, hne⟩ := List.exists_cons_of_ne_nil (scanHex_column ih).1.nonempty
    rw [hne, scanHex_cons] at ih
    obtain ⟨ds, hds, rfl⟩ := Option.map_eq_some_iff.mp ih
    rw [List.replicate_succ, List.cons_append, hne, scanHex_cons, List.mapM_cons, hds]
    rfl

theorem scanHex_hexText (width n : ℕ) : scanHex (hexText width n) = some n :=
  scanHex_zeros (scanHex_toDigits n) _

theorem hexText_column (width n : ℕ) : Column (hexText width n) :=
  (scanHex_column (scanHex_hexText width n)).1

/-- A number that fits into `k` digits is printed with no more than `k`. -/
theorem hexText_length {width n k : ℕ} (hwidth : width ≤ k) (hk : 0 < k) (hn : n < 16 ^ k) :
    (hexText width n).length ≤ k := by
  have := (Nat.length_toDigits_le_iff (by decide : 1 < 16) hk).mpr hn
  rw [hexText, List.length_append, List.length_replicate]
  omega

theorem decText_length {n k : ℕ} (hk : 0 < k) (hn : n < 10 ^ k) : (decText n).length ≤ k :=
  (Nat.length_toDigits_le_iff (by decide) hk).mpr hn

theorem decText_digit {n : ℕ} : ∀ c ∈ decText n, c.isDigit = true :=
  fun _ hc => Nat.isDigit_of_mem_toDigits (by decide) (by decide) hc

theorem decText_column (n : ℕ) : Column (decText n) := by
  refine ⟨Nat.toDigits_ne_nil, ?_⟩
  intro c hc
  have hdigit := decText_digit c hc
  have htab : c ≠ '\t' := by
    rintro rfl
    simp at hdigit
  have hblank : c ≠ ' ' := by
    rintro rfl
    simp at hdigit
  simp [isBlank, htab, hblank]

namespace MapsEntry

variable {bits : ℕ} (e : MapsEntry bits)

theorem device_column : Column e.device := by
  refine ⟨by simp [device], ?_⟩
  intro c hc
  rw [device, List.mem_append, List.mem_cons] at hc
  rcases hc with hc | rfl | hc
  · exact (hexText_column _ _).noBlank c hc
  · decide
  · exact (hexText_column _ _).noBlank c hc

theorem device_length : e.device.length ≤ 9 := by
  have hmajor : (hexText 2 e.major).length ≤ 3 :=
    hexText_length (by decide) (by decide) (by simpa using e.major_lt)
  have hminor : (hexText 2 e.minor).length ≤ 5 :=
    hexText_length (by decide) (by decide) (by simpa using e.minor_lt)
  rw [device, List.length_append, List.length_cons]
  omega

end MapsEntry

end NativeLib.ProcMaps
