import NativeLib.ProcMaps.Scanf

/-! `utils/appUtils.cpp`: the name of the mapping that an address lies in. -/

namespace NativeLib.Utils

open HideMaps ProcMaps

variable {w : ℕ}

/-- The variables of `getSymbolforAddress`, the strings without their terminators. -/
structure SymbolVars (w : ℕ) where
  begin : BitVec w
  «end» : BitVec w
  perm : List Char
  foo : BitVec w
  dev : List Char
  inode : BitVec w
  mapname : List Char
  deriving DecidableEq, Repr

namespace SymbolVars

def setPerm (perm : List Char) (v : SymbolVars w) : Option (SymbolVars w) :=
  if perm.length < 50 then some { v with perm } else none

def setDev (dev : List Char) (v : SymbolVars w) : Option (SymbolVars w) :=
  if dev.length < 50 then some { v with dev } else none

def setMapname (mapname : List Char) (v : SymbolVars w) : Option (SymbolVars w) :=
  if mapname.length < PATH_MAX then some { v with mapname } else none

end SymbolVars

/-- `sscanf(line, "%lx-%lx %s %lx %s %ld %s", ..)`. -/
def sscanf (line : Line) (v : SymbolVars w) : Option (SymbolVars w) :=
  scanned do
    let s ← conversion (FindSyscall.scanHex w) (fun begin v => some { v with begin }) (line, v)
    let s ← literal '-' s
    let s ← conversion (FindSyscall.scanHex w) (fun «end» v => some { v with «end» }) s
    let s ← conversion scanWord SymbolVars.setPerm s
    let s ← conversion (FindSyscall.scanHex w) (fun foo v => some { v with foo }) s
    let s ← conversion scanWord SymbolVars.setDev s
    let s ← conversion (scanDec w) (fun inode v => some { v with inode }) s
    conversion scanWord SymbolVars.setMapname s

/-- The loop of `getSymbolforAddress` over the lines that `getline` reads. -/
def symbolIn (address : BitVec w) : List Line → SymbolVars w → Option (List Char)
  | [], _ => some []
  | line :: lines, v => do
    let v ← sscanf line v
    if address ≥ v.begin ∧ address ≤ v.end then some v.mapname
    else symbolIn address lines v

/-- `getSymbolforAddress`, for what the maps file holds and what stands in the variables that
have no initial value; no result where a buffer overflows. -/
def getSymbolforAddress (address : BitVec w) (maps : List Line) (begin «end» inode foo : BitVec w) :
    Option (List Char) :=
  if address = 0 then some []
  else symbolIn address maps ⟨begin, «end», [], foo, [], inode, []⟩

/-- The name goes into `mapname`. -/
def Fits (e : MapsEntry w) : Prop := (word e.path).length < PATH_MAX

instance (e : MapsEntry w) : Decidable (Fits e) := inferInstanceAs (Decidable (_ < _))

/-- `mapname` after a line of the maps file: a line without a name leaves it alone. -/
def nextName (name : List Char) (e : MapsEntry w) : List Char :=
  if word e.path = [] then name else word e.path

/-- What the variables hold after a line of the maps file. -/
def SymbolVars.after (e : MapsEntry w) (v : SymbolVars w) : SymbolVars w where
  begin := .ofNat w e.start
  «end» := .ofNat w e.stop
  perm := permText e.perms e.shared
  foo := .ofNat w e.offset
  dev := e.device
  inode := .ofNat w e.inode
  mapname := nextName v.mapname e

theorem scanHex_hexText {rest : Line} (hrest : Stops rest) (width n : ℕ) :
    FindSyscall.scanHex w (hexText width n ++ rest) = some (.ofNat w n, rest) :=
  scanHex_number (ProcMaps.scanHex_hexText width n) hrest

/-- The columns of a line are read one by one. -/
theorem sscanf_line (e : MapsEntry w) (pad : ℕ) (v : SymbolVars w) :
    sscanf (e.line pad) v = if Fits e then some (v.after e) else none := by
  have hblank : ∀ rest : Line, ∀ c ∈ (' ' :: rest).head?, FindSyscall.isSpace c = true := by
    intro rest c hc
    obtain rfl : ' ' = c := by simpa using hc
    decide
  have hperm : (permText e.perms e.shared).length < 50 := by simp [permText]
  have hdev : e.device.length < 50 := by
    have := e.device_length
    omega
  unfold sscanf MapsEntry.line
  rw [conversion_ok (scanHex_hexText (stops_dash _) _ _) rfl]
  simp only [bind, Except.bind, literal, if_true]
  rw [conversion_ok (scanHex_hexText (stops_blank _) _ _) rfl]
  simp only
  rw [conversion_ok (scanWord_text (by simp [permText]) (permText_noSpace _ _) (hblank _))
    (if_pos hperm)]
  simp only
  rw [conversion_ok ((scanHex_space (by decide) _).trans (scanHex_hexText (stops_blank _) _ _)) rfl]
  simp only
  rw [conversion_ok (scanWord_text e.device_column.nonempty (device_noSpace e) (hblank _))
    (if_pos hdev)]
  simp only
  rw [conversion_ok (scanDec_number _ (stops_blank _)) rfl]
  simp only [conversion, scanWord, word_path]
  cases hword : word e.path with
  | nil => simp [scanned, SymbolVars.after, nextName, Fits, hword, PATH_MAX]
  | cons c text =>
    simp only [SymbolVars.setMapname, Fits, hword]
    by_cases hlen : (c :: text).length < PATH_MAX
    · rw [if_pos hlen, if_pos hlen]
      simp [scanned, SymbolVars.after, nextName, hword]
    · rw [if_neg hlen, if_neg hlen]
      rfl

end NativeLib.Utils
