import NativeLib.HideMaps.HideMapsPath
import NativeLib.ProcMaps.RecordList

/-! `hidemaps/hide_maps_path.cpp`: `clear_elf_header`, with `mProtectDef` and
`mProtectUserDefined` of `utils/appUtils.cpp`. What it asks for are the reads, the writes and the
calls of `mprotect`. -/

namespace NativeLib.HideMaps

open Interaction Memory ProcMaps
open Prog (call)

/-- `CLEAN_ELF_HEADER_TYPE`. -/
inductive CleanElfHeaderType where
  | cleanElf
  | cleanElfHreader
  deriving DecidableEq, Repr

/-- `sizeof(elf_hdr->e_ident)`, or the size of the ELF header. -/
def headerSize (abi : Abi) : CleanElfHeaderType → ℕ
  | .cleanElf => 16
  | .cleanElfHreader =>
    match abi with
    | .aarch64 => 64
    | .arm => 52

/-- `ELFMAG0` to `ELFMAG3`. -/
def ELFMAG : List UInt8 := [0x7f, 0x45, 0x4c, 0x46]

inductive HeaderCall where
  | load (a : ℕ)
  | mprotect (addr length prot : ℕ)
  | memset (addr n : ℕ)
  deriving DecidableEq, Repr

inductive HeaderAnswer where
  | byte (b : UInt8)
  | done (success : Bool)
  deriving DecidableEq, Repr

abbrev HeaderProg := Prog HeaderCall HeaderAnswer

def load (a : ℕ) : HeaderProg UInt8 := do
  match ← call (.load a) with
  | .byte b => pure b
  | .done _ => pure 0

/-- `mProtectUserDefined`. -/
def mProtectUserDefined (addr len prot : ℕ) : HeaderProg Bool := do
  let alignment := addr % pageSize
  match ← call (.mprotect (addr - alignment) (alignment + len) prot) with
  | .done success => pure success
  | .byte _ => pure false

/-- `mProtectDef`. -/
def mProtectDef (addr len : ℕ) : HeaderProg Bool :=
  mProtectUserDefined addr len (PROT_READ ||| PROT_WRITE ||| PROT_EXEC)

/-- `addr[0] == b0 && addr[1] == b1 && ..`. -/
def startsWith (addr : ℕ) : List UInt8 → HeaderProg Bool
  | [] => pure true
  | b :: bs => do
    if (← load addr) = b then startsWith (addr + 1) bs else pure false

/-- One round of the loop of `clear_elf_header`: what `success` is after it. -/
def clearMapping (abi : Abi) (names : Finset (List Char)) (type : CleanElfHeaderType)
    (maps_tmp : ProcmapsStruct) (success : Bool) : HeaderProg Bool := do
  if maps_tmp.pathname ∈ names then
    let addr := maps_tmp.addrStart
    let size := headerSize abi type
    if ← startsWith addr ELFMAG then
      if ← mProtectDef addr size then
        let _ ← call (.memset addr size)
        mProtectUserDefined addr size (getProt maps_tmp)
      else pure false
    else pure success
  else pure success

/-- The loop of `clear_elf_header`, at most `fuel` times round. -/
def clearLoop (abi : Abi) (names : Finset (List Char)) (type : CleanElfHeaderType)
    (heap : NodeHeap) : ℕ → ProcmapsIterator → Bool → HeaderProg (Option Bool)
  | 0, _, _ => pure none
  | fuel + 1, it, success =>
    match pmparserNext heap it with
    | none => pure none
    | some (p, it) =>
      if p = nullptr then pure (some success)
      else
        match heap p with
        | none => pure none
        | some node => do
          let success ← clearMapping abi names type node.record success
          clearLoop abi names type heap fuel it success

/-- `clear_elf_header`. `maps` is what `pmparser_parse` returned. -/
def clearElfHeader (abi : Abi) (fuel : ℕ) (maps : Option (NodeHeap × ProcmapsIterator))
    (names : Finset (List Char)) (type : CleanElfHeaderType) : HeaderProg (Option Bool) :=
  match maps with
  | none => pure (some false)
  | some (heap, it) => clearLoop abi names type heap fuel it false

/-- The kernel changes the permissions of whole pages. -/
def wholePages (length : ℕ) : ℕ := (length + pageSize - 1) / pageSize * pageSize

/-- The process may do this. -/
def Allowed (M : Mem) : HeaderCall → Prop
  | .load a => ∃ c, M a = some c ∧ c.perms.r = true
  | .mprotect addr length _ => M.All (fun _ => True) addr (wholePages length)
  | .memset addr n => M.All (·.perms.w = true) addr n

/-- What comes of a command that is carried out. -/
def carryOut (M : Mem) : HeaderCall → HeaderAnswer × Mem
  | .load a => (.byte ((M a).elim 0 Cell.byte), M)
  | .mprotect addr length prot =>
    (.done true, M.protect addr (wholePages length) (.ofProt prot))
  | .memset addr n => (.done true, M.fill addr n 0)

/-- A command that is allowed is carried out, or a call of `mprotect` fails and changes nothing. -/
inductive HeaderStep (M : Mem) : HeaderCall → HeaderAnswer → Mem → Prop
  | carried {c} (h : Allowed M c) : HeaderStep M c (carryOut M c).1 (carryOut M c).2
  | refused (addr length prot) : HeaderStep M (.mprotect addr length prot) (.done false) M

/-- The commands that read or write memory. -/
def isAccess : HeaderCall → Prop
  | .load _ => True
  | .mprotect _ _ _ => False
  | .memset _ _ => True

/-- The mapping starts with the ELF magic. -/
def HasMagic {limit : ℕ} (m : Mapping limit) : Prop := m.bytes.take 4 = ELFMAG

instance {limit : ℕ} (m : Mapping limit) : Decidable (HasMagic m) :=
  inferInstanceAs (Decidable (_ = _))

/-- The first `size` bytes of the mappings are cleared. -/
def zeroHeaders {limit : ℕ} (size : ℕ) (mappings : List (Mapping limit)) (M : Mem) : Mem :=
  mappings.foldl (fun M m => M.fill m.start size 0) M

end NativeLib.HideMaps
