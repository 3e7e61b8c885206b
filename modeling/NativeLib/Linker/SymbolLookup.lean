import Mathlib.Tactic.Common
import NativeLib.Linker.Symbol

/-! What `resolve_symbol` finds in a file. Every function that moves the file position puts it
back, so that each of the three searches goes on where it was. -/

namespace NativeLib.Linker

open Interaction

variable {c : ElfClass}

/-- The bytes of a file, no more than a `long` can count. -/
structure FileImage (c : ElfClass) where
  bytes : List UInt8
  length_lt : bytes.length < 2 ^ (c.bits - 1)

/-- The position in the file, and what `*symval` is. -/
structure FileState where
  pos : ℕ
  symval : ℕ
  deriving DecidableEq, Repr

namespace FileImage

variable (image : FileImage c)

/-- The C library on this file. There is memory for every block. -/
def answer (s : FileState) : SymbolCall → SymbolAnswer × FileState
  | .fopen => (.flag true, { s with pos := 0 })
  | .ftell => (.pos s.pos, s)
  | .fseek off =>
    if off < 2 ^ (c.bits - 1) then (.flag true, { s with pos := off }) else (.flag false, s)
  | .fread n =>
    let data := (image.bytes.drop s.pos).take n
    (.bytes data, { s with pos := s.pos + data.length })
  | .setSymval v => (.flag true, { s with symval := v })
  | .malloc _ => (.flag true, s)
  | .store _ => (.flag true, s)
  | .free => (.flag true, s)
  | .fclose => (.flag true, s)

/-- What a program returns on this file, and the state it leaves. -/
def run {α : Type} (p : SymbolProg α) (s : FileState) : α × FileState :=
  (p.runWith image.answer s).2

variable {α β : Type} {s : FileState}

@[simp] theorem run_fclose : image.run (perform .fclose) s = ((), s) := rfl

/-- The section headers. A file whose header or whose table of sections cannot be read has
none. -/
def sections : List ElfShdr :=
  let header := image.bytes.take c.ehdrSize
  let ehdr := c.ehdr header
  let table := (image.bytes.drop ehdr.eShoff).take (c.shdrSize * ehdr.eShnum)
  if header.length = c.ehdrSize ∧ ehdr.eShoff < 2 ^ (c.bits - 1) ∧
      table.length = c.shdrSize * ehdr.eShnum then
    c.shdrs table ehdr.eShnum
  else []

/-- The section can be read in full. -/
def Readable (shdr : ElfShdr) : Prop :=
  shdr.shOffset < 2 ^ (c.bits - 1) ∧
    (shdr.shSize = 0 ∨ shdr.shOffset + shdr.shSize ≤ image.bytes.length)

/-- What is in a section. -/
def contents (shdr : ElfShdr) : List UInt8 :=
  (image.bytes.drop shdr.shOffset).take shdr.shSize

/-- `n` symbols from `off` on. -/
def symbolsAt (off n : ℕ) : List ElfSym :=
  (List.range n).map fun i =>
    c.sym ((image.bytes.drop (off + c.symSize * i)).take c.symSize)

/-- The entries of a symbol table. -/
def symbols (shdr : ElfShdr) : List ElfSym :=
  image.symbolsAt shdr.shOffset (shdr.shSize / c.symSize)

end FileImage

/-- The name of the symbol lies in the string table, and the string there, up to a NUL or the end
of the table, is this. -/
def ElfSym.Named (sym : ElfSym) (strtab symname : List UInt8) : Prop :=
  sym.stName < strtab.length ∧ cString (strtab.drop sym.stName) = symname

instance (sym : ElfSym) (strtab symname : List UInt8) : Decidable (sym.Named strtab symname) :=
  inferInstanceAs (Decidable (_ ∧ _))

namespace FileImage

variable (image : FileImage c)

variable {image} {shdr : ElfShdr} {s : FileState} {symname : List UInt8}

theorem two_pow_bits (c : ElfClass) : 2 ^ c.bits = 2 * 2 ^ (c.bits - 1) := by
  cases c <;> rfl

/-- The terminator that is put behind the table ends no string that did not end there. -/
theorem cString_terminated (data : List UInt8) : cString (data ++ [0]) = cString data := by
  induction data with
  | nil => rfl
  | cons b data ih =>
    unfold cString at ih ⊢
    rw [List.cons_append, List.takeWhile_cons, List.takeWhile_cons, ih]

/-- The test of the loop. -/
theorem named_iff (sym : ElfSym) (strtab symname : List UInt8) :
    sym.stName < strtab.length ∧ cString ((strtab ++ [0]).drop sym.stName) = symname ↔
      sym.Named strtab symname := by
  refine and_congr_right fun hlt => ?_
  rw [List.drop_append_of_le_length (Nat.le_of_lt hlt), cString_terminated]

/-- The size of the section is below the greatest `elf_word`, and if it is a symbol table with a
linked string table, both can be read. -/
structure Sound (image : FileImage c) (shdr : ElfShdr) : Prop where
  size : shdr.shSize < 2 ^ 32 - 1
  readable : shdr.shType = SHT_SYMTAB → ∀ strtab, image.sections[shdr.shLink]? = some strtab →
    image.Readable shdr ∧ image.Readable strtab

end FileImage

end NativeLib.Linker
