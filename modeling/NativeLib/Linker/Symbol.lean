import Mathlib.Algebra.Group.Nat.Defs
import Mathlib.Data.Int.Notation
import NativeLib.Interaction.Prog

/-! `linker/Symbol.cpp`: the search for a symbol in an ELF file. What it asks the C library for
are the file operations, the allocations, and the stores through pointers. Error texts are left
out. -/

namespace NativeLib.Linker

open Interaction
open Prog (call)

/-- Whether the types of `Symbol.h` are those of `Elf32` or of `Elf64`. -/
inductive ElfClass where
  | elf32
  | elf64
  deriving DecidableEq, Repr

namespace ElfClass

/-- The width of a `long`, of `size_t` and of a pointer. -/
def bits : ElfClass → ℕ
  | elf32 => 32
  | elf64 => 64

/-- `SIZE_MAX`. -/
def sizeMax (c : ElfClass) : ℕ := 2 ^ c.bits - 1

def ehdrSize : ElfClass → ℕ
  | elf32 => 52
  | elf64 => 64

def shdrSize : ElfClass → ℕ
  | elf32 => 40
  | elf64 => 64

def symSize : ElfClass → ℕ
  | elf32 => 16
  | elf64 => 24

end ElfClass

/-- The fields of `elf_ehdr` that are read. -/
structure ElfEhdr where
  eShoff : ℕ
  eShnum : ℕ
  deriving DecidableEq, Repr

/-- The fields of `elf_shdr` that are read. -/
structure ElfShdr where
  shType : ℕ
  shOffset : ℕ
  shSize : ℕ
  shLink : ℕ
  deriving DecidableEq, Repr

/-- The fields of `elf_sym` that are read. -/
structure ElfSym where
  stName : ℕ
  stValue : ℕ
  deriving DecidableEq, Repr

def SHT_SYMTAB : ℕ := 2

/-- A little-endian number. -/
def number : List UInt8 → ℕ
  | [] => 0
  | b :: bs => b.toNat + 256 * number bs

/-- The member at `offset` of a structure. -/
def member (data : List UInt8) (offset size : ℕ) : ℕ := number ((data.drop offset).take size)

namespace ElfClass

def ehdr (data : List UInt8) : ElfClass → ElfEhdr
  | elf32 => ⟨member data 32 4, member data 48 2⟩
  | elf64 => ⟨member data 40 8, member data 60 2⟩

def shdr (data : List UInt8) : ElfClass → ElfShdr
  | elf32 => ⟨member data 4 4, member data 16 4, member data 20 4, member data 24 4⟩
  | elf64 => ⟨member data 4 4, member data 24 8, member data 32 8, member data 40 4⟩

def sym (data : List UInt8) : ElfClass → ElfSym
  | elf32 => ⟨member data 0 4, member data 4 4⟩
  | elf64 => ⟨member data 0 4, member data 8 8⟩

/-- The elements of an array of `n` section headers. -/
def shdrs (c : ElfClass) (data : List UInt8) (n : ℕ) : List ElfShdr :=
  (List.range n).map fun i => c.shdr (data.drop (c.shdrSize * i))

end ElfClass

inductive SymbolCall where
  | fopen
  | fclose
  | ftell
  | fseek (off : ℕ)
  | fread (n : ℕ)
  | malloc (n : ℕ)
  | free
  | store (index : ℕ)
  | setSymval (v : ℕ)
  deriving DecidableEq, Repr

inductive SymbolAnswer where
  | flag (success : Bool)
  | pos (off : ℕ)
  | bytes (data : List UInt8)
  deriving DecidableEq, Repr

namespace SymbolAnswer

def toFlag : SymbolAnswer → Bool
  | flag success => success
  | _ => false

def toPos : SymbolAnswer → ℕ
  | pos off => off
  | _ => 0

def toBytes : SymbolAnswer → List UInt8
  | bytes data => data
  | _ => []

end SymbolAnswer

abbrev SymbolProg := Prog SymbolCall SymbolAnswer

/-- Whether the call succeeds. -/
def succeeds (c : SymbolCall) : SymbolProg Bool := do
  let r ← call c
  pure r.toFlag

def ftell : SymbolProg ℕ := do
  let r ← call .ftell
  pure r.toPos

/-- `fread`, with what it stores. -/
def fread (n : ℕ) : SymbolProg (List UInt8) := do
  let r ← call (.fread n)
  pure r.toBytes

/-- A call whose result is dropped. -/
def perform (c : SymbolCall) : SymbolProg Unit := do
  let _ ← call c
  pure ()

/-- The string at the start of some memory. -/
def cString (data : List UInt8) : List UInt8 := data.takeWhile (· ≠ 0)

/-- `read_strtab`: what it returns, and what is in the block that `datap` points to. The size is
narrowed to an `elf_word` and one is added to it as such. -/
def readStrtab (c : ElfClass) (shdr : ElfShdr) : SymbolProg (ℤ × List UInt8) := do
  let shSize := shdr.shSize % 2 ^ 32
  if shSize > c.sizeMax - 1 then pure (-1, [])
  else
    let curOff ← ftell
    if ← succeeds (.fseek shdr.shOffset) then
      if ← succeeds (.malloc ((shSize + 1) % 2 ^ 32)) then
        let data ← fread shSize
        if data.length ≠ shSize then
          perform .free
          pure (-1, [])
        else
          perform (.store shSize)
          if ← succeeds (.fseek curOff) then
            pure ((shSize : ℤ).bmod (2 ^ c.bits), data ++ [0])
          else
            perform .free
            pure (-1, [])
      else pure (-1, [])
    else pure (-1, [])

end NativeLib.Linker
