import NativeLib.Linker.Symbol

/-! `dlfc/elf_util.cpp` and `elf_util.h`: the tables of an ELF file that an `ElfImg` points into.
A read outside them has no result. -/

namespace NativeLib.Dlfc

open Linker (ElfClass)

/-- The fields of `ElfW(Sym)` that are read. -/
structure Sym where
  stName : ℕ
  stInfo : UInt8
  stValue : ℕ
  stSize : ℕ
deriving DecidableEq, Repr

/-- The C string at an offset: the bytes before the next `NUL`. -/
def cString (bytes : List UInt8) (offset : ℕ) : Option (List UInt8) :=
  if 0 ∈ bytes.drop offset then some ((bytes.drop offset).takeWhile (· ≠ 0)) else none

/-- `ElfImg::GnuHash`. -/
def gnuHash (name : List UInt8) : UInt32 :=
  name.foldl (fun h p => h + ((h <<< 5) + p.toUInt32)) 5381

/-- How many `ElfW(Word)`s an `uintptr_t` takes. -/
def ptrWords : ElfClass → ℕ
  | .elf32 => 1
  | .elf64 => 2

/-- The `uintptr_t` that stands at a word of the section, the low half first. -/
def uintptrAt (c : ElfClass) (dBuf : List UInt32) (i : ℕ) : Option (BitVec c.bits) :=
  match c, dBuf.drop i with
  | .elf32, w :: _ => some w.toBitVec
  | .elf64, lo :: hi :: _ => some (hi.toBitVec ++ lo.toBitVec)
  | _, _ => none

/-- The `uint32_t` that stands at a word of the section. -/
def wordAt (dBuf : List UInt32) (i : ℤ) : Option UInt32 :=
  if 0 ≤ i then dBuf[i.toNat]? else none

/-- What the constructor takes out of a GNU hash section. The pointers are offsets from the start
of the section, in words. -/
structure GnuHash where
  nbucket : UInt32
  symndx : UInt32
  bloomSize : UInt32
  shift2 : UInt32
  bloomFilter : ℕ
  bucket : ℕ
  chain : ℤ
deriving DecidableEq, Repr

/-- `case SHT_GNU_HASH` of the constructor. -/
def gnuHashSection (c : ElfClass) (dBuf : List UInt32) : Option GnuHash :=
  match dBuf with
  | nbucket :: symndx :: bloomSize :: shift2 :: _ =>
    let bucket := 4 + bloomSize.toNat * ptrWords c
    some ⟨nbucket, symndx, bloomSize, shift2, 4, bucket,
      (bucket + nbucket.toNat : ℤ) - symndx.toNat⟩
  | _ => none

/-- What `GnuLookup` reads. -/
structure Tables where
  dBuf : List UInt32
  dynsym : List Sym
  strings : List UInt8
deriving DecidableEq, Repr

/-- The loop of `GnuLookup` over a bucket. -/
def chainLoop (g : GnuHash) (t : Tables) (name : List UInt8) (hash : UInt32) :
    ℕ → UInt32 → Option ℕ
  | 0, _ => none
  | fuel + 1, symIndex => do
    let chain ← wordAt t.dBuf (g.chain + symIndex.toNat)
    let found ←
      if (chain ^^^ hash) >>> 1 = 0 then do
        let sym ← t.dynsym[symIndex.toNat]?
        let string ← cString t.strings sym.stName
        pure (if name = string then some sym.stValue else none)
      else pure none
    match found with
    | some value => pure value
    | none =>
      if chain &&& 1 = 0 then chainLoop g t name hash fuel (symIndex + 1) else pure 0

/-- `mask`: the two bits of a hash in its word of the filter. -/
def bloomMask (c : ElfClass) (shift2 hash : UInt32) : BitVec c.bits :=
  1#c.bits <<< (hash.toNat % c.bits) ||| 1#c.bits <<< ((hash >>> shift2).toNat % c.bits)

/-- `ElfImg::GnuLookup`. A shift by 32 or more has no value. -/
def gnuLookup (c : ElfClass) (g : GnuHash) (t : Tables) (fuel : ℕ) (name : List UInt8)
    (hash : UInt32) : Option ℕ := do
  if g.nbucket = 0 ∨ g.bloomSize = 0 then pure 0
  else
    let bloomWord ← uintptrAt c t.dBuf
      (g.bloomFilter + hash.toNat / c.bits % g.bloomSize.toNat * ptrWords c)
    if g.shift2 < 32 then
      let mask := bloomMask c g.shift2 hash
      if mask &&& bloomWord = mask then
        let symIndex ← wordAt t.dBuf (g.bucket + (hash % g.nbucket).toNat)
        if g.symndx ≤ symIndex then chainLoop g t name hash fuel symIndex else pure 0
      else pure 0
    else none

end NativeLib.Dlfc
