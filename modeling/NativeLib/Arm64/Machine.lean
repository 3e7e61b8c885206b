import Mathlib.Logic.Function.Basic
import NativeLib.Arm64.Bytes

/-! A core that runs A64 code: the branches, the loads from an address next to the code and what
stands beside them here. What any other word does is a parameter. -/

namespace NativeLib.Arm64

/-- Register 31 of `x` is the stack pointer; where it is read as a plain register it is zero. -/
structure Cpu where
  x : BitVec 5 → BitVec 64
  v : BitVec 5 → BitVec 128
  nzcv : BitVec 4
  pc : BitVec 64
  mem : BitVec 64 → BitVec 8

/-- What a load does with the bytes it finds. -/
inductive Load
  | w | x | sw | prefetch | s | d | q
  deriving DecidableEq, Repr

inductive Instr
  | b (link : Bool) (offset : BitVec 64)
  | bCond (cond : BitVec 4) (offset : BitVec 64)
  | cb (wide nonzero : Bool) (t : BitVec 5) (offset : BitVec 64)
  | tb (nonzero : Bool) (bit : BitVec 6) (t : BitVec 5) (offset : BitVec 64)
  | adr (d : BitVec 5) (offset : BitVec 64)
  | adrp (d : BitVec 5) (offset : BitVec 64)
  | ldrLit (kind : Load) (t : BitVec 5) (offset : BitVec 64)
  | ldr (kind : Load) (t n : BitVec 5) (offset : BitVec 64)
  | stp (t t2 n : BitVec 5) (offset : BitVec 64)
  | br (link : Bool) (n : BitVec 5)
  | other (word : BitVec 32)
  deriving DecidableEq, Repr

/-! The words. -/

def imm26 (word : BitVec 32) : BitVec 64 := (word.extractLsb' 0 26 ++ 0#2).signExtend 64

def imm19 (word : BitVec 32) : BitVec 64 := (word.extractLsb' 5 19 ++ 0#2).signExtend 64

def imm14 (word : BitVec 32) : BitVec 64 := (word.extractLsb' 5 14 ++ 0#2).signExtend 64

/-- The immediate of `adr`, the upper part from bit 5 on, the lower from bit 29 on. -/
def imm21 (word : BitVec 32) : BitVec 21 := word.extractLsb' 5 19 ++ word.extractLsb' 29 2

/-- The register in the lowest bits. -/
def rt (word : BitVec 32) : BitVec 5 := word.extractLsb' 0 5

/-- The register above it. -/
def rn (word : BitVec 32) : BitVec 5 := word.extractLsb' 5 5

/-- The offset of a load from a base register, counted in what it loads. -/
def imm12 (scale : ℕ) (word : BitVec 32) : BitVec 64 :=
  (word.extractLsb' 10 12).setWidth 64 <<< scale

def decode (word : BitVec 32) : Instr :=
  if word &&& 0xFC000000 = 0x14000000 then .b false (imm26 word)
  else if word &&& 0xFC000000 = 0x94000000 then .b true (imm26 word)
  else if word &&& 0xFF000010 = 0x54000000 then .bCond (word.extractLsb' 0 4) (imm19 word)
  else if word &&& 0x7E000000 = 0x34000000 then
    .cb (word.getLsbD 31) (word.getLsbD 24) (rt word) (imm19 word)
  else if word &&& 0x7E000000 = 0x36000000 then
    .tb (word.getLsbD 24) (word.extractLsb' 31 1 ++ word.extractLsb' 19 5) (rt word) (imm14 word)
  else if word &&& 0x9F000000 = 0x10000000 then .adr (rt word) ((imm21 word).signExtend 64)
  else if word &&& 0x9F000000 = 0x90000000 then
    .adrp (rt word) ((imm21 word ++ 0#12).signExtend 64)
  else if word &&& 0xFF000000 = 0x18000000 then .ldrLit .w (rt word) (imm19 word)
  else if word &&& 0xFF000000 = 0x58000000 then .ldrLit .x (rt word) (imm19 word)
  else if word &&& 0xFF000000 = 0x98000000 then .ldrLit .sw (rt word) (imm19 word)
  else if word &&& 0xFF000000 = 0xD8000000 then .ldrLit .prefetch (rt word) (imm19 word)
  else if word &&& 0xFF000000 = 0x1C000000 then .ldrLit .s (rt word) (imm19 word)
  else if word &&& 0xFF000000 = 0x5C000000 then .ldrLit .d (rt word) (imm19 word)
  else if word &&& 0xFF000000 = 0x9C000000 then .ldrLit .q (rt word) (imm19 word)
  else if word &&& 0xFFC00000 = 0xB9400000 then .ldr .w (rt word) (rn word) (imm12 2 word)
  else if word &&& 0xFFC00000 = 0xF9400000 then .ldr .x (rt word) (rn word) (imm12 3 word)
  else if word &&& 0xFFC00000 = 0xB9800000 then .ldr .sw (rt word) (rn word) (imm12 2 word)
  else if word &&& 0xFFC00000 = 0xF9800000 then .ldr .prefetch (rt word) (rn word) (imm12 3 word)
  else if word &&& 0xFFC00000 = 0xBD400000 then .ldr .s (rt word) (rn word) (imm12 2 word)
  else if word &&& 0xFFC00000 = 0xFD400000 then .ldr .d (rt word) (rn word) (imm12 3 word)
  else if word &&& 0xFFC00000 = 0x3DC00000 then .ldr .q (rt word) (rn word) (imm12 4 word)
  else if word &&& 0xFFE00C00 = 0xF8400000 then
    .ldr .x (rt word) (rn word) ((word.extractLsb' 12 9).signExtend 64)
  else if word &&& 0xFFC00000 = 0xA9000000 then
    .stp (rt word) (word.extractLsb' 10 5) (rn word) ((word.extractLsb' 15 7 ++ 0#3).signExtend 64)
  else if word &&& 0xFFFFFC1F = 0xD61F0000 then .br false (rn word)
  else if word &&& 0xFFFFFC1F = 0xD65F0000 then .br false (rn word)
  else if word &&& 0xFFFFFC1F = 0xD63F0000 then .br true (rn word)
  else .other word

namespace Cpu

/-- A plain register. -/
def reg (s : Cpu) (r : BitVec 5) : BitVec 64 := if r = 31 then 0 else s.x r

/-- The number that is in a plain register from now on, unless it is the zero register. -/
def setReg (s : Cpu) (r : BitVec 5) (val : BitVec 64) : Cpu :=
  if r = 31 then s else { s with x := Function.update s.x r val }

def setVec (s : Cpu) (r : BitVec 5) (val : BitVec 128) : Cpu :=
  { s with v := Function.update s.v r val }

def jump (s : Cpu) (a : BitVec 64) : Cpu := { s with pc := a }

def next (s : Cpu) : Cpu := s.jump (s.pc + 4)

end Cpu

/-- The number of bytes a load looks at. -/
def Load.size : Load → ℕ
  | .w | .sw | .s => 4
  | .x | .d => 8
  | .q => 16
  | .prefetch => 0

/-- What a load brings from an address. A prefetch brings nothing. -/
def Load.run (kind : Load) (t : BitVec 5) (a : BitVec 64) (s : Cpu) : Cpu :=
  match kind with
  | .w => s.setReg t ((load 4 s.mem a).setWidth 64)
  | .x => s.setReg t (load 8 s.mem a)
  | .sw => s.setReg t ((load 4 s.mem a).signExtend 64)
  | .prefetch => s
  | .s => s.setVec t ((load 4 s.mem a).setWidth 128)
  | .d => s.setVec t ((load 8 s.mem a).setWidth 128)
  | .q => s.setVec t (load 16 s.mem a)

/-- The flags, from the highest: negative, zero, carry, overflow. -/
def holds (cond nzcv : BitVec 4) : Bool :=
  let n := nzcv.getLsbD 3
  let z := nzcv.getLsbD 2
  let c := nzcv.getLsbD 1
  let v := nzcv.getLsbD 0
  let result := match (cond.extractLsb' 1 3).toNat with
    | 0 => z
    | 1 => c
    | 2 => n
    | 3 => v
    | 4 => c && !z
    | 5 => n == v
    | 6 => n == v && !z
    | _ => true
  if cond.getLsbD 0 && cond != 0b1111 then !result else result

/-- Is the register zero, all of it or its lower half? -/
def isZero (wide : Bool) (val : BitVec 64) : Bool :=
  if wide then val == 0 else val.setWidth 32 == 0

variable (other : BitVec 32 → Cpu → Cpu)

def exec : Instr → Cpu → Cpu
  | .b link offset, s => (if link then s.setReg 30 (s.pc + 4) else s).jump (s.pc + offset)
  | .bCond cond offset, s => if holds cond s.nzcv then s.jump (s.pc + offset) else s.next
  | .cb wide nonzero t offset, s =>
    if isZero wide (s.reg t) != nonzero then s.jump (s.pc + offset) else s.next
  | .tb nonzero bit t offset, s =>
    if (s.reg t).getLsbD bit.toNat == nonzero then s.jump (s.pc + offset) else s.next
  | .adr d offset, s => (s.setReg d (s.pc + offset)).next
  | .adrp d offset, s => (s.setReg d ((s.pc &&& 0xFFFFFFFFFFFFF000) + offset)).next
  | .ldrLit kind t offset, s => (kind.run t (s.pc + offset) s).next
  | .ldr kind t n offset, s => (kind.run t (s.x n + offset) s).next
  | .stp t t2 n offset, s =>
    { s.next with
      mem := store 8 (store 8 s.mem (s.x n + offset) (s.reg t)) (s.x n + offset + 8) (s.reg t2) }
  | .br link n, s => (if link then s.setReg 30 (s.pc + 4) else s).jump (s.reg n)
  | .other word, s => other word s

/-- The word at the program counter. -/
def Cpu.word (s : Cpu) : BitVec 32 := load 4 s.mem s.pc

def step (s : Cpu) : Cpu := exec other (decode s.word) s

end NativeLib.Arm64
