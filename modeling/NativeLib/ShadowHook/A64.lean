import Mathlib.Data.Nat.Notation

/-! How ShadowHook moves an instruction of arm64: `sh_a64.cpp`, and the bit macros of `sh_util.h`
it is written with. -/

namespace NativeLib.ShadowHook

def getBits32 (n : BitVec 32) (high low : ℕ) : BitVec 32 := n <<< (31 - high) >>> (31 - high + low)

def getBit64 (n : BitVec 64) (idx : ℕ) : BitVec 64 := n <<< (63 - idx) >>> 63

def signExtend64 (n : BitVec 64) (len : ℕ) : BitVec 64 :=
  if 0 < getBit64 n (len - 1) then n ||| 0xFFFFFFFFFFFFFFFF#64 <<< len else n

inductive A64Type
  | ignored | b | bCond | bl | adr | adrp | ldrLit32 | ldrLit64 | ldrswLit | prfmLit
  | ldrSimdLit32 | ldrSimdLit64 | ldrSimdLit128 | cbz | cbnz | tbz | tbnz
  deriving DecidableEq, Repr

def a64GetType (inst : BitVec 32) : A64Type :=
  if inst &&& 0xFC000000 = 0x14000000 then .b
  else if inst &&& 0xFF000010 = 0x54000000 then .bCond
  else if inst &&& 0xFC000000 = 0x94000000 then .bl
  else if inst &&& 0x9F000000 = 0x10000000 then .adr
  else if inst &&& 0x9F000000 = 0x90000000 then .adrp
  else if inst &&& 0xFF000000 = 0x18000000 then .ldrLit32
  else if inst &&& 0xFF000000 = 0x58000000 then .ldrLit64
  else if inst &&& 0xFF000000 = 0x98000000 then .ldrswLit
  else if inst &&& 0xFF000000 = 0xD8000000 then .prfmLit
  else if inst &&& 0xFF000000 = 0x1C000000 then .ldrSimdLit32
  else if inst &&& 0xFF000000 = 0x5C000000 then .ldrSimdLit64
  else if inst &&& 0xFF000000 = 0x9C000000 then .ldrSimdLit128
  else if inst &&& 0x7F000000 = 0x34000000 then .cbz
  else if inst &&& 0x7F000000 = 0x35000000 then .cbnz
  else if inst &&& 0x7F000000 = 0x36000000 then .tbz
  else if inst &&& 0x7F000000 = 0x37000000 then .tbnz
  else .ignored

/-- The table of `sh_a64_get_rewrite_inst_len`. -/
def A64Type.rewriteInstLen : A64Type → ℕ
  | .ignored => 4
  | .b => 20
  | .bCond => 28
  | .bl => 20
  | .adr | .adrp => 16
  | .ldrLit32 | .ldrLit64 | .ldrswLit => 20
  | .prfmLit | .ldrSimdLit32 | .ldrSimdLit64 | .ldrSimdLit128 => 28
  | .cbz | .cbnz | .tbz | .tbnz => 24

def a64GetRewriteInstLen (inst : BitVec 32) : ℕ := (a64GetType inst).rewriteInstLen

/-- `sh_a64_rewrite_info_t`. How far the buffer is filled is kept by the caller. -/
structure RewriteInfo where
  startAddr : BitVec 64
  endAddr : BitVec 64
  buf : BitVec 64
  instLens : List ℕ
  deriving DecidableEq, Repr

namespace RewriteInfo

def isAddrNeedFix (addr : BitVec 64) (rinfo : RewriteInfo) : Bool :=
  rinfo.startAddr ≤ addr && addr < rinfo.endAddr

/-- The loop of `sh_a64_fix_addr`, from an instruction on. -/
def fixOffset (addr : BitVec 64) : BitVec 64 → ℕ → List ℕ → ℕ
  | _, offset, [] => offset
  | cursorAddr, offset, instLen :: instLens =>
    if cursorAddr ≥ addr then offset
    else fixOffset addr (cursorAddr + 4) (offset + instLen) instLens

def fixAddr (addr : BitVec 64) (rinfo : RewriteInfo) : BitVec 64 :=
  if rinfo.startAddr ≤ addr ∧ addr < rinfo.endAddr then
    rinfo.buf + BitVec.ofNat 64 (fixOffset addr rinfo.startAddr 0 rinfo.instLens)
  else addr

end RewriteInfo

/-- The words that were written, and the length that is returned. -/
abbrev Rewritten := List (BitVec 32) × ℕ

/-- `addr & 0xFFFFFFFF`. -/
def lowWord (addr : BitVec 64) : BitVec 32 := (addr &&& 0xFFFFFFFF).setWidth 32

/-- `addr >> 32u`. -/
def highWord (addr : BitVec 64) : BitVec 32 := (addr >>> 32).setWidth 32

def a64RewriteB (inst : BitVec 32) (pc : BitVec 64) (type : A64Type) (rinfo : RewriteInfo) :
    Rewritten :=
  let imm64 :=
    if type = .bCond then
      let imm19 := (getBits32 inst 23 5).setWidth 64
      signExtend64 (imm19 <<< 2) 21
    else
      let imm26 := (getBits32 inst 25 0).setWidth 64
      signExtend64 (imm26 <<< 2) 28
  let addr := rinfo.fixAddr (pc + imm64)
  let cond : List (BitVec 32) :=
    if type = .bCond then [inst &&& 0xFF00001F ||| 0x40, 0x14000006] else []
  let last : BitVec 32 := if type = .bl then 0xD63F0220 else 0xD61F0220
  let buf := cond ++ [0x58000051, 0x14000003, lowWord addr, highWord addr, last]
  (buf, buf.length * 4)

def a64RewriteAdr (inst : BitVec 32) (pc : BitVec 64) (type : A64Type) (rinfo : RewriteInfo) :
    Rewritten :=
  let xd := getBits32 inst 4 0
  let immlo := (getBits32 inst 30 29).setWidth 64
  let immhi := (getBits32 inst 23 5).setWidth 64
  let addr :=
    if type = .adr then pc + signExtend64 (immhi <<< 2 ||| immlo) 21
    else (pc &&& 0xFFFFFFFFFFFFF000) + signExtend64 (immhi <<< 14 ||| immlo <<< 12) 33
  if rinfo.isAddrNeedFix addr then ([], 0)
  else ([0x58000040 ||| xd, 0x14000003, lowWord addr, highWord addr], 16)

def a64RewriteLdr (inst : BitVec 32) (pc : BitVec 64) (type : A64Type) (rinfo : RewriteInfo) :
    Rewritten :=
  let rt := getBits32 inst 4 0
  let imm19 := (getBits32 inst 23 5).setWidth 64
  let offset := signExtend64 (imm19 <<< 2) 21
  let addr := pc + offset
  if rinfo.isAddrNeedFix addr ∧ type ≠ .prfmLit then ([], 0)
  else
    let addr := if rinfo.isAddrNeedFix addr then rinfo.fixAddr addr else addr
    if type = .ldrLit32 ∨ type = .ldrLit64 ∨ type = .ldrswLit then
      let ldr : BitVec 32 :=
        if type = .ldrLit32 then 0xB9400000 ||| rt ||| rt <<< 5
        else if type = .ldrLit64 then 0xF9400000 ||| rt ||| rt <<< 5
        else 0xB9800000 ||| rt ||| rt <<< 5
      ([0x58000060 ||| rt, ldr, 0x14000003, lowWord addr, highWord addr], 20)
    else
      let ldr : BitVec 32 :=
        if type = .prfmLit then 0xF9800220 ||| rt
        else if type = .ldrSimdLit32 then 0xBD400220 ||| rt
        else if type = .ldrSimdLit64 then 0xFD400220 ||| rt
        else 0x3DC00220 ||| rt
      ([0xA93F47F0, 0x58000091, ldr, 0xF85F83F1, 0x14000003, lowWord addr, highWord addr], 28)

def a64RewriteCb (inst : BitVec 32) (pc : BitVec 64) (rinfo : RewriteInfo) : Rewritten :=
  let imm19 := (getBits32 inst 23 5).setWidth 64
  let offset := signExtend64 (imm19 <<< 2) 21
  let addr := rinfo.fixAddr (pc + offset)
  ([inst &&& 0xFF00001F ||| 0x40, 0x14000005, 0x58000051, 0xD61F0220, lowWord addr,
    highWord addr], 24)

def a64RewriteTb (inst : BitVec 32) (pc : BitVec 64) (rinfo : RewriteInfo) : Rewritten :=
  let imm14 := (getBits32 inst 18 5).setWidth 64
  let offset := signExtend64 (imm14 <<< 2) 16
  let addr := rinfo.fixAddr (pc + offset)
  ([inst &&& 0xFFF8001F ||| 0x40, 0x14000005, 0x58000051, 0xD61F0220, lowWord addr,
    highWord addr], 24)

def a64Rewrite (inst : BitVec 32) (pc : BitVec 64) (rinfo : RewriteInfo) : Rewritten :=
  match a64GetType inst with
  | .b => a64RewriteB inst pc .b rinfo
  | .bCond => a64RewriteB inst pc .bCond rinfo
  | .bl => a64RewriteB inst pc .bl rinfo
  | .adr => a64RewriteAdr inst pc .adr rinfo
  | .adrp => a64RewriteAdr inst pc .adrp rinfo
  | .cbz | .cbnz => a64RewriteCb inst pc rinfo
  | .tbz | .tbnz => a64RewriteTb inst pc rinfo
  | .ignored => ([inst], 4)
  | type => a64RewriteLdr inst pc type rinfo

def a64AbsoluteJumpWithBr (addr : BitVec 64) : Rewritten :=
  ([0x58000051, 0xD61F0220, lowWord addr, highWord addr], 16)

/-- `ret` and not `br`, for the sake of BTI. -/
def a64AbsoluteJumpWithRet (addr : BitVec 64) : Rewritten :=
  ([0x58000051, 0xD65F0220, lowWord addr, highWord addr], 16)

def a64RelativeJump (addr pc : BitVec 64) : Rewritten :=
  ([0x14000000#32 ||| (((addr - pc) &&& 0x0FFFFFFF) >>> 2).setWidth 32], 4)

end NativeLib.ShadowHook
