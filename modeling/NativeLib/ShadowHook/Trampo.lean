import Mathlib.Algebra.Group.Nat.Defs
import Mathlib.Data.Int.Notation
import NativeLib.Collections.Bitmap

/-! The allocator of small blocks of code: `sh_trampo.cpp`. What `mmap`, `calloc` and the clock say
is told by answers. -/

namespace NativeLib.ShadowHook

open NativeLib.Collections (flag setFlag clearFlag)

def SH_TRAMPO_PAGE_SZ : ℕ := 4096
def SH_TRAMPO_ALIGN : ℕ := 4
def UINTPTR_MAX : ℕ := 2 ^ 64 - 1

/-- `SH_UTIL_ALIGN_END`. -/
def alignEnd (x align : ℕ) : ℕ := (x + align - 1) / align * align

/-- `sh_trampo_page_t`. Without a delay there are no timestamps. -/
structure TrampoPage where
  ptr : ℕ
  flags : List (BitVec 32)
  timestamps : List ℤ
  deriving DecidableEq, Repr

/-- `sh_trampo_mgr_t`. -/
structure TrampoMgr where
  pages : List TrampoPage
  trampoSize : ℕ
  delaySec : ℤ
  deriving DecidableEq, Repr

/-- `sh_trampo_init_mgr`. -/
def TrampoMgr.init (trampoSize : ℕ) (delaySec : ℤ) : TrampoMgr :=
  ⟨[], alignEnd trampoSize SH_TRAMPO_ALIGN, delaySec⟩

/-- What is asked for, and when. -/
structure TrampoCall where
  now : ℤ
  hint : ℕ
  rangeLow : ℕ
  rangeHigh : ℕ
  deriving DecidableEq, Repr

structure TrampoAnswers where
  mmap : Option ℕ
  page : Bool
  flags : Bool
  timestamps : Bool
  deriving DecidableEq, Repr

inductive TrampoResult
  | ok (mem : ℕ)
  | failed
  | aborted
  deriving DecidableEq, Repr

namespace TrampoCall

/-- The first two lines of `sh_trampo_alloc`: the range does not run over the ends. -/
def clamp (call : TrampoCall) : TrampoCall :=
  { call with
    rangeLow := if call.rangeLow > call.hint then call.hint else call.rangeLow
    rangeHigh :=
      if call.rangeHigh > UINTPTR_MAX - call.hint then UINTPTR_MAX - call.hint
      else call.rangeHigh }

/-- `start` to `stop` has nothing of the range. -/
def misses (call : TrampoCall) (start stop : ℕ) : Bool :=
  call.hint > 0 ∧ (stop < call.hint - call.rangeLow ∨ call.hint + call.rangeHigh < start)

end TrampoCall

namespace TrampoMgr

variable (mgr : TrampoMgr)

def count : ℕ := SH_TRAMPO_PAGE_SZ / mgr.trampoSize

/-- May the block `i` of a page that is in use already be handed out? -/
def usable (call : TrampoCall) (page : TrampoPage) (i : ℕ) : Bool :=
  !flag page.flags i &&
    !(mgr.delaySec > 0 && (call.now ≤ page.timestamps.getD i 0 ||
      call.now - page.timestamps.getD i 0 ≤ mgr.delaySec)) &&
    !call.misses (page.ptr + mgr.trampoSize * i) (page.ptr + mgr.trampoSize * i)

/-- The search through the pages, and what it makes of them. -/
def findUnused (call : TrampoCall) : List TrampoPage → Option (ℕ × List TrampoPage)
  | [] => none
  | page :: pages =>
    let further := (findUnused call pages).map (Prod.map id (page :: ·))
    if call.misses page.ptr (page.ptr + SH_TRAMPO_PAGE_SZ - mgr.trampoSize) then further
    else match (List.range mgr.count).find? (mgr.usable call page) with
      | some i =>
        some (page.ptr + mgr.trampoSize * i, { page with flags := setFlag page.flags i } :: pages)
      | none => further

/-- A page with nothing in it. -/
def newPage (ptr : ℕ) : TrampoPage where
  ptr := ptr
  flags := List.replicate (alignEnd mgr.count 32 / 32) 0
  timestamps := if mgr.delaySec > 0 then List.replicate mgr.count 0 else []

/-- The second part of `sh_trampo_alloc`. -/
def allocPage (call : TrampoCall) (ans : TrampoAnswers) : TrampoResult × TrampoMgr × (ℕ × ℕ) :=
  match ans.mmap with
  | none => (.failed, mgr, (0, 0))
  | some ptr =>
    if call.hint > 0 ∧
        (call.hint - call.rangeLow ≥ ptr + SH_TRAMPO_PAGE_SZ - mgr.trampoSize ∨
          call.hint + call.rangeHigh < ptr) then
      (.failed, mgr, (0, 0))
    else if ans.page = false then (.failed, mgr, (0, 0))
    else if ans.flags = false ∨ mgr.delaySec > 0 ∧ ans.timestamps = false then
      (.failed, mgr, (ptr, SH_TRAMPO_PAGE_SZ))
    else
      let page := mgr.newPage ptr
      let found := (List.range mgr.count).find? fun i =>
        !call.misses (ptr + mgr.trampoSize * i) (ptr + mgr.trampoSize * i)
      match found with
      | none => (.aborted, { mgr with pages := page :: mgr.pages }, (ptr, SH_TRAMPO_PAGE_SZ))
      | some i =>
        let page := { page with flags := setFlag page.flags i }
        let mgr' := { mgr with pages := page :: mgr.pages }
        if ptr + mgr.trampoSize * i = 0 then (.aborted, mgr', (ptr, SH_TRAMPO_PAGE_SZ))
        else (.ok (ptr + mgr.trampoSize * i), mgr', (ptr, SH_TRAMPO_PAGE_SZ))

/-- `sh_trampo_alloc`, with the bytes that it clears: from where on, and how many. -/
def alloc (call : TrampoCall) (ans : TrampoAnswers) : TrampoResult × TrampoMgr × (ℕ × ℕ) :=
  match mgr.findUnused call.clamp mgr.pages with
  | some (cur, pages) => (.ok cur, { mgr with pages := pages }, (cur, mgr.trampoSize))
  | none => mgr.allocPage call.clamp ans

/-- The search of `sh_trampo_free`. -/
def freeIn (now : ℤ) (mem : ℕ) : List TrampoPage → List TrampoPage
  | [] => []
  | page :: pages =>
    if page.ptr ≤ mem ∧ mem < page.ptr + SH_TRAMPO_PAGE_SZ then
      let i := (mem - page.ptr) / mgr.trampoSize
      { page with
        timestamps := if mgr.delaySec > 0 then page.timestamps.set i now else page.timestamps
        flags := clearFlag page.flags i } :: pages
    else page :: freeIn now mem pages

/-- `sh_trampo_free`. -/
def free (now : ℤ) (mem : ℕ) : TrampoMgr := { mgr with pages := mgr.freeIn now mem mgr.pages }

end TrampoMgr

end NativeLib.ShadowHook
