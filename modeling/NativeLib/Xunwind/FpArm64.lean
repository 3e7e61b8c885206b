import NativeLib.Arm64.Bytes

/-! Unwinding along the frame pointers of arm64: `xu_fp_arm64.cpp`. -/

namespace NativeLib.Xunwind

open Arm64 (load)

/-- `xu_fp_frame_record_t`. -/
structure FrameRecord where
  fp : BitVec 64
  lr : BitVec 64
  deriving DecidableEq, Repr

/-- From the lowest address of a stack to the one behind it. -/
structure StackRange where
  low : BitVec 64
  high : BitVec 64
  deriving DecidableEq, Repr

/-- What is known of the stack of a thread. That of the main thread is looked up once, in
`xu_fp_init`; a guard whose size is not told is taken to be a page. -/
inductive ThreadStack
  | main (range : StackRange)
  | attr (low size : BitVec 64) (guard : Option (BitVec 64))
  | unknown
  deriving DecidableEq, Repr

/-- `xu_fp_get_thread_stack`. -/
def getThreadStack : ThreadStack → StackRange
  | .main range => range
  | .attr low size guard => ⟨low + guard.getD 0x1000, low + size⟩
  | .unknown => ⟨0, 0⟩

/-- A thread that unwinds itself. `signalStack` is what `sigaltstack` says, if the thread is on a
signal stack: where it begins, and its size. -/
structure Thread where
  mem : BitVec 64 → BitVec 8
  sigreturnAddr : BitVec 64
  frameAddress : BitVec 64
  signalStack : Option (BitVec 64 × BitVec 64)
  threadStack : ThreadStack

/-- `addr & 0x7FFFFFFFFFULL`. -/
def clearPac (addr : BitVec 64) : BitVec 64 := addr &&& 0x7FFFFFFFFF

/-- `xu_fp_append_frame`. -/
def appendFrame (cap : ℕ) (frames : List (BitVec 64)) (addr : BitVec 64) :
    Bool × List (BitVec 64) :=
  if cap ≤ frames.length then (false, frames)
  else
    let frames := frames ++ [clearPac addr]
    (frames.length < cap, frames)

/-- Where the walk is, and on which stack. -/
structure Walk where
  fp : BitVec 64
  onSignalStack : Bool
  stack : StackRange
  deriving DecidableEq, Repr

/-- The last check of a turn. -/
def Walk.checked (w : Walk) : Option Walk :=
  if w.fp < w.stack.low ∨ w.stack.high ≤ w.fp then none else some w

namespace Thread

variable (t : Thread)

def record (fp : BitVec 64) : FrameRecord := ⟨load 8 t.mem fp, load 8 t.mem (fp + 8)⟩

def signalRange : StackRange :=
  match t.signalStack with
  | some (low, size) => ⟨low, low + size⟩
  | none => ⟨0, 0⟩

def threadRange : StackRange := getThreadStack t.threadStack

/-- The instruction that a return address stands behind. -/
def frame (onSignalStack : Bool) (lr : BitVec 64) : BitVec 64 :=
  if onSignalStack ∧ t.sigreturnAddr = lr then lr
  else if lr < 4 then 0
  else lr - 4

/-- The second part of a turn: on to the previous frame, if it is where it can be. -/
def prev (w : Walk) : Option Walk :=
  let prevFp := (t.record w.fp).fp
  if prevFp &&& 0xF ≠ 0 then none
  else if w.onSignalStack ∧ (prevFp < t.signalRange.low ∨ t.signalRange.high ≤ prevFp) then
    Walk.checked ⟨prevFp, false, t.threadRange⟩
  else if prevFp < w.fp + 16 then none
  else Walk.checked { w with fp := prevFp }

/-- The loop of `xu_fp_unwind`, with the records that it reads. -/
def walk (cap : ℕ) : ℕ → Walk → List (BitVec 64) → List (BitVec 64) →
    Option (List (BitVec 64) × List (BitVec 64))
  | 0, _, _, _ => none
  | fuel + 1, w, frames, reads =>
    let (more, frames) := appendFrame cap frames (t.frame w.onSignalStack (t.record w.fp).lr)
    let reads := reads ++ [w.fp]
    if more = false then some (frames, reads)
    else match t.prev w with
      | none => some (frames, reads)
      | some w => walk cap fuel w frames reads

/-- Where the loop begins. -/
def start (fp : BitVec 64) : Walk :=
  if t.signalStack.isSome then ⟨fp, true, t.signalRange⟩ else ⟨fp, false, t.threadRange⟩

/-- `xu_fp_unwind`, from the frame of the caller or from the `pc` and the `fp` of a signal. -/
def unwind (fuel cap : ℕ) (context : Option (BitVec 64 × BitVec 64)) :
    Option (List (BitVec 64) × List (BitVec 64)) :=
  if cap = 0 then some ([], [])
  else match context with
    | none => t.walk cap fuel (t.start t.frameAddress) [] []
    | some (pc, fp) =>
      let (more, frames) := appendFrame cap [] pc
      if more = false then some (frames, []) else t.walk cap fuel (t.start fp) frames []

end Thread

end NativeLib.Xunwind
