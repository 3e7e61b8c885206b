import Mathlib.Tactic.SplitIfs
import NativeLib.Xunwind.FpArm64

/-! That `xu_fp_unwind` ends and stays on the stacks, whatever they hold, and that it finds the
calls of a thread that keeps frame records. -/

namespace NativeLib.Xunwind

theorem and_fifteen_eq_zero {x : BitVec 64} : x &&& 0xF = 0 ↔ x.toNat % 16 = 0 := by
  rw [← BitVec.toNat_inj, BitVec.toNat_and]
  exact Nat.and_two_pow_sub_one_eq_mod x.toNat 4 ▸ Iff.rfl

/-- Where a stack holds a frame record. -/
structure StackRange.Holds (range : StackRange) (fp : BitVec 64) : Prop where
  aligned : fp &&& 0xF = 0
  low : range.low.toNat ≤ fp.toNat
  high : fp.toNat + 16 ≤ range.high.toNat

namespace Thread

variable {t : Thread} {w w' : Walk} {ws : List Walk} {fuel cap : ℕ}
  {frames reads : List (BitVec 64)} {context : Option (BitVec 64 × BitVec 64)}

/-- The stack that a walk is on. -/
def range (t : Thread) (onSignalStack : Bool) : StackRange :=
  if onSignalStack then t.signalRange else t.threadRange

/-- A stack ends where a frame record can begin. -/
def Aligned (t : Thread) : Prop := ∀ onSignalStack, (t.range onSignalStack).high &&& 0xF = 0

/-- A place the walk has come to. -/
structure Reached (t : Thread) (w : Walk) : Prop where
  stack : w.stack = t.range w.onSignalStack
  holds : w.stack.Holds w.fp

theorem checked_eq_some (haligned : t.Aligned) (hstack : w.stack = t.range w.onSignalStack)
    (hfp : w.fp &&& 0xF = 0) (h : w.checked = some w') : w' = w ∧ t.Reached w := by
  rw [Walk.checked] at h
  split_ifs at h with hout
  rw [not_or, BitVec.not_lt, BitVec.not_le, BitVec.le_def, BitVec.lt_def] at hout
  have hhigh := and_fifteen_eq_zero.mp (haligned w.onSignalStack)
  rw [← hstack] at hhigh
  have := and_fifteen_eq_zero.mp hfp
  exact ⟨(Option.some.inj h).symm, hstack, hfp, hout.1, by omega⟩

/-- A turn goes on upwards on the same stack, or from the signal stack to the other. -/
theorem prev_eq_some (haligned : t.Aligned) (hstack : w.stack = t.range w.onSignalStack)
    (h : t.prev w = some w') :
    t.Reached w' ∧ (w'.onSignalStack = w.onSignalStack ∧ w.fp + 16 ≤ w'.fp ∨
      w.onSignalStack = true ∧ w'.onSignalStack = false) := by
  rw [prev] at h
  split_ifs at h with hfp hleaves hdown
  · obtain ⟨rfl, hreached⟩ := checked_eq_some haligned rfl (not_not.mp hfp) h
    exact ⟨hreached, .inr ⟨hleaves.1, rfl⟩⟩
  · obtain ⟨rfl, hreached⟩ :=
      checked_eq_some (w := { w with fp := (t.record w.fp).fp }) haligned hstack (not_not.mp hfp) h
    exact ⟨hreached, .inl ⟨rfl, BitVec.not_lt.mp hdown⟩⟩

/-- How many records a stack has room for. -/
def room (t : Thread) (onSignalStack : Bool) : ℕ :=
  ((t.range onSignalStack).high.toNat - (t.range onSignalStack).low.toNat) / 16

/-- How many turns are left at most. -/
def rank (t : Thread) (w : Walk) : ℕ :=
  (w.stack.high.toNat - w.fp.toNat) / 16 + if w.onSignalStack then t.room false else 0

theorem rank_prev (haligned : t.Aligned) (hw : t.Reached w) (h : t.prev w = some w') :
    t.rank w' < t.rank w := by
  obtain ⟨hw', hcases⟩ := prev_eq_some haligned hw.stack h
  have hlow := hw'.holds.low
  have hhigh := hw'.holds.high
  have hfp := hw.holds.high
  rw [rank, rank]
  rcases hcases with ⟨hsame, hup⟩ | ⟨hon, hoff⟩
  · -- The address behind the record does not run over the end.
    have hsum : (w.fp + 16).toNat = w.fp.toNat + 16 := by
      have hmod := and_fifteen_eq_zero.mp (haligned w.onSignalStack)
      rw [← hw.stack] at hmod
      rw [BitVec.toNat_add]
      exact Nat.mod_eq_of_lt (by change w.fp.toNat + 16 < _; omega)
    have hstack : w'.stack = w.stack := by rw [hw.stack, hw'.stack, hsame]
    rw [BitVec.le_def, hsum] at hup
    rw [hstack] at hhigh ⊢
    rw [hsame]
    omega
  · have hstack : w'.stack = t.range false := by rw [hw'.stack, hoff]
    rw [hstack] at hlow hhigh ⊢
    simp only [hon, hoff, Bool.false_eq_true, if_false, if_true, room]
    omega

theorem Reached.rank_pos (hw : t.Reached w) : 0 < t.rank w := by
  have := hw.holds.high
  rw [rank]
  omega

theorem Reached.rank_le (hw : t.Reached w) : t.rank w ≤ t.room true + t.room false := by
  have := hw.holds.low
  have hstack := hw.stack
  rw [rank]
  cases hon : w.onSignalStack with
  | false =>
    rw [hon] at hstack
    simp only [hstack, Bool.false_eq_true, if_false, room] at this ⊢
    omega
  | true =>
    rw [hon] at hstack
    simp only [hstack, if_true, room] at this ⊢
    omega

/-- The places of a walk that nothing cuts short. -/
inductive Trail (t : Thread) : Walk → List Walk → Prop
  | stop {w : Walk} (h : t.prev w = none) : Trail t w [w]
  | next {w w' : Walk} {ws : List Walk} (h : t.prev w = some w') (hrest : Trail t w' ws) :
      Trail t w (w :: ws)

theorem Reached.exists_trail (haligned : t.Aligned) (hw : t.Reached w) :
    ∃ ws, t.Trail w ws ∧ ws.length ≤ t.rank w ∧ ∀ v ∈ ws, t.Reached v := by
  induction hn : t.rank w using Nat.strongRecOn generalizing w with
  | ind n ih =>
    cases hprev : t.prev w with
    | none =>
      exact ⟨[w], .stop hprev, hn ▸ hw.rank_pos, List.forall_mem_singleton.mpr hw⟩
    | some w' =>
      have hlt := rank_prev haligned hw hprev
      obtain ⟨ws, htrail, hlength, hreached⟩ :=
        ih (t.rank w') (hn ▸ hlt) (prev_eq_some haligned hw.stack hprev).1 rfl
      refine ⟨w :: ws, .next hprev htrail, ?_, List.forall_mem_cons.mpr ⟨hw, hreached⟩⟩
      rw [List.length_cons]
      omega

/-- How often the loop turns at most. Where it begins is not checked. -/
def turns (t : Thread) : ℕ := t.room true + t.room false + 1

theorem exists_trail (haligned : t.Aligned) (hstack : w.stack = t.range w.onSignalStack) :
    ∃ ws, t.Trail w (w :: ws) ∧ (w :: ws).length ≤ t.turns ∧ ∀ v ∈ ws, t.Reached v := by
  cases hprev : t.prev w with
  | none => exact ⟨[], .stop hprev, Nat.le_add_left .., List.forall_mem_nil _⟩
  | some w' =>
    have hw' := (prev_eq_some haligned hstack hprev).1
    obtain ⟨ws, htrail, hlength, hreached⟩ := hw'.exists_trail haligned
    exact ⟨ws, .next hprev htrail, Nat.succ_le_succ (Nat.le_trans hlength hw'.rank_le), hreached⟩

/-- What a place adds to the frames. -/
def shown (t : Thread) (w : Walk) : BitVec 64 :=
  clearPac (t.frame w.onSignalStack (t.record w.fp).lr)

theorem appendFrame_eq {addr : BitVec 64} (hcap : frames.length < cap) :
    appendFrame cap frames addr =
      (decide (frames.length + 1 < cap), frames ++ [clearPac addr]) := by
  rw [appendFrame, if_neg (Nat.not_le.mpr hcap)]
  simp only [List.length_append, List.length_singleton]

theorem walk_succ (hcap : frames.length < cap) :
    t.walk cap (fuel + 1) w frames reads =
      if frames.length + 1 < cap then
        match t.prev w with
        | none => some (frames ++ [t.shown w], reads ++ [w.fp])
        | some w' => t.walk cap fuel w' (frames ++ [t.shown w]) (reads ++ [w.fp])
      else some (frames ++ [t.shown w], reads ++ [w.fp]) := by
  rw [walk, appendFrame_eq hcap]
  by_cases hmore : frames.length + 1 < cap
  · cases t.prev w with
    | none => simp only [hmore, decide_true, Bool.true_eq_false, if_false, if_true, shown]
    | some w' => simp only [hmore, decide_true, Bool.true_eq_false, if_false, if_true, shown]
  · simp only [hmore, decide_false, if_false, if_true, shown]

/-- The room for frames only cuts the walk short. -/
theorem Trail.walk_eq (h : t.Trail w ws) (hfuel : ws.length ≤ fuel) (hcap : frames.length < cap) :
    t.walk cap fuel w frames reads =
      some (frames ++ (ws.map t.shown).take (cap - frames.length),
        reads ++ (ws.map (·.fp)).take (cap - frames.length)) := by
  induction h generalizing fuel frames reads with
  | @stop w hprev =>
    obtain ⟨fuel, rfl⟩ := Nat.exists_eq_add_of_le' (show 1 ≤ fuel from hfuel)
    obtain ⟨room, hroom⟩ := Nat.exists_eq_add_of_le' (Nat.sub_pos_of_lt hcap)
    rw [walk_succ hcap, hprev, hroom, List.map_singleton, List.map_singleton, List.take_succ_cons,
      List.take_succ_cons, List.take_nil]
    exact ite_self _
  | @next w w' ws hprev hrest ih =>
    rw [List.length_cons] at hfuel
    obtain ⟨fuel, rfl⟩ := Nat.exists_eq_add_of_le' (Nat.le_of_add_left_le hfuel)
    rw [walk_succ hcap, hprev, List.map_cons, List.map_cons]
    split_ifs with hmore
    · have hroom : cap - frames.length = cap - (frames.length + 1) + 1 := by omega
      have hlength : (frames ++ [t.shown w]).length = frames.length + 1 := List.length_append
      refine (ih (Nat.le_of_succ_le_succ hfuel) (hlength ▸ hmore)).trans ?_
      rw [hlength, hroom, List.take_succ_cons, List.take_succ_cons, List.append_assoc,
        List.append_assoc]
      rfl
    · have hroom : cap - frames.length = 1 := by omega
      rw [hroom, List.take_succ_cons, List.take_succ_cons, List.take_zero, List.take_zero]

theorem start_eq {fp : BitVec 64} :
    t.start fp = ⟨fp, t.signalStack.isSome, t.range t.signalStack.isSome⟩ := by
  rw [start, range]
  split_ifs with hsome
  · rw [hsome]
  · rw [Bool.not_eq_true] at hsome
    rw [hsome]

/-- The frame that a signal has interrupted. -/
def interrupted (context : Option (BitVec 64 × BitVec 64)) : List (BitVec 64) :=
  match context with
  | none => []
  | some (pc, _) => [clearPac pc]

/-- The frame record that the loop begins with. -/
def firstFp (t : Thread) (context : Option (BitVec 64 × BitVec 64)) : BitVec 64 :=
  match context with
  | none => t.frameAddress
  | some (_, fp) => fp

theorem Trail.unwind_eq (cap : ℕ) (h : t.Trail (t.start (t.firstFp context)) ws)
    (hfuel : ws.length ≤ fuel) :
    ∃ n, t.unwind fuel cap context = some
      ((interrupted context ++ ws.map t.shown).take cap, (ws.map (·.fp)).take n) := by
  unfold unwind
  split_ifs with hcap
  · exact ⟨0, by rw [hcap, List.take_zero, List.take_zero]⟩
  · have hpos := Nat.pos_of_ne_zero hcap
    match context with
    | none => exact ⟨cap, h.walk_eq hfuel hpos⟩
    | some (pc, fp) =>
      obtain ⟨room, rfl⟩ := Nat.exists_eq_add_one_of_ne_zero hcap
      have happend : appendFrame (room + 1) [] pc = (decide (1 < room + 1), [clearPac pc]) :=
        appendFrame_eq hpos
      simp only [happend]
      by_cases hmore : 1 < room + 1
      · have hwalk : t.walk (room + 1) fuel (t.start fp) [clearPac pc] [] = some _ :=
          h.walk_eq hfuel hmore
        exact ⟨room, by simpa [hmore, interrupted] using hwalk⟩
      · obtain rfl : room = 0 := by omega
        exact ⟨0, by simp [interrupted]⟩

/-- The first of the records read is the one the unwinding begins with; the others are on a stack.
More turns or another room for frames show the same calls. -/
theorem unwind_safe (haligned : t.Aligned) :
    ∃ addrs fps : List (BitVec 64), fps.length < t.turns ∧
      (∀ fp ∈ fps, ∃ onSignalStack, (t.range onSignalStack).Holds fp) ∧
      ∀ fuel cap, t.turns ≤ fuel → ∃ n, t.unwind fuel cap context =
        some (addrs.take cap, (t.firstFp context :: fps).take n) := by
  obtain ⟨ws, htrail, hlength, hreached⟩ :=
    exists_trail (w := t.start (t.firstFp context)) haligned (by rw [start_eq])
  refine ⟨interrupted context ++ (t.start (t.firstFp context) :: ws).map t.shown, ws.map (·.fp),
    ?_, ?_, fun fuel cap hfuel => ?_⟩
  · rw [List.length_map]
    exact Nat.lt_of_succ_le hlength
  · intro fp hfp
    obtain ⟨w, hw, rfl⟩ := List.mem_map.mp hfp
    exact ⟨w.onSignalStack, (hreached w hw).stack ▸ (hreached w hw).holds⟩
  · obtain ⟨n, heq⟩ := htrail.unwind_eq cap (Nat.le_trans hlength hfuel)
    have hfirst : (t.start (t.firstFp context)).fp = t.firstFp context := by rw [start_eq]
    exact ⟨n, by simpa only [List.map_cons, hfirst] using heq⟩

/-- A thread in a signal handler that has called a function: the handler's two records are on the
signal stack, and what the signal has interrupted has two more. -/
def sampleThread : Thread where
  mem addr := match addr.toNat with
    | 0x2100 => 0x80 | 0x2101 => 0x21 | 0x2108 => 0x14 | 0x2180 => 0x00 | 0x2181 => 0x02
    | 0x2188 => 0x60 | 0x200 => 0x00 | 0x201 => 0x03 | 0x208 => 0x44 | 0x308 => 0x88 | _ => 0
  sigreturnAddr := 0x60
  frameAddress := 0x2100
  signalStack := some (0x2000, 0x1000)
  threadStack := .attr 0x100 0xF00 (some 0x100)

theorem sampleThread_safe :
    ∃ addrs fps : List (BitVec 64), fps.length < 481 ∧
      (∀ fp ∈ fps, ∃ onSignalStack, (sampleThread.range onSignalStack).Holds fp) ∧
      ∀ fuel cap, 481 ≤ fuel → ∃ n, sampleThread.unwind fuel cap none =
        some (addrs.take cap, (0x2100 :: fps).take n) :=
  unwind_safe (t := sampleThread) fun onSignalStack => by
    cases onSignalStack <;> rfl

/-- Frame records on one stack, each with the address of the next; the last has `last` in its place.
-/
inductive Chain (t : Thread) (onSignalStack : Bool) (last : BitVec 64) :
    BitVec 64 → List (BitVec 64) → Prop
  | last {fp : BitVec 64} (h : (t.record fp).fp = last) :
      Chain t onSignalStack last fp [(t.record fp).lr]
  | call {fp : BitVec 64} {lrs : List (BitVec 64)} (hup : fp + 16 ≤ (t.record fp).fp)
      (hholds : (t.range onSignalStack).Holds (t.record fp).fp)
      (hrest : Chain t onSignalStack last (t.record fp).fp lrs) :
      Chain t onSignalStack last fp ((t.record fp).lr :: lrs)

theorem checked_of_holds (h : w.stack.Holds w.fp) : w.checked = some w := by
  rw [Walk.checked, if_neg]
  have := h.low
  have := h.high
  rw [not_or, BitVec.not_lt, BitVec.not_le, BitVec.le_def, BitVec.lt_def]
  omega

/-- What a return address adds to the frames. -/
def shownLr (t : Thread) (onSignalStack : Bool) (lr : BitVec 64) : BitVec 64 :=
  clearPac (t.frame onSignalStack lr)

theorem Chain.exists_trail {onSignalStack : Bool} {last fp : BitVec 64} {lrs : List (BitVec 64)}
    (h : t.Chain onSignalStack last fp lrs)
    (hlast : ∀ fp, (t.record fp).fp = last →
      t.Trail ⟨fp, onSignalStack, t.range onSignalStack⟩
        (⟨fp, onSignalStack, t.range onSignalStack⟩ :: ws)) :
    ∃ vs, t.Trail ⟨fp, onSignalStack, t.range onSignalStack⟩ (vs ++ ws) ∧
      vs.map t.shown = lrs.map (t.shownLr onSignalStack) := by
  induction h with
  | @last fp h => exact ⟨[_], hlast fp h, rfl⟩
  | @call fp lrs hup hholds hrest ih =>
    obtain ⟨vs, htrail, hshown⟩ := ih
    refine ⟨⟨fp, onSignalStack, t.range onSignalStack⟩ :: vs, .next ?_ htrail, ?_⟩
    · rw [prev, if_neg (not_not.mpr hholds.aligned), if_neg, if_neg (BitVec.not_lt.mpr hup)]
      · exact checked_of_holds hholds
      · rintro ⟨rfl, hout⟩
        have := hholds.low
        have := hholds.high
        simp only [range, if_true, BitVec.lt_def, BitVec.le_def] at *
        omega
    · rw [List.map_cons, List.map_cons, hshown]
      rfl

/-- The frame records of the calls of a thread, and what they are to be shown as. A signal handler
on a stack of its own has called, at its end, what the signal has interrupted on the other. -/
inductive Calls (t : Thread) : BitVec 64 → List (BitVec 64) → Prop
  | thread {fp : BitVec 64} {lrs : List (BitVec 64)} (hsignal : t.signalStack = none)
      (hcalls : t.Chain false 0 fp lrs) : Calls t fp (lrs.map (t.shownLr false))
  | signal {fp mid : BitVec 64} {handler lrs : List (BitVec 64)}
      (hsignal : t.signalStack.isSome = true) (hhandler : t.Chain true mid fp handler)
      (hmid : mid < t.signalRange.low ∨ t.signalRange.high ≤ mid) (hholds : t.threadRange.Holds mid)
      (hcalls : t.Chain false 0 mid lrs) :
      Calls t fp (handler.map (t.shownLr true) ++ lrs.map (t.shownLr false))

theorem Chain.exists_trail_thread {fp : BitVec 64} {lrs : List (BitVec 64)}
    (hlow : 0 < t.threadRange.low) (h : t.Chain false 0 fp lrs) :
    ∃ ws, t.Trail ⟨fp, false, t.threadRange⟩ ws ∧ ws.map t.shown = lrs.map (t.shownLr false) := by
  have hstop : ∀ fp, (t.record fp).fp = 0 →
      t.Trail ⟨fp, false, t.threadRange⟩ [⟨fp, false, t.threadRange⟩] := by
    intro fp hfp
    refine .stop ?_
    rw [prev, hfp]
    split_ifs with haligned hleaves hdown
    · rfl
    · exact hleaves.1.elim
    · rfl
    · exact if_pos (.inl hlow)
  obtain ⟨vs, htrail, hshown⟩ := h.exists_trail hstop
  exact ⟨vs, List.append_nil vs ▸ htrail, hshown⟩

theorem Calls.exists_trail {fp : BitVec 64} {addrs : List (BitVec 64)}
    (hlow : 0 < t.threadRange.low) (h : t.Calls fp addrs) :
    ∃ ws, t.Trail (t.start fp) ws ∧ ws.map t.shown = addrs := by
  rw [start_eq]
  cases h with
  | thread hsignal hcalls =>
    rw [hsignal]
    exact hcalls.exists_trail_thread hlow
  | @signal mid handler lrs hsignal hhandler hmid hholds hcalls =>
    rw [hsignal]
    obtain ⟨ws, htrail, hshown⟩ := hcalls.exists_trail_thread hlow
    obtain ⟨vs, htrail', hshown'⟩ := hhandler.exists_trail fun fp hfp => by
      refine .next ?_ htrail
      rw [prev, hfp, if_neg (not_not.mpr hholds.aligned), if_pos ⟨rfl, hmid⟩]
      exact checked_of_holds hholds
    exact ⟨vs ++ ws, htrail', by rw [List.map_append, hshown, hshown']⟩

/-- Every call is shown, the latest first, up to the room for them. -/
theorem unwind_calls {addrs : List (BitVec 64)} (hlow : 0 < t.threadRange.low)
    (hcalls : t.Calls (t.firstFp context) addrs) (hfuel : addrs.length ≤ fuel) :
    ∃ reads, t.unwind fuel cap context = some ((interrupted context ++ addrs).take cap, reads) := by
  obtain ⟨ws, htrail, rfl⟩ := hcalls.exists_trail hlow
  rw [List.length_map] at hfuel
  obtain ⟨n, heq⟩ := htrail.unwind_eq cap hfuel
  exact ⟨_, heq⟩

theorem sampleThread_calls :
    ∃ reads, sampleThread.unwind 4 8 none = some ([0x10, 0x60, 0x40, 0x84], reads) := by
  have hhandler : sampleThread.Chain true 0x200 0x2100 [0x14, 0x60] :=
    .call (by decide) ⟨by decide, by decide, by decide⟩ (.last rfl)
  have hcalls : sampleThread.Chain false 0 0x200 [0x44, 0x88] :=
    .call (by decide) ⟨by decide, by decide, by decide⟩ (.last rfl)
  have hsample : sampleThread.Calls (sampleThread.firstFp none) [0x10, 0x60, 0x40, 0x84] :=
    .signal rfl hhandler (by decide) ⟨by decide, by decide, by decide⟩ hcalls
  exact unwind_calls (by decide) hsample (by decide)

end Thread

end NativeLib.Xunwind
