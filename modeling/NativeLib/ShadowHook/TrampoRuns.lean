import NativeLib.ShadowHook.Trampolines

/-! Runs of the allocator of trampolines: who has which block, and since when a block is free. -/

namespace NativeLib.ShadowHook

open NativeLib.Collections

inductive TrampoEvent
  | alloc (mem : ℕ)
  | free (now : ℤ) (mem : ℕ)
  deriving DecidableEq, Repr

/-- The blocks that have been handed out and not been given back. The last event comes first. -/
def live : List TrampoEvent → List ℕ
  | [] => []
  | .alloc mem :: past => mem :: live past
  | .free _ mem :: past => (live past).filter (· ≠ mem)

/-- When a block was given back for the last time. -/
def freedAt (a : ℕ) : List TrampoEvent → Option ℤ
  | [] => none
  | .alloc _ :: past => freedAt a past
  | .free now mem :: past => if mem = a then some now else freedAt a past

/-- A run of an allocator whose users give back what they have, once. -/
inductive TrampoRun (size : ℕ) (delay : ℤ) : List TrampoEvent → TrampoMgr → Prop
  | init : TrampoRun size delay [] (.init size delay)
  | alloc {past : List TrampoEvent} {mgr mgr' : TrampoMgr} {call : TrampoCall}
      {ans : TrampoAnswers} {cur : ℕ} {cleared : ℕ × ℕ} (hrun : TrampoRun size delay past mgr)
      (hfresh : mgr.Fresh ans) (halloc : mgr.alloc call ans = (.ok cur, mgr', cleared)) :
      TrampoRun size delay (.alloc cur :: past) mgr'
  | failed {past : List TrampoEvent} {mgr mgr' : TrampoMgr} {call : TrampoCall}
      {ans : TrampoAnswers} {cleared : ℕ × ℕ} (hrun : TrampoRun size delay past mgr)
      (halloc : mgr.alloc call ans = (.failed, mgr', cleared)) : TrampoRun size delay past mgr'
  | free {past : List TrampoEvent} {mgr : TrampoMgr} {mem : ℕ} (now : ℤ)
      (hrun : TrampoRun size delay past mgr) (hmem : mem ∈ live past) :
      TrampoRun size delay (.free now mem :: past) (mgr.free now mem)

/-- The allocator knows what has happened. -/
structure Tracks (mgr : TrampoMgr) (past : List TrampoEvent) : Prop where
  fits : mgr.Fits
  live : ∀ a, a ∈ live past ↔ ∃ t, mgr.Slot a true t
  freed : ∀ a t, freedAt a past = some t →
    ∃ used stamp, mgr.Slot a used stamp ∧ (0 < mgr.delaySec → used = false → stamp = t)

variable {size : ℕ} {delay now : ℤ} {past : List TrampoEvent} {mgr mgr' : TrampoMgr}
  {call : TrampoCall} {ans : TrampoAnswers} {cur a b : ℕ} {cleared : ℕ × ℕ}

theorem Tracks.init (hsize : 0 < size) : Tracks (.init size delay) [] where
  fits := by
    refine ⟨?_, fun _ hpage => absurd hpage List.not_mem_nil,
      fun _ _ hpage => absurd hpage List.not_mem_nil, .nil⟩
    simp only [TrampoMgr.init, alignEnd, SH_TRAMPO_ALIGN]
    omega
  live a := by
    refine ⟨fun h => absurd h List.not_mem_nil, ?_⟩
    rintro ⟨t, page, hpage, -⟩
    exact absurd hpage List.not_mem_nil
  freed a t h := absurd h (by simp [freedAt])

theorem Tracks.alloc (h : Tracks mgr past) (hfresh : mgr.Fresh ans)
    (halloc : mgr.alloc call ans = (.ok cur, mgr', cleared)) :
    Tracks mgr' (.alloc cur :: past) := by
  have hspec := TrampoMgr.allocated_of_ok h.fits hfresh halloc
  refine ⟨hspec.fits, fun a => ?_, fun a t ht => ?_⟩
  · rw [ShadowHook.live, List.mem_cons, h.live]
    by_cases ha : a = cur
    · subst ha
      exact ⟨fun _ => hspec.taken, fun _ => .inl rfl⟩
    · refine ⟨fun hold => ?_, fun ⟨t, hs⟩ => .inr ?_⟩
      · obtain ⟨t, hs⟩ := hold.resolve_left ha
        exact ⟨t, hspec.kept a true t ha hs⟩
      · exact ⟨t, (hspec.others a true t ha hs).resolve_right (by decide)⟩
  · obtain ⟨used, stamp, hs, hstamp⟩ := h.freed a t ht
    by_cases ha : a = cur
    · subst ha
      obtain ⟨t', hs'⟩ := hspec.taken
      exact ⟨true, t', hs', fun _ hu => absurd hu (by decide)⟩
    · exact ⟨used, stamp, hspec.kept a used stamp ha hs, fun hd => hstamp (hspec.delay ▸ hd)⟩

/-- A call that fails leaves the allocator alone. -/
theorem eq_of_failed (halloc : mgr.alloc call ans = (.failed, mgr', cleared)) : mgr' = mgr := by
  rw [TrampoMgr.alloc] at halloc
  split at halloc
  · simp at halloc
  · rw [TrampoMgr.allocPage] at halloc
    split at halloc
    · simpa [eq_comm] using (Prod.mk.inj (Prod.mk.inj halloc).2).1
    · simp only at halloc
      split_ifs at halloc
      · exact (Prod.mk.inj (Prod.mk.inj halloc).2).1.symm
      · exact (Prod.mk.inj (Prod.mk.inj halloc).2).1.symm
      · exact (Prod.mk.inj (Prod.mk.inj halloc).2).1.symm
      · split at halloc
        · simp at halloc
        · split_ifs at halloc <;> simp at halloc

theorem Tracks.free (h : Tracks mgr past) (hmem : a ∈ ShadowHook.live past) :
    Tracks (mgr.free now a) (.free now a :: past) := by
  obtain ⟨stamp, hs⟩ := (h.live a).mp hmem
  obtain ⟨hfits, hslots⟩ := @TrampoMgr.free_slot mgr a true stamp now h.fits hs
  refine ⟨hfits, fun b => ?_, fun b t ht => ?_⟩
  · rw [ShadowHook.live, List.mem_filter, h.live, decide_eq_true_iff]
    refine ⟨fun ⟨⟨t, hb⟩, hne⟩ => ⟨t, (hslots b true t).mpr (.inr ⟨hne, hb⟩)⟩, fun ⟨t, hb⟩ => ?_⟩
    rcases (hslots b true t).mp hb with ⟨-, hu, -⟩ | ⟨hne, hb⟩
    · exact absurd hu (by decide)
    · exact ⟨⟨t, hb⟩, hne⟩
  · rw [freedAt] at ht
    split_ifs at ht with hab
    · obtain rfl : now = t := Option.some.inj ht
      subst hab
      exact ⟨false, _, (hslots a false _).mpr (.inl ⟨rfl, rfl, rfl⟩), fun hd _ => if_pos hd⟩
    · obtain ⟨used, stamp', hb, hstamp⟩ := h.freed b t ht
      exact ⟨used, stamp', (hslots b used stamp').mpr (.inr ⟨fun h => hab h.symm, hb⟩), hstamp⟩

theorem TrampoRun.tracks (hrun : TrampoRun size delay past mgr) (hsize : 0 < size) :
    Tracks mgr past ∧ mgr.trampoSize = alignEnd size SH_TRAMPO_ALIGN ∧ mgr.delaySec = delay := by
  induction hrun with
  | init => exact ⟨.init hsize, rfl, rfl⟩
  | alloc _ hfresh halloc ih =>
    have hspec := TrampoMgr.allocated_of_ok ih.1.fits hfresh halloc
    exact ⟨ih.1.alloc hfresh halloc, hspec.size.trans ih.2.1, hspec.delay.trans ih.2.2⟩
  | failed _ halloc ih => rwa [eq_of_failed halloc]
  | free now _ hmem ih => exact ⟨ih.1.free hmem, ih.2⟩

/-- Blocks that are in use are one or lie apart. -/
theorem Tracks.apart (h : Tracks mgr past) (ha : a ∈ ShadowHook.live past)
    (hb : b ∈ ShadowHook.live past) :
    a = b ∨ a + mgr.trampoSize ≤ b ∨ b + mgr.trampoSize ≤ a := by
  obtain ⟨t, hs⟩ := (h.live a).mp ha
  obtain ⟨t', hs'⟩ := (h.live b).mp hb
  exact (hs.apart h.fits hs').imp (·.1) id

/-- A block that is handed out lies apart from those that are in use. -/
theorem Tracks.apart_new (h : Tracks mgr past) (hfresh : mgr.Fresh ans)
    (halloc : mgr.alloc call ans = (.ok cur, mgr', cleared)) (ha : a ∈ ShadowHook.live past) :
    cur + mgr.trampoSize ≤ a ∨ a + mgr.trampoSize ≤ cur := by
  have hspec := TrampoMgr.allocated_of_ok h.fits hfresh halloc
  have hnew : cur ∉ ShadowHook.live past := by
    rw [h.live]
    rintro ⟨t, hs⟩
    exact absurd (hspec.unused true t hs).1 (by decide)
  have hall := h.alloc hfresh halloc
  have hlie := hall.apart (show cur ∈ ShadowHook.live (.alloc cur :: past) from List.mem_cons_self)
    (show a ∈ ShadowHook.live (.alloc cur :: past) from List.mem_cons_of_mem _ ha)
  rw [hspec.size] at hlie
  exact hlie.resolve_left fun h => hnew (h ▸ ha)

/-- A page that is new lies apart from the blocks that are in use. -/
theorem Tracks.apart_page (h : Tracks mgr past) {ptr : ℕ} (hfresh : mgr.Fresh ans)
    (hmmap : ans.mmap = some ptr) (ha : a ∈ ShadowHook.live past) :
    a + mgr.trampoSize ≤ ptr ∨ ptr + SH_TRAMPO_PAGE_SZ ≤ a := by
  obtain ⟨t, page, hpage, i, hi, rfl, -, -⟩ := (h.live a).mp ha
  have hpos := h.fits.pos
  by_contra hlie
  -- They would have the later of the two starts in common.
  have hcommon := hfresh ptr hmmap page hpage (max ptr (page.ptr + mgr.trampoSize * i))
    (Nat.le_max_left ..) (Nat.max_lt.mpr ⟨by unfold SH_TRAMPO_PAGE_SZ; omega, by omega⟩)
  exact hcommon (TrampoMgr.has_slot hi (Nat.le_max_right ..) (Nat.max_lt.mpr ⟨by omega, by omega⟩))

/-- Nothing that is in use is cleared. -/
theorem Tracks.apart_cleared (h : Tracks mgr past) (hfresh : mgr.Fresh ans)
    (halloc : mgr.alloc call ans = (.ok cur, mgr', cleared)) (ha : a ∈ ShadowHook.live past) :
    a + mgr.trampoSize ≤ cleared.1 ∨ cleared.1 + cleared.2 ≤ a := by
  have hspec := TrampoMgr.allocated_of_ok h.fits hfresh halloc
  rcases hspec.cleared with rfl | ⟨ptr, hmmap, rfl⟩
  · exact (h.apart_new hfresh halloc ha).symm
  · exact h.apart_page hfresh hmmap ha

/-- A block that is handed out, after any run: it lies apart from those that are in use, it is in
the range that was asked for, it has been left alone for the delay, it is cleared, and nothing that
is in use is. -/
theorem trampo_alloc_safe (hsize : 0 < size) (hrun : TrampoRun size delay past mgr)
    (hfresh : mgr.Fresh ans) (halloc : mgr.alloc call ans = (.ok cur, mgr', cleared)) :
    (∀ a ∈ ShadowHook.live past, cur + alignEnd size SH_TRAMPO_ALIGN ≤ a ∨
      a + alignEnd size SH_TRAMPO_ALIGN ≤ cur) ∧
    (0 < call.hint →
      call.hint - call.rangeLow ≤ cur ∧ cur ≤ call.hint + call.rangeHigh) ∧
    (∀ t, freedAt cur past = some t → 0 < delay → delay < call.now - t) ∧
    (cleared.1 ≤ cur ∧ cur + alignEnd size SH_TRAMPO_ALIGN ≤ cleared.1 + cleared.2) ∧
    ∀ a ∈ ShadowHook.live past, a + alignEnd size SH_TRAMPO_ALIGN ≤ cleared.1 ∨
      cleared.1 + cleared.2 ≤ a := by
  obtain ⟨htracks, hlen, rfl⟩ := hrun.tracks hsize
  have hspec := TrampoMgr.allocated_of_ok htracks.fits hfresh halloc
  rw [← hlen]
  refine ⟨fun a ha => htracks.apart_new hfresh halloc ha, hspec.range, fun t ht hd => ?_,
    hspec.clears, fun a ha => htracks.apart_cleared hfresh halloc ha⟩
  obtain ⟨used, stamp, hs, hstamp⟩ := htracks.freed cur t ht
  obtain ⟨hunused, hlate⟩ := hspec.unused used stamp hs
  exact hstamp hd hunused ▸ hlate hd

/-! Exits of `sh_exit.cpp` for one function: two of them, the first given back, a third, and after
the delay the first again. -/

def exitCall (now : ℤ) : TrampoCall := ⟨now, 0x10000, 134217728, 134217724⟩

def exitPage : TrampoAnswers := ⟨some 0x8000, true, true, true⟩

def noPage : TrampoAnswers := ⟨none, true, true, true⟩

def oneExit : TrampoMgr := ((TrampoMgr.init 16 2).alloc (exitCall 1000) exitPage).2.1

def twoExits : TrampoMgr := (oneExit.alloc (exitCall 1000) noPage).2.1

/-- The first exit has been given back too lately to be the third. -/
def threeExits : TrampoMgr := ((twoExits.free 1001 0x8000).alloc (exitCall 1002) noPage).2.1

def exitsPast : List TrampoEvent :=
  [.alloc 0x8020, .free 1001 0x8000, .alloc 0x8010, .alloc 0x8000]

theorem threeExits_run : TrampoRun 16 2 exitsPast threeExits := by
  have hone : TrampoRun 16 2 [.alloc 0x8000] oneExit :=
    .alloc .init (fun _ _ _ hpage => absurd hpage List.not_mem_nil)
      (Prod.ext (show _ = TrampoResult.ok 0x8000 by decide +kernel) rfl :
        (TrampoMgr.init 16 2).alloc (exitCall 1000) exitPage = (_, oneExit, _))
  have htwo : TrampoRun 16 2 [.alloc 0x8010, .alloc 0x8000] twoExits :=
    .alloc hone (fun _ h => absurd h (by simp [noPage]))
      (Prod.ext (show _ = TrampoResult.ok 0x8010 by decide +kernel) rfl :
        oneExit.alloc (exitCall 1000) noPage = (_, twoExits, _))
  exact .alloc (htwo.free 1001 (by decide)) (fun _ h => absurd h (by simp [noPage]))
    (Prod.ext (show _ = TrampoResult.ok 0x8020 by decide +kernel) rfl :
      (twoExits.free 1001 0x8000).alloc (exitCall 1002) noPage = (_, threeExits, _))

/-- The first exit is handed out again once it has been left alone for the delay, and lies apart
from the two others. -/
theorem first_exit_again :
    (∀ a ∈ [0x8020, 0x8010], 0x8000 + alignEnd 16 SH_TRAMPO_ALIGN ≤ a ∨
      a + alignEnd 16 SH_TRAMPO_ALIGN ≤ 0x8000) ∧ (2 : ℤ) < (exitCall 1004).now - 1001 := by
  have halloc : threeExits.alloc (exitCall 1004) noPage = (TrampoResult.ok 0x8000, _) :=
    Prod.ext (show _ = TrampoResult.ok 0x8000 by decide +kernel) rfl
  obtain ⟨hapart, -, hdelay, -⟩ :=
    trampo_alloc_safe (by decide) threeExits_run (fun _ h => absurd h (by simp [noPage])) halloc
  exact ⟨hapart, hdelay 1001 rfl (by decide)⟩

/-- A page that is not out of the range has a block in it, if the range has room for one. -/
theorem exists_not_misses {ptr : ℕ} (hdvd : mgr.trampoSize ∣ SH_TRAMPO_PAGE_SZ)
    (hwide : 0 < call.hint → mgr.trampoSize ≤ call.rangeLow + call.rangeHigh + 1)
    (hlow : call.rangeLow ≤ call.hint)
    (hin : ¬ (0 < call.hint ∧ (ptr + SH_TRAMPO_PAGE_SZ - mgr.trampoSize ≤
      call.hint - call.rangeLow ∨ call.hint + call.rangeHigh < ptr))) :
    ∃ i < mgr.count,
      call.misses (ptr + mgr.trampoSize * i) (ptr + mgr.trampoSize * i) = false := by
  obtain ⟨k, hk⟩ := hdvd
  have hpos : 0 < mgr.trampoSize := by
    rcases Nat.eq_zero_or_pos mgr.trampoSize with h | h
    · rw [h, Nat.zero_mul] at hk
      exact absurd hk (by decide)
    · exact h
  have hcount : mgr.count = k := by
    rw [TrampoMgr.count, hk, Nat.mul_div_cancel_left _ hpos]
  have hk0 : 0 < k := by
    rcases Nat.eq_zero_or_pos k with h | h
    · rw [h, Nat.mul_zero] at hk
      exact absurd hk (by decide)
    · exact h
  by_cases hhint : 0 < call.hint
  · obtain ⟨low, hlow'⟩ : ∃ low, low = call.hint - call.rangeLow := ⟨_, rfl⟩
    have hwide' := hwide hhint
    -- The first block that starts in the range.
    obtain ⟨i, hi, hi', hfirst⟩ : ∃ i, low - ptr ≤ mgr.trampoSize * i ∧
        mgr.trampoSize * i ≤ low - ptr + (mgr.trampoSize - 1) ∧
        (low ≤ ptr → mgr.trampoSize * i = 0) := by
      refine ⟨(low - ptr + (mgr.trampoSize - 1)) / mgr.trampoSize, ?_, Nat.mul_div_le ..,
        fun hle => ?_⟩
      · have hdiv := Nat.div_add_mod (low - ptr + (mgr.trampoSize - 1)) mgr.trampoSize
        have hmod := Nat.mod_lt (low - ptr + (mgr.trampoSize - 1)) hpos
        omega
      · rw [Nat.div_eq_of_lt (by omega), Nat.mul_zero]
    have hlt : i < k := by
      by_contra hge
      have hmul := Nat.mul_le_mul_left mgr.trampoSize (Nat.le_of_not_lt hge)
      have hone := Nat.mul_le_mul_left mgr.trampoSize hk0
      rw [← hk] at hmul hone
      omega
    refine ⟨i, hcount ▸ hlt, decide_eq_false ?_⟩
    rintro ⟨-, hmiss | hmiss⟩ <;> omega
  · exact ⟨0, hcount ▸ hk0, decide_eq_false fun h => hhint h.1⟩

/-- The allocator does not abort if its blocks fill a page and the range is as wide as a block. -/
theorem alloc_ne_aborted (hdvd : mgr.trampoSize ∣ SH_TRAMPO_PAGE_SZ)
    (hwide : 0 < call.hint → mgr.trampoSize ≤ call.clamp.rangeLow + call.clamp.rangeHigh + 1)
    (hptr : ans.mmap ≠ some 0) : (mgr.alloc call ans).1 ≠ .aborted := by
  rw [TrampoMgr.alloc]
  split
  · simp
  · rw [TrampoMgr.allocPage]
    split
    · simp
    · next ptr hmmap =>
      simp only
      split_ifs with hrange
      · simp
      · simp
      · simp
      · have hlow : call.clamp.rangeLow ≤ call.clamp.hint := by
          simp only [TrampoCall.clamp]
          split_ifs <;> omega
        obtain ⟨i, hi, hin⟩ := exists_not_misses hdvd hwide hlow hrange
        split
        · next hnone =>
          have hout := List.find?_eq_none.mp hnone i (List.mem_range.mpr hi)
          simp [hin] at hout
        · rw [if_neg]
          · simp
          · intro hzero
            obtain rfl : ptr = 0 := by omega
            exact hptr hmmap

end NativeLib.ShadowHook
