import Mathlib.Tactic.Common
import NativeLib.ShadowHook.Trampo

/-! What the allocator of trampolines promises, over all its runs. -/

namespace NativeLib.ShadowHook

open NativeLib.Collections

/-- The byte is one of the page. -/
def TrampoPage.Has (page : TrampoPage) (b : ℕ) : Prop :=
  page.ptr ≤ b ∧ b < page.ptr + SH_TRAMPO_PAGE_SZ

namespace TrampoMgr

/-- What holds of an allocator at all times. -/
structure Fits (mgr : TrampoMgr) : Prop where
  pos : 0 < mgr.trampoSize
  flags : ∀ page ∈ mgr.pages, mgr.count ≤ 32 * page.flags.length
  timestamps : mgr.delaySec > 0 → ∀ page ∈ mgr.pages, page.timestamps.length = mgr.count
  apart : mgr.pages.Pairwise fun page page' => ∀ b, page.Has b → ¬ page'.Has b

/-- A block of one of the pages, with its flag and its timestamp. -/
def Slot (mgr : TrampoMgr) (a : ℕ) (used : Bool) (stamp : ℤ) : Prop :=
  ∃ page ∈ mgr.pages, ∃ i < mgr.count, a = page.ptr + mgr.trampoSize * i ∧
    flag page.flags i = used ∧ page.timestamps.getD i 0 = stamp

variable {mgr : TrampoMgr} {page page' : TrampoPage} {before after pages pages' : List TrampoPage}
  {a a' i j cur : ℕ} {used used' : Bool} {stamp stamp' now : ℤ} {call : TrampoCall}

theorem end_le (h : i < mgr.count) :
    mgr.trampoSize * i + mgr.trampoSize ≤ SH_TRAMPO_PAGE_SZ := by
  calc mgr.trampoSize * i + mgr.trampoSize = mgr.trampoSize * (i + 1) := by rw [Nat.mul_succ]
    _ ≤ mgr.trampoSize * mgr.count := Nat.mul_le_mul_left _ h
    _ ≤ SH_TRAMPO_PAGE_SZ := Nat.mul_div_le ..

/-- A block lies in its page. -/
theorem has_slot (h : i < mgr.count) {b : ℕ} (hb : page.ptr + mgr.trampoSize * i ≤ b)
    (hb' : b < page.ptr + mgr.trampoSize * i + mgr.trampoSize) : page.Has b := by
  have hend := end_le h
  unfold TrampoPage.Has
  omega

theorem Fits.page_unique (h : mgr.Fits) (hpage : page ∈ mgr.pages) (hpage' : page' ∈ mgr.pages)
    {b : ℕ} (hb : page.Has b) (hb' : page'.Has b) : page = page' := by
  obtain ⟨-, -, -, hapart⟩ := h
  induction hpages : mgr.pages generalizing mgr with
  | nil => exact absurd (hpages ▸ hpage) List.not_mem_nil
  | cons first rest ih =>
    rw [hpages] at hpage hpage' hapart
    obtain ⟨hfirst, hrest⟩ := List.pairwise_cons.mp hapart
    rcases List.mem_cons.mp hpage with rfl | hmem
    · rcases List.mem_cons.mp hpage' with rfl | hmem'
      · rfl
      · exact absurd hb' (hfirst page' hmem' b hb)
    · rcases List.mem_cons.mp hpage' with rfl | hmem'
      · exact absurd hb (hfirst page hmem b hb')
      · exact @ih { mgr with pages := rest } hmem hmem' hrest rfl

/-- Two blocks are one or lie apart. -/
theorem Slot.apart (h : mgr.Fits) (hs : mgr.Slot a used stamp) (hs' : mgr.Slot a' used' stamp') :
    (a = a' ∧ used = used' ∧ stamp = stamp') ∨ a + mgr.trampoSize ≤ a' ∨
      a' + mgr.trampoSize ≤ a := by
  obtain ⟨page, hpage, i, hi, rfl, rfl, rfl⟩ := hs
  obtain ⟨page', hpage', j, hj, rfl, rfl, rfl⟩ := hs'
  have hend := end_le hi
  have hend' := end_le hj
  by_cases hcommon : ∃ b, page.Has b ∧ page'.Has b
  · obtain ⟨b, hb, hb'⟩ := hcommon
    obtain rfl := h.page_unique hpage hpage' hb hb'
    rcases Nat.lt_trichotomy i j with hlt | rfl | hlt
    · have hmul := Nat.mul_le_mul_left mgr.trampoSize hlt
      rw [Nat.mul_succ] at hmul
      omega
    · exact .inl ⟨rfl, rfl, rfl⟩
    · have hmul := Nat.mul_le_mul_left mgr.trampoSize hlt
      rw [Nat.mul_succ] at hmul
      omega
  · have hstart : ¬ page'.Has page.ptr := fun hb' =>
      hcommon ⟨page.ptr, ⟨Nat.le_refl _, Nat.lt_add_of_pos_right (by decide)⟩, hb'⟩
    have hstart' : ¬ page.Has page'.ptr := fun hb =>
      hcommon ⟨page'.ptr, hb, ⟨Nat.le_refl _, Nat.lt_add_of_pos_right (by decide)⟩⟩
    unfold TrampoPage.Has at hstart hstart'
    omega

theorem Slot.unique (h : mgr.Fits) (hs : mgr.Slot a used stamp) (hs' : mgr.Slot a used' stamp') :
    used = used' ∧ stamp = stamp' := by
  have hpos := h.pos
  rcases hs.apart h hs' with ⟨-, hsame⟩ | hlt | hlt
  · exact hsame
  · omega
  · omega

/-! One block changes. -/

/-- A page that has been changed in one block. -/
structure Changed (mgr : TrampoMgr) (page page' : TrampoPage) (i : ℕ) (used : Bool) (stamp : ℤ) :
    Prop where
  lt : i < mgr.count
  ptr : page'.ptr = page.ptr
  flags : page'.flags.length = page.flags.length
  timestamps : page'.timestamps.length = page.timestamps.length
  flag : ∀ j, flag page'.flags j = if j = i then used else flag page.flags j
  stamp : ∀ j, page'.timestamps.getD j 0 = if j = i then stamp else page.timestamps.getD j 0

theorem Changed.fits (hc : mgr.Changed page page' i used stamp)
    (h : mgr.Fits) (hpages : mgr.pages = before ++ page :: after) :
    { mgr with pages := before ++ page' :: after }.Fits := by
  have hhas : ∀ b, page'.Has b ↔ page.Has b := by
    intro b
    unfold TrampoPage.Has
    rw [hc.ptr]
  have hcount : { mgr with pages := before ++ page' :: after }.count = mgr.count := rfl
  have hsame : ∀ {P : TrampoPage → Prop}, (∀ p ∈ mgr.pages, P p) → (P page → P page') →
      ∀ p ∈ before ++ page' :: after, P p := by
    intro P hall hstep p hp
    rw [hpages, List.forall_mem_append, List.forall_mem_cons] at hall
    rcases List.mem_append.mp hp with hp | hp
    · exact hall.1 p hp
    · rcases List.mem_cons.mp hp with rfl | hp
      · exact hstep hall.2.1
      · exact hall.2.2 p hp
  have hapart := h.apart
  rw [hpages, List.pairwise_append, List.pairwise_cons] at hapart
  obtain ⟨hbefore, ⟨hpage, hafter⟩, hcross⟩ := hapart
  refine ⟨h.pos, hsame h.flags fun hle => ?_, fun hd => hsame (h.timestamps hd) fun hlen => ?_, ?_⟩
  · rwa [hcount, hc.flags]
  · rw [hc.timestamps, hlen, hcount]
  · rw [List.pairwise_append, List.pairwise_cons]
    refine ⟨hbefore, ⟨fun p hp b hb => hpage p hp b ((hhas b).mp hb), hafter⟩,
      fun p hp q hq b hb => ?_⟩
    rcases List.mem_cons.mp hq with rfl | hq
    · exact fun hb' => hcross p hp page List.mem_cons_self b hb ((hhas b).mp hb')
    · exact hcross p hp q (List.mem_cons_of_mem _ hq) b hb

theorem Changed.slot (hc : mgr.Changed page page' i used stamp) (h : mgr.Fits)
    (hpages : mgr.pages = before ++ page :: after) :
    { mgr with pages := before ++ page' :: after }.Slot a used' stamp' ↔
      (a = page.ptr + mgr.trampoSize * i ∧ used' = used ∧ stamp' = stamp) ∨
        (a ≠ page.ptr + mgr.trampoSize * i ∧ mgr.Slot a used' stamp') := by
  have hpos := h.pos
  have hmem : page ∈ mgr.pages := hpages ▸ List.mem_append_right _ List.mem_cons_self
  -- A block of another page is another block.
  have hother : ∀ q ∈ mgr.pages, q ≠ page → ∀ j < mgr.count,
      q.ptr + mgr.trampoSize * j ≠ page.ptr + mgr.trampoSize * i := by
    intro q hq hne j hj heq
    refine hne (h.page_unique hq hmem
      (has_slot hj (Nat.le_refl _) (Nat.lt_add_of_pos_right hpos)) ?_)
    rw [heq]
    exact has_slot hc.lt (Nat.le_refl _) (Nat.lt_add_of_pos_right hpos)
  have hindex : ∀ j, page.ptr + mgr.trampoSize * j = page.ptr + mgr.trampoSize * i ↔ j = i := by
    intro j
    rw [Nat.add_left_cancel_iff]
    exact Nat.mul_right_inj (Nat.pos_iff_ne_zero.mp hpos)
  have hne : ∀ q ∈ before ++ after, q ≠ page := by
    rintro q hq rfl
    have hhas : q.Has q.ptr := ⟨Nat.le_refl _, Nat.lt_add_of_pos_right (by decide)⟩
    have hapart := h.apart
    rw [hpages, List.pairwise_append, List.pairwise_cons] at hapart
    rcases List.mem_append.mp hq with hq | hq
    · exact hapart.2.2 q hq q List.mem_cons_self _ hhas hhas
    · exact hapart.2.1.1 q hq _ hhas hhas
  constructor
  · rintro ⟨q, hq, j, hj, rfl, rfl, rfl⟩
    have hcase : q = page' ∨ q ∈ before ++ after := by
      rcases List.mem_append.mp hq with hq | hq
      · exact .inr (List.mem_append_left _ hq)
      · exact (List.mem_cons.mp hq).imp id (List.mem_append_right _)
    rcases hcase with rfl | hq
    · rw [hc.flag, hc.stamp, hc.ptr]
      by_cases hji : j = i
      · subst hji
        exact .inl ⟨rfl, if_pos rfl, if_pos rfl⟩
      · rw [if_neg hji, if_neg hji]
        exact .inr ⟨fun heq => hji ((hindex j).mp heq), page, hmem, j, hj, rfl, rfl, rfl⟩
    · have hq' : q ∈ mgr.pages := by
        rw [hpages]
        exact (List.mem_append.mp hq).elim (List.mem_append_left _)
          fun hq => List.mem_append_right _ (List.mem_cons_of_mem _ hq)
      exact .inr ⟨hother q hq' (hne q hq) j hj, q, hq', j, hj, rfl, rfl, rfl⟩
  · have hmem' : page' ∈ before ++ page' :: after := List.mem_append_right _ List.mem_cons_self
    rintro (⟨rfl, rfl, rfl⟩ | ⟨hdiff, q, hq, j, hj, rfl, rfl, rfl⟩)
    · exact ⟨page', hmem', i, hc.lt, by rw [hc.ptr], by rw [hc.flag, if_pos rfl],
        by rw [hc.stamp, if_pos rfl]⟩
    · rw [hpages] at hq
      rcases List.mem_append.mp hq with hq | hq
      · exact ⟨q, List.mem_append_left _ hq, j, hj, rfl, rfl, rfl⟩
      rcases List.mem_cons.mp hq with rfl | hq
      · have hji : j ≠ i := fun heq => hdiff ((hindex j).mpr heq)
        exact ⟨page', hmem', j, hj, by rw [hc.ptr], by rw [hc.flag, if_neg hji],
          by rw [hc.stamp, if_neg hji]⟩
      · exact ⟨q, List.mem_append_right _ (List.mem_cons_of_mem _ hq), j, hj, rfl, rfl, rfl⟩

/-! The three ways to come by a block or to give one back. -/

/-- A block that the search finds. -/
theorem findUnused_eq_some (h : mgr.findUnused call pages = some (cur, pages')) :
    ∃ before page after i, pages = before ++ page :: after ∧ i < mgr.count ∧
      mgr.usable call page i ∧ cur = page.ptr + mgr.trampoSize * i ∧
      pages' = before ++ { page with flags := setFlag page.flags i } :: after := by
  induction pages generalizing cur pages' with
  | nil => exact absurd h (by simp [findUnused])
  | cons page pages ih =>
    have hfurther : (mgr.findUnused call pages).map (Prod.map id (page :: ·)) =
        some (cur, pages') →
        ∃ before page' after i, page :: pages = before ++ page' :: after ∧ i < mgr.count ∧
          mgr.usable call page' i ∧ cur = page'.ptr + mgr.trampoSize * i ∧
          pages' = before ++ { page' with flags := setFlag page'.flags i } :: after := by
      intro hmap
      obtain ⟨⟨cur', rest⟩, hrest, heq⟩ := Option.map_eq_some_iff.mp hmap
      obtain ⟨rfl, rfl⟩ := Prod.mk.inj heq
      obtain ⟨before, page', after, i, rfl, hi, husable, hcur, rfl⟩ := ih hrest
      exact ⟨page :: before, page', after, i, rfl, hi, husable, hcur, rfl⟩
    rw [findUnused] at h
    split_ifs at h
    · exact hfurther h
    · split at h
      · next i hi =>
        obtain ⟨rfl, rfl⟩ := Prod.mk.inj (Option.some.inj h)
        exact ⟨[], page, pages, i, rfl, List.mem_range.mp (List.mem_of_find?_eq_some hi),
          List.find?_some hi, rfl, rfl⟩
      · exact hfurther h

/-- What is given back lies in one of the pages. -/
theorem freeIn_eq (hpage : ∃ page ∈ pages, page.Has a) :
    ∃ before page after, pages = before ++ page :: after ∧ page.Has a ∧
      mgr.freeIn now a pages = before ++ { page with
        timestamps := if mgr.delaySec > 0 then
          page.timestamps.set ((a - page.ptr) / mgr.trampoSize) now else page.timestamps
        flags := clearFlag page.flags ((a - page.ptr) / mgr.trampoSize) } :: after := by
  induction pages with
  | nil => exact absurd hpage (by simp)
  | cons page pages ih =>
    rw [freeIn]
    by_cases hhas : page.ptr ≤ a ∧ a < page.ptr + SH_TRAMPO_PAGE_SZ
    · rw [if_pos hhas]
      exact ⟨[], page, pages, rfl, hhas, rfl⟩
    · rw [if_neg hhas]
      obtain ⟨first, hfirst, hin⟩ := hpage
      have hrest : first ∈ pages := (List.mem_cons.mp hfirst).resolve_left fun h => hhas (h ▸ hin)
      obtain ⟨before, page', after, hpages, hhas', hfree⟩ := ih ⟨first, hrest, hin⟩
      exact ⟨page :: before, page', after, by rw [hpages]; rfl, hhas', by rw [hfree]; rfl⟩

theorem Fits.word_lt (h : mgr.Fits) (hpage : page ∈ mgr.pages) (hi : i < mgr.count) :
    i / 32 < page.flags.length := by
  have hflags := h.flags page hpage
  omega

/-- Taking a block changes it. -/
theorem changed_setFlag (h : mgr.Fits) (hpage : page ∈ mgr.pages) (hi : i < mgr.count) :
    mgr.Changed page { page with flags := setFlag page.flags i } i true
      (page.timestamps.getD i 0) where
  lt := hi
  ptr := rfl
  flags := length_setFlag
  timestamps := rfl
  flag j := flag_setFlag (by decide) (h.word_lt hpage hi)
  stamp j := by split_ifs with hji <;> simp [hji]

/-- Giving a block back changes it. -/
theorem changed_clearFlag (h : mgr.Fits) (hpage : page ∈ mgr.pages) (hi : i < mgr.count) :
    mgr.Changed page { page with
      timestamps := if mgr.delaySec > 0 then page.timestamps.set i now else page.timestamps
      flags := clearFlag page.flags i } i false
      (if mgr.delaySec > 0 then now else page.timestamps.getD i 0) where
  lt := hi
  ptr := rfl
  flags := length_clearFlag
  timestamps := by
    simp only
    split_ifs
    · exact List.length_set ..
    · rfl
  flag j := flag_clearFlag (by decide) (h.word_lt hpage hi)
  stamp j := by
    simp only
    by_cases hd : mgr.delaySec > 0
    · have hlen := h.timestamps hd page hpage
      rw [if_pos hd, if_pos hd, List.getD_eq_getElem?_getD, List.getElem?_set,
        List.getD_eq_getElem?_getD]
      by_cases hji : i = j
      · subst hji
        simp [hlen, hi]
      · simp [hji, Ne.symm hji]
    · rw [if_neg hd, if_neg hd]
      split_ifs with hji <;> simp [hji]

/-- Giving back a block that is in use. -/
theorem free_slot (h : mgr.Fits) (hs : mgr.Slot a used stamp) :
    (mgr.free now a).Fits ∧ ∀ b u t, (mgr.free now a).Slot b u t ↔
      (b = a ∧ u = false ∧ t = if mgr.delaySec > 0 then now else stamp) ∨
        (b ≠ a ∧ mgr.Slot b u t) := by
  obtain ⟨page, hpage, i, hi, rfl, rfl, rfl⟩ := hs
  have hhas : page.Has (page.ptr + mgr.trampoSize * i) :=
    has_slot hi (Nat.le_refl _) (Nat.lt_add_of_pos_right h.pos)
  obtain ⟨before, page', after, hpages, hhas', hfree⟩ :=
    @freeIn_eq mgr mgr.pages (page.ptr + mgr.trampoSize * i) now ⟨page, hpage, hhas⟩
  have hmem : page' ∈ mgr.pages := hpages ▸ List.mem_append_right _ List.mem_cons_self
  obtain rfl := h.page_unique hpage hmem hhas hhas'
  rw [Nat.add_sub_cancel_left, Nat.mul_div_cancel_left _ h.pos] at hfree
  have hc := @changed_clearFlag mgr page i now h hpage hi
  rw [free, hfree]
  exact ⟨hc.fits h hpages, fun b u t => hc.slot h hpages⟩

/-- What `mmap` hands out is no part of a page that is there. -/
def Fresh (mgr : TrampoMgr) (ans : TrampoAnswers) : Prop :=
  ∀ ptr, ans.mmap = some ptr → ∀ page ∈ mgr.pages, ∀ b,
    ptr ≤ b → b < ptr + SH_TRAMPO_PAGE_SZ → ¬ page.Has b

theorem le_alignEnd (n : ℕ) : n ≤ 32 * (alignEnd n 32 / 32) := by
  unfold alignEnd
  omega

/-- A page is added. -/
theorem fits_newPage (h : mgr.Fits) {ptr : ℕ}
    (hfresh : ∀ page ∈ mgr.pages, ∀ b, ptr ≤ b → b < ptr + SH_TRAMPO_PAGE_SZ → ¬ page.Has b) :
    { mgr with pages := mgr.newPage ptr :: mgr.pages }.Fits where
  pos := h.pos
  flags := by
    refine List.forall_mem_cons.mpr ⟨?_, h.flags⟩
    rw [newPage, List.length_replicate]
    exact le_alignEnd _
  timestamps hd := by
    refine List.forall_mem_cons.mpr ⟨?_, h.timestamps hd⟩
    rw [newPage, if_pos hd, List.length_replicate]
    rfl
  apart := List.pairwise_cons.mpr ⟨fun page hpage b hb => hfresh page hpage b hb.1 hb.2, h.apart⟩

theorem slot_newPage {ptr : ℕ} :
    { mgr with pages := mgr.newPage ptr :: mgr.pages }.Slot a used stamp ↔
      (∃ i < mgr.count, a = ptr + mgr.trampoSize * i ∧ used = false ∧ stamp = 0) ∨
        mgr.Slot a used stamp := by
  have hflag : ∀ i, flag (mgr.newPage ptr).flags i = false := fun i => flag_replicate _ i
  have hstamp : ∀ i, (mgr.newPage ptr).timestamps.getD i 0 = 0 := by
    intro i
    rw [newPage, List.getD_eq_getElem?_getD]
    simp only
    split_ifs
    · rw [List.getElem?_replicate]
      split_ifs <;> rfl
    · rfl
  constructor
  · rintro ⟨page, hpage, i, hi, rfl, rfl, rfl⟩
    rcases List.mem_cons.mp hpage with rfl | hpage
    · exact .inl ⟨i, hi, rfl, hflag i, hstamp i⟩
    · exact .inr ⟨page, hpage, i, hi, rfl, rfl, rfl⟩
  · rintro (⟨i, hi, rfl, rfl, rfl⟩ | ⟨page, hpage, i, hi, rfl, rfl, rfl⟩)
    · exact ⟨_, List.mem_cons_self, i, hi, rfl, hflag i, hstamp i⟩
    · exact ⟨page, List.mem_cons_of_mem _ hpage, i, hi, rfl, rfl, rfl⟩

/-- What comes of a call that hands out a block. -/
structure Allocated (mgr : TrampoMgr) (call : TrampoCall) (ans : TrampoAnswers) (cur : ℕ)
    (mgr' : TrampoMgr) (cleared : ℕ × ℕ) : Prop where
  fits : mgr'.Fits
  size : mgr'.trampoSize = mgr.trampoSize
  delay : mgr'.delaySec = mgr.delaySec
  range : 0 < call.hint → call.hint - call.rangeLow ≤ cur ∧ cur ≤ call.hint + call.rangeHigh
  unused : ∀ u t, mgr.Slot cur u t →
    u = false ∧ (0 < mgr.delaySec → mgr.delaySec < call.now - t)
  taken : ∃ t, mgr'.Slot cur true t
  kept : ∀ a u t, a ≠ cur → mgr.Slot a u t → mgr'.Slot a u t
  others : ∀ a u t, a ≠ cur → mgr'.Slot a u t → mgr.Slot a u t ∨ u = false
  clears : cleared.1 ≤ cur ∧ cur + mgr.trampoSize ≤ cleared.1 + cleared.2
  cleared : cleared = (cur, mgr.trampoSize) ∨
    ∃ ptr, ans.mmap = some ptr ∧ cleared = (ptr, SH_TRAMPO_PAGE_SZ)

theorem range_of_misses (h : call.clamp.misses cur cur = false) (hhint : 0 < call.hint) :
    call.hint - call.rangeLow ≤ cur ∧ cur ≤ call.hint + call.rangeHigh := by
  have hin := of_decide_eq_false h
  simp only [TrampoCall.clamp] at hin
  split_ifs at hin <;> omega

variable {mgr' : TrampoMgr} {ans : TrampoAnswers} {cleared : ℕ × ℕ}

/-- A call that hands out a block takes one that nobody has. -/
theorem allocated_of_ok (h : mgr.Fits) (hfresh : mgr.Fresh ans)
    (halloc : mgr.alloc call ans = (.ok cur, mgr', cleared)) :
    mgr.Allocated call ans cur mgr' cleared := by
  rw [alloc] at halloc
  split at halloc
  · next cur' pages' hfound =>
    obtain ⟨hcur, rfl, rfl⟩ : cur' = cur ∧ _ ∧ _ := by simpa using halloc
    obtain ⟨before, page, after, i, hpages, hi, husable, hslot, rfl⟩ :=
      findUnused_eq_some hfound
    rw [hcur] at hslot
    subst hcur
    have hpage : page ∈ mgr.pages := hpages ▸ List.mem_append_right _ List.mem_cons_self
    have hc := changed_setFlag h hpage hi
    have hslots : ∀ a u t, _ ↔ _ := fun a u t => @Changed.slot mgr page _ before after a i true u
      (page.timestamps.getD i 0) t hc h hpages
    rw [← hslot] at hslots
    rw [usable, ← hslot] at husable
    simp only [Bool.and_eq_true, Bool.not_eq_true', Bool.and_eq_false_iff, Bool.or_eq_false_iff,
      decide_eq_false_iff_not] at husable
    obtain ⟨⟨hflag, hstamp⟩, hmisses⟩ := husable
    refine ⟨hc.fits h hpages, rfl, rfl, range_of_misses hmisses, fun u t hs => ?_,
      ⟨_, (hslots _ _ _).mpr (.inl ⟨rfl, rfl, rfl⟩)⟩,
      fun a u t hne hs => (hslots _ _ _).mpr (.inr ⟨hne, hs⟩), fun a u t hne hs => ?_,
      ⟨Nat.le_refl _, Nat.le_refl _⟩, .inl rfl⟩
    · have hold : mgr.Slot _ (flag page.flags i) (page.timestamps.getD i 0) :=
        ⟨page, hpage, i, hi, hslot, rfl, rfl⟩
      obtain ⟨rfl, rfl⟩ := hs.unique h hold
      refine ⟨hflag, fun hd => ?_⟩
      rcases hstamp with hno | ⟨-, hlt⟩
      · exact absurd hd hno
      · exact Int.not_le.mp hlt
    · rcases (hslots a u t).mp hs with ⟨hsame, -, -⟩ | ⟨-, hs⟩
      · exact absurd hsame hne
      · exact .inl hs
  · rw [allocPage] at halloc
    split at halloc
    · simp at halloc
    · next ptr hmmap =>
      simp only at halloc
      split_ifs at halloc
      · simp at halloc
      · simp at halloc
      · simp at halloc
      · split at halloc
        · simp at halloc
        · next i hfound =>
          split_ifs at halloc with hnull
          · simp at halloc
          obtain ⟨rfl, rfl, rfl⟩ : _ ∧ _ ∧ _ := by simpa using halloc
          have hi : i < mgr.count := List.mem_range.mp (List.mem_of_find?_eq_some hfound)
          have hmisses := List.find?_some hfound
          rw [Bool.not_eq_true'] at hmisses
          have hfits := fits_newPage h (hfresh ptr hmmap)
          have hpage : mgr.newPage ptr ∈ mgr.newPage ptr :: mgr.pages := List.mem_cons_self
          have hc := @changed_setFlag { mgr with pages := mgr.newPage ptr :: mgr.pages } _ i hfits
            hpage hi
          have hfits' := @Changed.fits { mgr with pages := mgr.newPage ptr :: mgr.pages } _ _ []
            mgr.pages i true _ hc hfits rfl
          have hslots : ∀ a u t, _ ↔ _ := fun a u t =>
            @Changed.slot { mgr with pages := mgr.newPage ptr :: mgr.pages } _ _ [] mgr.pages a i
              true u _ t hc hfits rfl
          have hend := end_le hi
          refine ⟨hfits', rfl, rfl,
            range_of_misses hmisses, fun u t hs => ?_,
            ⟨_, (hslots _ _ _).mpr (.inl ⟨rfl, rfl, rfl⟩)⟩,
            fun a u t hne hs => (hslots _ _ _).mpr (.inr ⟨hne, slot_newPage.mpr (.inr hs)⟩),
            fun a u t hne hs => ?_, ⟨by omega, by omega⟩, .inr ⟨ptr, hmmap, rfl⟩⟩
          · obtain ⟨page, hpage', j, hj, hat, -, -⟩ := hs
            refine absurd ?_ (hfresh ptr hmmap page hpage' (ptr + mgr.trampoSize * i)
              (by omega) (by have := h.pos; omega))
            rw [hat]
            exact has_slot hj (Nat.le_refl _) (Nat.lt_add_of_pos_right h.pos)
          · rcases (hslots a u t).mp hs with ⟨hsame, -, -⟩ | ⟨-, hs⟩
            · exact absurd hsame hne
            · rcases slot_newPage.mp hs with ⟨-, -, -, hu, -⟩ | hs
              · exact .inr hu
              · exact .inl hs

end TrampoMgr

end NativeLib.ShadowHook
