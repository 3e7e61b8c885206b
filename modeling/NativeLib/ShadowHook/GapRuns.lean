import Mathlib.Algebra.Group.Nat.Defs
import Mathlib.Tactic.SplitIfs
import NativeLib.ShadowHook.Gaps

/-! That the exits in the gaps of a library stay whole, apart from each other and away from the
segments, and what becomes of the lock of `sh_exit.cpp`. -/

namespace NativeLib.ShadowHook

section

variable {mem mem' : ℕ → BitVec 8} {start start' n a : ℕ} {bytes : List (BitVec 8)}

theorem bytesAt_congr (h : ∀ a, start ≤ a → a < start + n → mem' a = mem a) :
    bytesAt mem' start n = bytesAt mem start n :=
  List.map_congr_left fun i hi => h _ (Nat.le_add_right ..) (by
    have := List.mem_range.mp hi
    omega)

theorem bytesAt_putBytes (hlength : bytes.length = n) :
    bytesAt (putBytes mem start bytes) start n = bytes := by
  subst hlength
  refine List.ext_getElem (by rw [bytesAt, List.length_map, List.length_range]) fun i _ hi => ?_
  simp only [bytesAt, List.getElem_map, List.getElem_range, putBytes]
  rw [if_pos (by omega), Nat.add_sub_cancel_left, List.getD_eq_getElem?_getD,
    List.getElem?_eq_getElem hi, Option.getD_some]

theorem putBytes_out (h : a < start ∨ start + bytes.length ≤ a) :
    putBytes mem start bytes a = mem a := if_neg (by omega)

theorem getElem_bytesAt {i : ℕ} (h : bytesAt mem start n = bytes) (hi : i < n) :
    mem (start + i) = bytes.getD i 0 := by
  have hi' : i < (bytesAt mem start n).length := by
    rwa [bytesAt, List.length_map, List.length_range]
  rw [← h, List.getD_eq_getElem?_getD, List.getElem?_eq_getElem hi', Option.getD_some]
  simp only [bytesAt, List.getElem_map, List.getElem_range]

/-- Where the flag is, there is no room for an exit. -/
theorem not_isZero_of_flag (h : bytesAt mem start 8 = SH_EXIT_CLEAR_FLAG) :
    isZero mem start = false := by
  rw [isZero, decide_eq_false_iff_not]
  intro hzero
  have h₁ := getElem_bytesAt (i := 2) h (by decide)
  have h₂ := getElem_bytesAt (i := 2) hzero (by decide)
  rw [h₁] at h₂
  exact absurd h₂ (by decide)

theorem le_alignEnd_of_pos (x : ℕ) {align : ℕ} (h : 0 < align) : x ≤ alignEnd x align := by
  have hdiv := Nat.div_add_mod (x + align - 1) align
  have hmod := Nat.mod_lt (x + align - 1) h
  rw [alignEnd, Nat.mul_comm]
  omega

theorem alignStart_le (x align : ℕ) : alignStart x align ≤ x := Nat.div_mul_le_self ..

theorem dvd_alignEnd (x align : ℕ) : align ∣ alignEnd x align := Nat.dvd_mul_left ..

end

/-! Where the gaps are. -/

section

variable {base room : ℕ} {byKernel : Bool} {phdrs : List Phdr} {cur p : Phdr} {next : Option Phdr}
  {gap gap' : Gap}

/-- A gap that is taken is of a number of places for exits. -/
structure Gap.Even (gap : Gap) : Prop where
  wide : gap.wide = true
  start : 16 ∣ gap.start
  stop : 16 ∣ gap.stop

theorem Gap.Even.fits (h : gap.Even) : gap.start + 16 ≤ gap.stop := by
  have hwide := h.wide
  have hstart := h.start
  have hstop := h.stop
  rw [Gap.wide] at hwide
  split_ifs at hwide <;> rw [decide_eq_true_eq] at hwide <;> omega

theorem Phdr.gap_start (h : (cur.gap base next).wide = true) :
    cur.stop base ≤ (cur.gap base next).start ∧ 16 ∣ (cur.gap base next).start := by
  simp only [gap] at h ⊢
  split_ifs at h ⊢
  · exact ⟨le_alignEnd_of_pos _ (by decide), dvd_alignEnd ..⟩
  · exact ⟨le_alignEnd_of_pos _ (by decide), dvd_alignEnd ..⟩
  · exact ⟨le_alignEnd_of_pos _ (by decide), Nat.dvd_trans (by decide) (dvd_alignEnd ..)⟩
  · exact absurd h (by decide)

theorem Phdr.gap_stop_none (h : (cur.gap base none).wide = true) :
    (cur.gap base none).stop = pageEnd (cur.stop base) := by
  simp only [gap] at h ⊢
  split_ifs at h ⊢
  · rfl
  · rfl
  · rfl
  · exact absurd h (by decide)

theorem Phdr.gap_stop_some (h : (cur.gap base (some p)).wide = true) :
    (cur.gap base (some p)).stop = pageStart (base + p.vaddr) := by
  simp only [gap] at h ⊢
  split_ifs at h ⊢
  · rfl
  · rfl
  · rfl
  · exact absurd h (by decide)

theorem Phdr.dvd_gap_stop (h : (cur.gap base next).wide = true) :
    16 ∣ (cur.gap base next).stop := by
  have hdvd : ∀ x, 16 ∣ x * 0x1000 := fun x => Nat.dvd_mul_left_of_dvd (by decide) x
  cases next with
  | none => exact (Phdr.gap_stop_none h).symm ▸ hdvd _
  | some q => exact (Phdr.gap_stop_some h).symm ▸ hdvd _

theorem pageStart_le_stop : pageStart (base + p.vaddr) ≤ p.stop base :=
  Nat.le_trans (alignStart_le ..) (Nat.le_add_right ..)

theorem stop_le_pageEnd : p.stop base ≤ pageEnd (p.stop base) := le_alignEnd_of_pos _ (by decide)

/-- The segments from `cur` on. -/
def Ordered (base : ℕ) (phdrs : List Phdr) : Prop :=
  (phdrs.filter (·.load)).Pairwise fun p q => pageEnd (p.stop base) ≤ pageStart (base + q.vaddr)

theorem Ordered.tail (h : Ordered base (cur :: phdrs)) : Ordered base phdrs := by
  rw [Ordered, List.filter_cons] at h
  split_ifs at h
  · exact h.of_cons
  · exact h

theorem Ordered.head (h : Ordered base (cur :: phdrs)) (hload : cur.load = true) :
    ∀ q ∈ phdrs.filter (·.load), pageEnd (cur.stop base) ≤ pageStart (base + q.vaddr) := by
  rw [Ordered, List.filter_cons_of_pos hload] at h
  exact (List.pairwise_cons.mp h).1

/-- The gap that the loop takes from a segment. -/
def gapOf (base : ℕ) (byKernel : Bool) (cur : Phdr) (phdrs : List Phdr) : Gap :=
  cur.gap base (if byKernel then none else phdrs.find? (·.load))

/-- A gap ends before any later segment begins. -/
theorem gapOf_stop_le (h : Ordered base (cur :: phdrs)) (hload : cur.load = true)
    (hwide : (gapOf base byKernel cur phdrs).wide = true) (hp : p ∈ phdrs.filter (·.load)) :
    (gapOf base byKernel cur phdrs).stop ≤ pageStart (base + p.vaddr) := by
  have hpages := h.head hload
  rw [gapOf] at hwide ⊢
  cases byKernel with
  | true => exact Phdr.gap_stop_none hwide ▸ hpages p hp
  | false =>
    have hordered := h.tail
    have hhead : (phdrs.filter (·.load)).head? = phdrs.find? (·.load) := List.head?_filter
    rw [Ordered] at hordered
    rw [if_neg Bool.false_ne_true, ← hhead] at hwide ⊢
    cases hfilter : phdrs.filter (·.load) with
    | nil => exact absurd hp (hfilter ▸ List.not_mem_nil)
    | cons q rest =>
      rw [hfilter] at hp hordered hwide
      rw [List.head?_cons, Phdr.gap_stop_some hwide]
      rcases List.mem_cons.mp hp with rfl | hp
      · exact Nat.le_refl _
      · exact Nat.le_trans pageStart_le_stop
          (Nat.le_trans stop_le_pageEnd ((List.pairwise_cons.mp hordered).1 p hp))

/-- One turn of the loop. -/
theorem getGaps_cons : getGaps base byKernel room (cur :: phdrs) =
    if cur.load = true ∧ (gapOf base byKernel cur phdrs).wide = true then
      gapOf base byKernel cur phdrs ::
        if room ≤ 1 then [] else getGaps base byKernel (room - 1) phdrs
    else getGaps base byKernel room phdrs := by
  rw [getGaps, gapOf]
  cases hload : cur.load with
  | false => simp only [if_true, Bool.false_eq_true, false_and, if_false]
  | true =>
    cases hwide : (cur.gap base (if byKernel then none else phdrs.find? (·.load))).wide with
    | false =>
      simp only [hwide, Bool.true_eq_false, Bool.false_eq_true, if_true, if_false, and_false]
    | true => simp only [hwide, Bool.true_eq_false, if_true, if_false, and_self]

/-- A gap is taken from one of the segments. -/
theorem exists_of_mem_getGaps (h : gap ∈ getGaps base byKernel room phdrs) :
    ∃ pre cur rest, phdrs = pre ++ cur :: rest ∧ cur.load = true ∧ gap.wide = true ∧
      gap = gapOf base byKernel cur rest := by
  induction phdrs generalizing room with
  | nil => exact absurd h List.not_mem_nil
  | cons cur phdrs ih =>
    have hlater : ∀ {room}, gap ∈ getGaps base byKernel room phdrs →
        ∃ pre cur' rest, cur :: phdrs = pre ++ cur' :: rest ∧ cur'.load = true ∧
          gap.wide = true ∧ gap = gapOf base byKernel cur' rest := by
      intro room hmem
      obtain ⟨pre, cur', rest, hphdrs, hfound⟩ := ih hmem
      exact ⟨cur :: pre, cur', rest, congrArg (cur :: ·) hphdrs, hfound⟩
    rw [getGaps_cons] at h
    split_ifs at h with hfound hfull
    · obtain rfl := List.mem_singleton.mp h
      exact ⟨[], cur, phdrs, rfl, hfound.1, hfound.2, rfl⟩
    · rcases List.mem_cons.mp h with rfl | h
      · exact ⟨[], cur, phdrs, rfl, hfound.1, hfound.2, rfl⟩
      · exact hlater h
    · exact hlater h

theorem exists_stop_le (h : gap ∈ getGaps base byKernel room phdrs) :
    gap.Even ∧ ∃ q ∈ phdrs.filter (·.load), q.stop base ≤ gap.start := by
  obtain ⟨pre, cur, rest, rfl, hload, hwide, rfl⟩ := exists_of_mem_getGaps h
  obtain ⟨hle, hdvd⟩ := Phdr.gap_start hwide
  have hmem : cur ∈ pre ++ cur :: rest := List.mem_append_right _ List.mem_cons_self
  exact ⟨⟨hwide, hdvd, Phdr.dvd_gap_stop hwide⟩, cur, List.mem_filter.mpr ⟨hmem, hload⟩, hle⟩

theorem gapOf_stop_le_start (hordered : Ordered base (cur :: phdrs)) (hload : cur.load = true)
    (hwide : (gapOf base byKernel cur phdrs).wide = true)
    (h : gap ∈ getGaps base byKernel room phdrs) :
    (gapOf base byKernel cur phdrs).stop ≤ gap.start := by
  obtain ⟨-, q, hq, hle⟩ := exists_stop_le h
  exact Nat.le_trans (gapOf_stop_le hordered hload hwide hq) (Nat.le_trans pageStart_le_stop hle)

theorem pairwise_getGaps (hordered : Ordered base phdrs) :
    (getGaps base byKernel room phdrs).Pairwise fun gap gap' => gap.stop ≤ gap'.start := by
  induction phdrs generalizing room with
  | nil => exact .nil
  | cons cur phdrs ih =>
    rw [getGaps_cons]
    split_ifs with hfound hfull
    · exact List.pairwise_singleton ..
    · exact .cons (fun gap h => gapOf_stop_le_start hordered hfound.1 hfound.2 h) (ih hordered.tail)
    · exact ih hordered.tail

/-- No gap has a part of a segment. -/
theorem gap_apart (hordered : Ordered base phdrs) (hp : p ∈ phdrs.filter (·.load))
    (h : gap ∈ getGaps base byKernel room phdrs) :
    gap.stop ≤ base + p.vaddr ∨ p.stop base ≤ gap.start := by
  obtain ⟨pre, cur, rest, rfl, hload, hwide, rfl⟩ := exists_of_mem_getGaps h
  have hstart : cur.stop base ≤ (gapOf base byKernel cur rest).start := (Phdr.gap_start hwide).1
  rw [Ordered, List.filter_append, List.pairwise_append] at hordered
  obtain ⟨-, hrest, hpre⟩ := hordered
  rw [List.filter_append, List.mem_append] at hp
  rcases hp with hp | hp
  · have hcur : cur ∈ (cur :: rest).filter (·.load) :=
      List.mem_filter.mpr ⟨List.mem_cons_self, hload⟩
    exact .inr (Nat.le_trans stop_le_pageEnd (Nat.le_trans (hpre p hp cur hcur)
      (Nat.le_trans pageStart_le_stop hstart)))
  · rw [List.filter_cons_of_pos hload] at hp
    rcases List.mem_cons.mp hp with rfl | hp
    · exact .inr hstart
    · exact .inl (Nat.le_trans (gapOf_stop_le hrest hload hwide hp) (alignStart_le ..))

end

/-! One allocation. -/

/-- What is known of the gaps of a library. -/
structure Spaced (gaps : List Gap) : Prop where
  even : ∀ gap ∈ gaps, gap.Even
  pairwise : gaps.Pairwise fun gap gap' => gap.stop ≤ gap'.start

theorem Library.spaced (lib : Library) : Spaced lib.gaps :=
  ⟨fun _ h => (exists_stop_le h).1, pairwise_getGaps lib.ordered⟩

section

variable {gaps : List Gap} {gap gap' : Gap} {ans : GapAnswers} {call : ExitCall}
  {mem mem' old : ℕ → BitVec 8} {exit : ℕ × ExitCode} {exits : List (ℕ × ExitCode)}
  {result : GapResult} {addr a n start : ℕ}

theorem Spaced.apart (h : Spaced gaps) (hgap : gap ∈ gaps) (hgap' : gap' ∈ gaps) :
    gap = gap' ∨ gap.stop ≤ gap'.start ∨ gap'.stop ≤ gap.start :=
  List.Pairwise.forall_of_forall_of_flip
    (R := fun gap gap' => gap = gap' ∨ gap.stop ≤ gap'.start ∨ gap'.stop ≤ gap.start)
    (fun _ _ => .inl rfl) (h.pairwise.imp fun hle => .inr (.inl hle))
    (h.pairwise.imp fun hle => .inr (.inr hle)) hgap hgap'

/-- An exit is in a gap, in which nothing is to be cleared any more. -/
structure Gap.Holds (gap : Gap) (mem : ℕ → BitVec 8) (exit : ℕ × ExitCode) : Prop where
  bytes : bytesAt mem exit.1 SH_EXIT_SZ = exit.2.bytes
  aligned : 16 ∣ exit.1
  low : gap.start ≤ exit.1
  high : exit.1 + 16 ≤ gap.stop
  flag : gap.needFillZero = true →
    bytesAt mem gap.start 8 = SH_EXIT_CLEAR_FLAG ∧ gap.start ≠ exit.1

/-- What holds between the calls, where the memory was `old` before the first of them. -/
structure Keeps (gaps : List Gap) (old mem : ℕ → BitVec 8) (exits : List (ℕ × ExitCode)) :
    Prop where
  outside : ∀ a, (∀ gap ∈ gaps, a < gap.start ∨ gap.stop ≤ a) → mem a = old a
  held : ∀ exit ∈ exits, ∃ gap ∈ gaps, gap.Holds mem exit
  apart : exits.Pairwise fun exit exit' => exit.1 ≠ exit'.1

theorem Gap.Holds.congr (h : gap.Holds mem exit) (hroom : gap.start + 16 ≤ gap.stop)
    (hmem : ∀ a, gap.start ≤ a → a < gap.stop → mem' a = mem a) : gap.Holds mem' exit where
  bytes := by
    have := h.low
    have := h.high
    refine (bytesAt_congr fun a hlow hhigh => hmem a (by omega) ?_).trans h.bytes
    rw [SH_EXIT_SZ] at hhigh
    omega
  aligned := h.aligned
  low := h.low
  high := h.high
  flag hfill := by
    refine ⟨(bytesAt_congr fun a hlow hhigh => hmem a hlow ?_).trans (h.flag hfill).1,
      (h.flag hfill).2⟩
    omega

theorem fill_out (hroom : gap.start + 16 ≤ gap.stop) (ha : a < gap.start ∨ gap.stop ≤ a) :
    gap.fill mem a = mem a := by
  have hflag : SH_EXIT_CLEAR_FLAG.length = 8 := rfl
  rw [Gap.fill, putBytes_out, putBytes_out]
  · rw [List.length_replicate]
    omega
  · omega

theorem fillZero_cases (h : gap.fillZero ans mem = (result, mem')) :
    result = .ok gap.start ∧ bytesAt mem' gap.start 8 = SH_EXIT_CLEAR_FLAG ∧
        (mem' = mem ∨ bytesAt mem gap.start 8 ≠ SH_EXIT_CLEAR_FLAG ∧ mem' = gap.fill mem) ∨
      mem' = mem ∧ (result = .failed ∨ result = .crashed) := by
  rw [Gap.fillZero] at h
  split_ifs at h with hprotect hread hflag hprotect' <;> obtain ⟨rfl, rfl⟩ := Prod.mk.inj h
  · exact .inr ⟨rfl, .inl rfl⟩
  · exact .inr ⟨rfl, .inr rfl⟩
  · exact .inl ⟨rfl, hflag, .inl rfl⟩
  · exact .inr ⟨rfl, .inl rfl⟩
  · exact .inl ⟨rfl, bytesAt_putBytes rfl, .inr ⟨hflag, rfl⟩⟩

/-- A gap is only cleared while no exit is in it. -/
theorem Keeps.fill (h : Keeps gaps old mem exits) (hspaced : Spaced gaps) (hgap : gap ∈ gaps)
    (hfill : gap.needFillZero = true) (hflag : bytesAt mem gap.start 8 ≠ SH_EXIT_CLEAR_FLAG) :
    Keeps gaps old (gap.fill mem) exits where
  outside a ha := (fill_out (hspaced.even gap hgap).fits (ha gap hgap)).trans (h.outside a ha)
  held exit hexit := by
    obtain ⟨gap', hgap', hholds⟩ := h.held exit hexit
    refine ⟨gap', hgap', hholds.congr (hspaced.even gap' hgap').fits fun a hlow hhigh => ?_⟩
    rcases hspaced.apart hgap hgap' with rfl | hapart
    · exact absurd (hholds.flag hfill).1 hflag
    · exact fill_out (hspaced.even gap hgap).fits (by omega)
  apart := h.apart

theorem tryLoop_cases (h : Gap.tryLoop ans call mem n start = (result, mem')) :
    (∃ i < n, result = .ok (start + 16 * i) ∧ isZero mem (start + 16 * i) = true ∧
        mem' = putBytes mem (start + 16 * i) call.exit.bytes) ∨
      mem' = mem ∧ (result = .failed ∨ result = .crashed) := by
  induction n generalizing start with
  | zero =>
    obtain ⟨rfl, rfl⟩ := Prod.mk.inj h
    exact .inr ⟨rfl, .inl rfl⟩
  | succ n ih =>
    rw [Gap.tryLoop] at h
    split_ifs at h with hread hzero hprotect
    · obtain ⟨rfl, rfl⟩ := Prod.mk.inj h
      exact .inr ⟨rfl, .inr rfl⟩
    · rcases ih h with ⟨i, hi, hrest⟩ | hrest
      · refine .inl ⟨i + 1, Nat.succ_lt_succ hi, ?_⟩
        rwa [show start + 16 * (i + 1) = start + SH_EXIT_SZ + 16 * i by rw [SH_EXIT_SZ]; omega]
      · exact .inr hrest
    · obtain ⟨rfl, rfl⟩ := Prod.mk.inj h
      exact .inr ⟨rfl, .inl rfl⟩
    · obtain ⟨rfl, rfl⟩ := Prod.mk.inj h
      exact .inl ⟨0, Nat.succ_pos n, rfl, Bool.not_eq_false _ ▸ hzero, rfl⟩

/-- Where an exit may be for a function at `pc`. -/
def ExitCall.InRange (call : ExitCall) (addr : ℕ) : Prop :=
  call.pc ≤ addr + call.rangeLow ∧ addr ≤ call.pc + call.rangeHigh

theorem tryAlloc_cases (heven : gap.Even) (h : gap.tryAlloc ans call mem = (result, mem')) :
    (∃ addr, result = .ok addr ∧ isZero mem addr = true ∧
        mem' = putBytes mem addr call.exit.bytes ∧ 16 ∣ addr ∧ gap.start ≤ addr ∧
        addr + 16 ≤ gap.stop ∧ call.InRange addr) ∨
      mem' = mem ∧ (result = .failed ∨ result = .crashed) := by
  have hroom := heven.fits
  simp only [Gap.tryAlloc, if_pos call.bound] at h
  generalize hstart : (if call.pc ≥ call.rangeLow then max gap.start (call.pc - call.rangeLow)
    else gap.start) = start at h
  generalize hstop : min (gap.stop - SH_EXIT_SZ) (call.pc + call.rangeHigh) = stop at h
  have hlow : gap.start ≤ start ∧ call.pc ≤ start + call.rangeLow := by
    rw [← hstart]
    split_ifs <;> omega
  have hup := le_alignEnd_of_pos start (show 0 < SH_EXIT_SZ by decide)
  have hdown := alignStart_le stop SH_EXIT_SZ
  split_ifs at h with hempty
  · obtain ⟨rfl, rfl⟩ := Prod.mk.inj h
    exact .inr ⟨rfl, .inl rfl⟩
  · rcases tryLoop_cases h with ⟨i, hi, rfl, hzero, hmem⟩ | hrest
    · refine .inl ⟨_, rfl, hzero, hmem, ?_, ?_, ?_, ?_, ?_⟩
      · exact Nat.dvd_add (dvd_alignEnd ..) (Nat.dvd_mul_right ..)
      all_goals rw [SH_EXIT_SZ] at *; omega
    · exact .inr hrest

/-- Another place is written. -/
theorem Gap.Holds.putBytes {bytes : List (BitVec 8)} (h : gap.Holds mem exit) (heven : gap.Even)
    (hlength : bytes.length = SH_EXIT_SZ) (haddr : 16 ∣ addr) (hne : exit.1 ≠ addr)
    (hstart : gap.needFillZero = true → gap.start ≠ addr) :
    gap.Holds (putBytes mem addr bytes) exit where
  bytes := by
    have := h.aligned
    refine (bytesAt_congr fun a hlow hhigh => putBytes_out ?_).trans h.bytes
    rw [hlength]
    rw [SH_EXIT_SZ] at *
    omega
  aligned := h.aligned
  low := h.low
  high := h.high
  flag hfill := by
    have := heven.start
    have := hstart hfill
    refine ⟨(bytesAt_congr fun a hlow hhigh => putBytes_out ?_).trans (h.flag hfill).1,
      (h.flag hfill).2⟩
    rw [hlength, SH_EXIT_SZ]
    omega

theorem Keeps.place {code : ExitCode} (h : Keeps gaps old mem exits) (hspaced : Spaced gaps)
    (hgap : gap ∈ gaps)
    (hflag : gap.needFillZero = true → bytesAt mem gap.start 8 = SH_EXIT_CLEAR_FLAG)
    (hzero : isZero mem addr = true) (haddr : 16 ∣ addr) (hlow : gap.start ≤ addr)
    (hhigh : addr + 16 ≤ gap.stop) :
    Keeps gaps old (putBytes mem addr code.bytes) ((addr, code) :: exits) := by
  have hbytes : bytesAt mem addr SH_EXIT_SZ = List.replicate SH_EXIT_SZ 0 :=
    of_decide_eq_true hzero
  have hstart : ∀ start, bytesAt mem start 8 = SH_EXIT_CLEAR_FLAG → start ≠ addr := by
    rintro start hflag rfl
    exact Bool.false_ne_true ((not_isZero_of_flag hflag).symm.trans hzero)
  have hne : ∀ exit ∈ exits, exit.1 ≠ addr := by
    rintro exit hexit rfl
    obtain ⟨gap', -, hholds⟩ := h.held exit hexit
    exact exit.2.nonzero (hholds.bytes.symm.trans hbytes)
  refine ⟨fun a ha => ?_, List.forall_mem_cons.mpr ⟨⟨gap, hgap, ?_⟩, fun exit hexit => ?_⟩,
    .cons (fun exit hexit => (hne exit hexit).symm) h.apart⟩
  · have := ha gap hgap
    have hlength := code.length
    rw [SH_EXIT_SZ] at hlength
    rw [putBytes_out (by omega), h.outside a ha]
  · refine ⟨bytesAt_putBytes code.length, haddr, hlow, hhigh, fun hfill => ?_⟩
    have hne := hstart gap.start (hflag hfill)
    have := (hspaced.even gap hgap).start
    refine ⟨(bytesAt_congr fun a hlow' hhigh' => putBytes_out ?_).trans (hflag hfill), hne⟩
    rw [code.length, SH_EXIT_SZ]
    omega
  · obtain ⟨gap', hgap', hholds⟩ := h.held exit hexit
    exact ⟨gap', hgap', hholds.putBytes (hspaced.even gap' hgap') code.length haddr
      (hne exit hexit) fun hfill => hstart gap'.start (hholds.flag hfill).1⟩

theorem Keeps.free (h : Keeps gaps old mem exits) (hspaced : Spaced gaps) (hexit : exit ∈ exits) :
    Keeps gaps old (NativeLib.ShadowHook.putBytes mem exit.1 (List.replicate SH_EXIT_SZ 0))
      (exits.filter (·.1 ≠ exit.1)) := by
  obtain ⟨gap, hgap, hholds⟩ := h.held exit hexit
  have hlow := hholds.low
  have hhigh := hholds.high
  refine ⟨fun a ha => ?_, fun exit' hexit' => ?_, h.apart.filter _⟩
  · have := ha gap hgap
    refine (putBytes_out ?_).trans (h.outside a ha)
    rw [List.length_replicate, SH_EXIT_SZ]
    omega
  · obtain ⟨hexit', hne⟩ := List.mem_filter.mp hexit'
    obtain ⟨gap', hgap', hholds'⟩ := h.held exit' hexit'
    refine ⟨gap', hgap', hholds'.putBytes (hspaced.even gap' hgap') List.length_replicate
      hholds.aligned (of_decide_eq_true hne) fun hfill => ?_⟩
    have hroom := (hspaced.even gap' hgap').fits
    rcases hspaced.apart hgap hgap' with rfl | hapart
    · exact (hholds.flag hfill).2
    · omega

/-- The gap is ready for exits. -/
theorem Keeps.prepare (h : Keeps gaps old mem exits) (hspaced : Spaced gaps) (hgap : gap ∈ gaps)
    (heq : (if gap.needFillZero then gap.fillZero ans mem else (.ok gap.start, mem)) =
      (result, mem')) :
    Keeps gaps old mem' exits ∧ (result = .ok gap.start ∧ (gap.needFillZero = true →
      bytesAt mem' gap.start 8 = SH_EXIT_CLEAR_FLAG) ∨ result = .failed ∨ result = .crashed) := by
  split_ifs at heq with hfill
  · rcases fillZero_cases heq with ⟨hok, hflag, rfl | ⟨hno, rfl⟩⟩ | ⟨rfl, hresult⟩
    · exact ⟨h, .inl ⟨hok, fun _ => hflag⟩⟩
    · exact ⟨h.fill hspaced hgap hfill hno, .inl ⟨hok, fun _ => hflag⟩⟩
    · exact ⟨h, .inr hresult⟩
  · obtain ⟨rfl, rfl⟩ := Prod.mk.inj heq
    exact ⟨h, .inl ⟨rfl, fun hfill' => absurd hfill' hfill⟩⟩

theorem Keeps.allocLoop {rest : List Gap} (h : Keeps gaps old mem exits) (hspaced : Spaced gaps)
    (hrest : ∀ gap ∈ rest, gap ∈ gaps)
    (heq : allocLoop ans call rest mem = (result, mem')) :
    (∃ addr, result = .ok addr ∧ call.InRange addr ∧
      Keeps gaps old mem' ((addr, call.exit) :: exits)) ∨
    (∀ addr, result ≠ .ok addr) ∧ Keeps gaps old mem' exits := by
  induction rest generalizing mem with
  | nil =>
    obtain ⟨rfl, rfl⟩ := Prod.mk.inj heq
    exact .inr ⟨fun _ => nofun, h⟩
  | cons gap rest ih =>
    have hgap := hrest gap List.mem_cons_self
    have hrest' := fun gap' hgap' => hrest gap' (List.mem_cons_of_mem gap hgap')
    rw [NativeLib.ShadowHook.allocLoop] at heq
    generalize hprepare : (if gap.needFillZero = true then gap.fillZero ans mem
      else (GapResult.ok gap.start, mem)) = prepared at heq
    obtain ⟨result₁, mem₁⟩ := prepared
    obtain ⟨hkeeps, ⟨rfl, hflag⟩ | rfl | rfl⟩ := h.prepare hspaced hgap hprepare
    · simp only at heq
      generalize htry : gap.tryAlloc ans call mem₁ = tried at heq
      obtain ⟨result₂, mem₂⟩ := tried
      rcases tryAlloc_cases (hspaced.even gap hgap) htry with
        ⟨addr, rfl, hzero, rfl, haddr, hlow, hhigh, hrange⟩ | ⟨rfl, rfl | rfl⟩
      · obtain ⟨rfl, rfl⟩ := Prod.mk.inj heq
        exact .inl ⟨addr, rfl, hrange, hkeeps.place hspaced hgap hflag hzero haddr hlow hhigh⟩
      · exact ih hkeeps hrest' heq
      · obtain ⟨rfl, rfl⟩ := Prod.mk.inj heq
        exact .inr ⟨fun _ => nofun, hkeeps⟩
    · obtain ⟨rfl, rfl⟩ := Prod.mk.inj heq
      exact .inr ⟨fun _ => nofun, hkeeps⟩
    · obtain ⟨rfl, rfl⟩ := Prod.mk.inj heq
      exact .inr ⟨fun _ => nofun, hkeeps⟩

/-- The gap is to be cleared, and its protection cannot be changed: before the first look at it, or
once that has shown that it is not cleared yet. -/
def Gap.Stuck (gap : Gap) (ans : GapAnswers) (mem : ℕ → BitVec 8) : Prop :=
  gap.needFillZero = true ∧ ans.mprotect gap.start = false ∧
    (gap.readable = false ∨
      ans.readable gap.start = true ∧ bytesAt mem gap.start 8 ≠ SH_EXIT_CLEAR_FLAG)

/-- The gaps before one that is stuck have no room. -/
def GapSystem.Stuck (s : GapSystem) (lib : Library) (call : ExitCall) (ans : GapAnswers) : Prop :=
  ∃ pre gap post mem, lib.gaps = pre ++ gap :: post ∧
    allocLoop ans call pre s.mem = (.failed, mem) ∧ gap.Stuck ans mem

theorem fillZero_failed_iff (hfill : gap.needFillZero = true) :
    (gap.fillZero ans mem).1 = .failed ↔ gap.Stuck ans mem := by
  rw [Gap.fillZero, Gap.Stuck]
  cases gap.readable <;> cases ans.mprotect gap.start <;> cases ans.readable gap.start <;>
    by_cases hflag : bytesAt mem gap.start 8 = SH_EXIT_CLEAR_FLAG <;> simp [hfill, hflag]

theorem Gap.Stuck.prepare (h : gap.Stuck ans mem) :
    (if gap.needFillZero then gap.fillZero ans mem else (.ok gap.start, mem)) = (.failed, mem) := by
  rw [if_pos h.1]
  have hfailed := (fillZero_failed_iff h.1).mpr h
  generalize hfill : gap.fillZero ans mem = prepared at hfailed ⊢
  obtain ⟨result, mem'⟩ := prepared
  obtain rfl : result = .failed := hfailed
  rcases fillZero_cases hfill with ⟨hok, -⟩ | ⟨rfl, -⟩
  · exact GapResult.noConfusion hok
  · rfl

end

/-! Runs. -/

namespace GapSystem

variable {lib : Library} {s s' : GapSystem} {event : GapEvent} {result : GapResult}
  {old mem' : ℕ → BitVec 8} {call : ExitCall} {ans : GapAnswers} {gap : Gap}
  {pre post : List Gap} {addr : ℕ}

theorem alloc_cases (h : Keeps lib.gaps old s.mem s.exits)
    (hstep : s.allocInLibrary lib call ans = some (result, s')) :
    Keeps lib.gaps old s'.mem s'.exits ∧ ∀ addr, result = .ok addr → call.InRange addr := by
  rw [allocInLibrary] at hstep
  split_ifs at hstep
  generalize hloop : allocLoop ans call lib.gaps s.mem = found at hstep
  obtain ⟨result₁, mem₁⟩ := found
  rcases h.allocLoop lib.spaced (fun _ => id) hloop with ⟨addr, rfl, hrange, hkeeps⟩ | ⟨hno, hkeeps⟩
  · obtain ⟨rfl, rfl⟩ := Prod.mk.inj (Option.some.inj hstep)
    exact ⟨hkeeps, fun _ haddr => GapResult.ok.inj haddr ▸ hrange⟩
  · cases result₁ with
    | ok addr => exact absurd rfl (hno addr)
    | failed | crashed | left =>
      obtain ⟨rfl, rfl⟩ := Prod.mk.inj (Option.some.inj hstep)
      exact ⟨hkeeps, fun _ => nofun⟩

theorem step_keeps (h : Keeps lib.gaps old s.mem s.exits)
    (hlive : ∀ exit ans, event = .free exit ans → exit ∈ s.exits)
    (hstep : s.step lib event = some (result, s')) : Keeps lib.gaps old s'.mem s'.exits := by
  cases event with
  | alloc call ans => exact (alloc_cases h hstep).1
  | free exit ans =>
    rw [step, freeInLibrary] at hstep
    split_ifs at hstep <;> obtain ⟨rfl, rfl⟩ := Prod.mk.inj (Option.some.inj hstep)
    · exact h
    · exact h
    · exact h
    · exact h.free lib.spaced (hlive exit ans rfl)

theorem run_keeps (h : Keeps lib.gaps old s.mem s.exits) (hrun : Run lib s s') :
    Keeps lib.gaps old s'.mem s'.exits := by
  induction hrun with
  | nil s => exact h
  | cons hlive hstep hrest ih => exact ih (step_keeps h hlive hstep)

/-- The exits that are in use are what they were when they were written, and nothing of the library
is ever changed. -/
theorem exits_forever (hexits : s.exits = []) (hrun : Run lib s s') :
    (∀ exit ∈ s'.exits, bytesAt s'.mem exit.1 SH_EXIT_SZ = exit.2.bytes ∧
      ∀ p ∈ lib.phdrs, p.load = true →
        exit.1 + SH_EXIT_SZ ≤ lib.base + p.vaddr ∨ p.stop lib.base ≤ exit.1) ∧
    (s'.exits.Pairwise fun exit exit' =>
      exit.1 + SH_EXIT_SZ ≤ exit'.1 ∨ exit'.1 + SH_EXIT_SZ ≤ exit.1) ∧
    (∀ p ∈ lib.phdrs, p.load = true →
      ∀ a, lib.base + p.vaddr ≤ a → a < p.stop lib.base → s'.mem a = s.mem a) ∧
    ∀ call ans addr s'', s'.allocInLibrary lib call ans = some (.ok addr, s'') →
      call.InRange addr := by
  have hnone : Keeps lib.gaps s.mem s.mem s.exits :=
    ⟨fun _ _ => rfl, hexits ▸ List.forall_mem_nil _, hexits ▸ .nil⟩
  have h := run_keeps hnone hrun
  have hapart : ∀ p ∈ lib.phdrs, p.load = true → ∀ gap ∈ lib.gaps,
      gap.stop ≤ lib.base + p.vaddr ∨ p.stop lib.base ≤ gap.start := fun p hp hload gap hgap =>
    gap_apart lib.ordered (List.mem_filter.mpr ⟨hp, hload⟩) hgap
  refine ⟨fun exit hexit => ?_, h.apart.imp_of_mem fun {exit exit'} hexit hexit' hne => ?_,
    fun p hp hload a hlow hhigh => h.outside a fun gap hgap => ?_,
    fun call ans addr s'' hstep => (alloc_cases h hstep).2 addr rfl⟩
  · obtain ⟨gap, hgap, hholds⟩ := h.held exit hexit
    have hlow := hholds.low
    have hhigh := hholds.high
    refine ⟨hholds.bytes, fun p hp hload => ?_⟩
    have := hapart p hp hload gap hgap
    rw [SH_EXIT_SZ]
    omega
  · obtain ⟨gap, -, hholds⟩ := h.held exit hexit
    obtain ⟨gap', -, hholds'⟩ := h.held exit' hexit'
    have haligned := hholds.aligned
    have haligned' := hholds'.aligned
    rw [SH_EXIT_SZ]
    omega
  · have := hapart p hp hload gap hgap
    omega

/-- Code and, three pages on, data. -/
def gapLibrary : Library where
  base := 0x10000
  phdrs := [⟨true, true, true, 0, 0xF00, 0xF00⟩, ⟨true, false, true, 0x3000, 0x100, 0x100⟩]
  byKernel := false
  ordered := by decide
  bound := by decide

def gapCall : ExitCall where
  pc := 0x10100
  rangeLow := SH_INST_A64_B_RANGE_LOW
  rangeHigh := SH_INST_A64_B_RANGE_HIGH
  exit :=
    { bytes := [0x51, 0, 0, 0x58, 0x20, 0x02, 0x1F, 0xD6, 0, 0, 0x03, 0, 0, 0, 0, 0]
      length := rfl
      nonzero := by decide }
  bound := by decide

def gapFresh : GapSystem := ⟨fun _ => 0, false, []⟩

def gapAlloc : GapEvent := .alloc gapCall ⟨fun _ => true, fun _ => true⟩

theorem gapAlloc_exits : (gapFresh.step gapLibrary gapAlloc).map (·.2.exits) =
    some [(0x10F10, gapCall.exit)] := by decide +kernel

def gapFree : GapEvent := .free (0x10F10, gapCall.exit) ⟨fun _ => true, fun _ => true⟩

theorem gapRun_exits :
    ((gapFresh.step gapLibrary gapAlloc).bind fun first =>
      (first.2.step gapLibrary gapAlloc).bind fun second =>
        (second.2.step gapLibrary gapFree).map fun third => (second.2.exits, third.2.exits)) =
    some ([(0x10F20, gapCall.exit), (0x10F10, gapCall.exit)], [(0x10F20, gapCall.exit)]) := by
  decide +kernel

/-- Two exits, which leave out the place with the flag, and the first of them given back. -/
theorem gapFresh_exits :
    ∃ s', Run gapLibrary gapFresh s' ∧ s'.exits = [(0x10F20, gapCall.exit)] ∧
      bytesAt s'.mem 0x10F20 SH_EXIT_SZ = gapCall.exit.bytes ∧
      ∀ p ∈ gapLibrary.phdrs, p.load = true →
        ∀ a, gapLibrary.base + p.vaddr ≤ a → a < p.stop gapLibrary.base → s'.mem a = 0 := by
  obtain ⟨⟨_, s₁⟩, hfirst, hrest⟩ := Option.bind_eq_some_iff.mp gapRun_exits
  obtain ⟨⟨_, s₂⟩, hsecond, hrest⟩ := Option.bind_eq_some_iff.mp hrest
  obtain ⟨⟨_, s₃⟩, hthird, hexits⟩ := Option.map_eq_some_iff.mp hrest
  obtain ⟨hexits₂, hexits₃⟩ := Prod.mk.inj hexits
  have hlive : ∀ exit ans, gapFree = .free exit ans → exit ∈ s₂.exits := by
    intro exit ans h
    obtain ⟨rfl, -⟩ := GapEvent.free.inj h
    rw [hexits₂]
    exact List.mem_cons_of_mem _ List.mem_cons_self
  have hrun : Run gapLibrary gapFresh s₃ :=
    .cons (fun _ _ h => by cases h) hfirst (.cons (fun _ _ h => by cases h) hsecond
      (.cons hlive hthird (.nil _)))
  obtain ⟨hbytes, -, hlibrary, -⟩ := exits_forever rfl hrun
  refine ⟨s₃, hrun, hexits₃, (hbytes (0x10F20, gapCall.exit) ?_).1, hlibrary⟩
  rw [hexits₃]
  exact List.mem_cons_self

end GapSystem

end NativeLib.ShadowHook
