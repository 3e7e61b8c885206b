import NativeLib.HideMaps.Preservation

/-! What `riru_hide` leaves behind when calls may fail. It does not take up mappings that
cannot be read, and they stay as they are. Of the others one keeps its name only where its
own `munmap` was not carried out, or where the parser cut the name. -/

namespace NativeLib.HideMaps

open Interaction Memory ProcMaps
open Prog (call wp_bind wp_mono wp_forEach)

variable {abi : Abi} {M M₀ : Mem} {m : Mapping abi.limit}

/-- What was mapped outside the range of `m` is as it was. -/
structure Framed (m : Mapping abi.limit) (M₀ M : Mem) : Prop where
  kept : ∀ a c, M₀ a = some c → ¬ m.Has a → M a = some c
  bounded : M.Bounded abi.limit

/-- A call that touches nothing mapped outside the range. -/
theorem Framed.step {c : KernelCall} {r : KAnswer} {M' : Mem} (h : Framed m M₀ M)
    (hstep : KStep abi.limit M c r M')
    (hc : ∀ a x, M₀ a = some x → ¬ m.Has a → ¬ c.Touches a) : Framed m M₀ M' :=
  ⟨fun a x hx hm => hstep.frame (h.kept a x hx hm) (hc a x hx hm), hstep.bounded h.bounded⟩

theorem framed_failureReturn {wrapper : KAnswer → abi.Long} {c : KernelCall}
    {next : abi.Long → KernelProg ℕ} (h : Framed m M₀ M) (hc : ∀ a, c.Touches a → m.Has a)
    (hnext : ∀ rc M', Framed m M₀ M' → (next rc).wp (KStep abi.limit) (fun _ => False) M'
      fun _ _ M' => Framed m M₀ M') :
    (failureReturn wrapper c next).wp (KStep abi.limit) (fun _ => False) M
      fun _ _ M' => Framed m M₀ M' := by
  rw [failureReturn_eq, Prog.wp_ask]
  refine ⟨False.elim, ?_⟩
  intro r M' hstep
  have hM' := h.step hstep fun a _ _ hm ht => hm (hc a ht)
  split
  · exact hM'
  · exact hnext _ M' hM'

theorem framed_failureReturnUnless {wrapper : KAnswer → abi.Long} {flag : Bool}
    {c : KernelCall} {next : KernelProg ℕ} (h : Framed m M₀ M)
    (hc : ∀ a, c.Touches a → m.Has a)
    (hnext : ∀ M', Framed m M₀ M' → next.wp (KStep abi.limit) (fun _ => False) M'
      fun _ _ M' => Framed m M₀ M') :
    (failureReturnUnless flag wrapper c next).wp (KStep abi.limit) (fun _ => False) M
      fun _ _ M' => Framed m M₀ M' := by
  unfold failureReturnUnless
  split
  · exact hnext M h
  · exact framed_failureReturn h hc fun _ => hnext

theorem framed_memcpy {dest src n : ℕ} {next : KernelProg ℕ} (h : Framed m M₀ M)
    (hc : ∀ a x, M₀ a = some x → ¬ m.Has a → ¬ Within dest n a)
    (hnext : ∀ M', Framed m M₀ M' → next.wp (KStep abi.limit) (fun _ => False) M'
      fun _ _ M' => Framed m M₀ M') :
    (call (.memcpy dest src n) >>= fun _ => next).wp (KStep abi.limit) (fun _ => False) M
      fun _ _ M' => Framed m M₀ M' := by
  rw [Prog.call_bind, Prog.wp_ask]
  refine ⟨False.elim, ?_⟩
  intro r M' hstep
  exact hnext M' (h.step hstep hc)

/-- Whatever fails, `do_hide` changes nothing that is mapped outside the range. -/
theorem doHide_framed (hb : M.Bounded abi.limit) :
    (doHide abi (record m)).wp (KStep abi.limit) (fun _ => False) M
      fun _ _ M' => Framed m M M' := by
  rw [doHide, remap_record, failureReturn_eq, Prog.wp_ask]
  refine ⟨False.elim, ?_⟩
  intro r M₁ hstep
  have hM₁ : Framed m M M₁ :=
    Framed.step ⟨fun a c hc _ => hc, hb⟩ hstep fun a _ _ _ => id
  have hbackup : ∀ a x, M a = some x → ¬ Within (rawSyscall abi r).toNat m.length a := by
    intro a x hx hw
    have hlegal := legal_of_kstep hstep
    cases hstep with
    | @mapped v _ _ _ hfree hpos hlim =>
      rw [rawSyscall, BitVec.toNat_ofNat, Nat.mod_eq_of_lt (Nat.lt_of_add_right_lt hlegal)] at hw
      simp [hfree a hw] at hx
    | failed _ hpos hle =>
      have hout := hb a ((limit_le_rawSyscall hpos hle).trans hw.1)
      simp [hout] at hx
  split
  · exact hM₁
  apply framed_failureReturnUnless hM₁ fun a => id
  intro M₂ hM₂
  rw [remapBackedUp_record]
  apply framed_memcpy hM₂ fun a x hx _ => hbackup a x hx
  intro M₃ hM₃
  apply framed_failureReturn hM₃ fun a => id
  intro _ M₄ hM₄
  apply framed_failureReturn hM₄ fun a => False.elim
  intro _ M₅ hM₅
  apply framed_failureReturn hM₅ fun a => id
  intro _ M₆ hM₆
  apply framed_memcpy hM₆ fun a _ _ hm => hm
  intro M₇ hM₇
  apply framed_failureReturnUnless hM₇ fun a => id
  exact fun _ h => h

/-- Nor does the loop, outside the ranges it takes up. -/
theorem hideAll_framed {mm : MemoryMap abi.limit} (hidden : List (Mapping abi.limit)) :
    (hideAll hidden).wp (KStep abi.limit) (fun _ => False) mm.mem
      fun _ _ M => M.Bounded abi.limit ∧
        ∀ a c, mm.mem a = some c → (∀ m ∈ hidden, ¬ m.Has a) → M a = some c := by
  refine wp_forEach _ (fun done _ M => M.Bounded abi.limit ∧
    ∀ a c, mm.mem a = some c → (∀ m ∈ done, ¬ m.Has a) → M a = some c) hidden [] [] mm.mem
    ⟨mm.mem_bounded, fun a c hc _ => hc⟩ ?_
  rintro pre m post _ M - ⟨hb, hkept⟩
  rw [wp_bind]
  refine wp_mono (fun _ _ M' hM' => ⟨hM'.bounded, fun a c hc hout => ?_⟩) (doHide_framed hb)
  have hpre : ∀ n ∈ pre, ¬ n.Has a := fun n hn => hout n (List.mem_append_left _ hn)
  exact hM'.kept a c (hkept a c hc hpre) (hout m (by simp))

/-- Once a range was unmapped, nothing in it carries a name again. -/
theorem unmapped_nameless {α : Type} {p : KernelProg α} {s n : ℕ}
    {tr : Trace KernelCall KAnswer} {x : α} {M' : Mem}
    (h : p.Exec (KStep abi.limit) M tr x M') (hmem : (.munmap s n, .ok 0) ∈ tr) :
    ∀ a, Within s n a → ∀ c, M' a = some c → c.path = [] := by
  refine h.inv_from (I := fun M => ∀ a, Within s n a → ∀ c, M a = some c → c.path = [])
    ?_ ?_ hmem
  · intro M M' hstep a ha c hc
    cases hstep
    simp [Mem.unmap_in ha] at hc
  · intro M c r M' hstep ih a ha x hx
    by_contra hne
    obtain ⟨y, hy, hpath⟩ := hstep.named hx hne
    exact hne (hpath ▸ ih a ha y hy)

/-- What carries a name in the end carried it in the beginning. -/
theorem named_before {α : Type} {p : KernelProg α} {tr : Trace KernelCall KAnswer} {x : α}
    {M' : Mem} (h : p.Exec (KStep abi.limit) M tr x M') {a : ℕ} {c : Cell}
    (hc : M' a = some c) (hne : c.path ≠ []) : ∃ y, M a = some y ∧ y.path = c.path := by
  refine h.inv (I := fun M' => ∀ c, M' a = some c → c.path ≠ [] →
    ∃ y, M a = some y ∧ y.path = c.path) ?_ (fun c hc _ => ⟨c, hc, rfl⟩) c hc hne
  intro M₁ cmd r M₂ hstep ih z hz hne
  obtain ⟨y, hy, hpath⟩ := hstep.named hz hne
  obtain ⟨w, hw, hpath'⟩ := ih y hy (hpath ▸ hne)
  exact ⟨w, hw, hpath'.trans hpath⟩

/-- The calls of the loop, cut into those of one run of `do_hide` for each mapping it takes up. -/
structure Rounds (hidden : List (Mapping abi.limit)) (tr : Trace KernelCall KAnswer)
    (rounds : List (Mapping abi.limit × Trace KernelCall KAnswer)) : Prop where
  hidden : rounds.map Prod.fst = hidden
  trace : tr = (rounds.map Prod.snd).flatten
  doHide : ∀ p ∈ rounds, ∃ M ret M', (doHide abi (record p.1)).Exec (KStep abi.limit) M p.2 ret M'

theorem rounds_of_hideAll {hidden : List (Mapping abi.limit)} {tr : Trace KernelCall KAnswer}
    {u : Unit} {M' : Mem} (h : (hideAll hidden).Exec (KStep abi.limit) M tr u M') :
    ∃ rounds, Rounds hidden tr rounds := by
  obtain ⟨rounds, hfst, hsnd, hrounds⟩ := Prog.exec_forEach_parts h
  refine ⟨rounds, hfst, hsnd, fun p hp => ?_⟩
  obtain ⟨s, t, hbody⟩ := hrounds p hp
  obtain ⟨ret, t', tr₁, tr₂, hsplit, hhide, rfl, -⟩ := Prog.exec_bind.mp hbody
  rw [List.append_nil] at hsplit
  exact ⟨s, ret, t', hsplit ▸ hhide⟩

/-- After the loop, whatever its calls were answered: every mapping that was not readable is as it
was, and of the others one carries a name of `names` only if a call failed in its own round or the
name holds a blank. -/
theorem hideAll_hides {mm : MemoryMap abi.limit} {names : Finset (List Char)}
    {tr : Trace KernelCall KAnswer} {u : Unit}
    {rounds : List (Mapping abi.limit × Trace KernelCall KAnswer)}
    (h : (hideAll (takenUp mm names)).Exec (KStep abi.limit) mm.mem tr u M)
    (hrounds : Rounds (takenUp mm names) tr rounds) :
    (∀ m ∈ mm.mappings, m.perms.r = false → ∀ a, m.Has a → M a = some (m.cellAt a)) ∧
      ∀ a c, M a = some c → c.path ≠ [] → c.path ∈ names →
        ∃ m ∈ mm.mappings, m.Has a ∧ m.path = c.path ∧
          (m.perms.r = false ∨ (∃ p ∈ rounds, p.1 = m ∧ CallFailed m p.2) ∨
            ∃ x ∈ m.path, isBlank x = true) := by
  refine ⟨?_, ?_⟩
  · intro m hm hr a ha
    have hframe := Prog.wp_exec (hideAll_framed (takenUp mm names)) h
    refine hframe.2 a _ (mm.mem_has hm ha) fun n hn hna => ?_
    obtain rfl := mm.unique (List.mem_of_mem_filter hn) hm hna ha
    simp [takenUp_readable hn] at hr
  · intro a c hc hne hmem
    obtain ⟨y, hy, hpath⟩ := named_before h hc hne
    obtain ⟨m, hm, ha, rfl⟩ := mm.mem_some hy
    have hpath : m.path = c.path := hpath
    refine ⟨m, hm, ha, hpath, ?_⟩
    by_contra hno
    simp only [not_or, not_exists, not_and, Bool.not_eq_true, Bool.not_eq_false] at hno
    obtain ⟨hr, hcall, hblank⟩ := hno
    have htaken : m ∈ takenUp mm names := by
      rw [takenUp, mem_filter_names hm hr, cutPath_eq hblank, hpath]
      exact hmem
    rw [← hrounds.hidden] at htaken
    obtain ⟨p, hp, rfl⟩ := List.mem_map.mp htaken
    obtain ⟨s, ret, t, hhide⟩ := hrounds.doHide p hp
    rcases doHide_unmaps hr hhide with hfail | hunmap
    · exact hcall p hp rfl hfail
    · have htr : (.munmap p.1.start p.1.length, .ok 0) ∈ tr := by
        rw [hrounds.trace]
        exact List.mem_flatten.mpr ⟨p.2, List.mem_map_of_mem hp, hunmap⟩
      exact hne (unmapped_nameless h htr a ha c hc)

/-- After `riru_hide` returned true, whatever its calls were answered: every mapping that was
not readable is as it was, and of the others one carries a name of `names` only if its own `munmap`
or its own backup failed or the name holds a blank. -/
theorem riruHide_hides {mm : MemoryMap abi.limit} {lines : List Line} {alloc : ℕ → Ptr}
    {maps : Option (NodeHeap × ProcmapsIterator)} {fuel : ℕ} {libc : Ptr}
    {names : Finset (List Char)} {tr : Trace KernelCall KAnswer} {M : Mem}
    (hlist : Listing mm.mappings lines) (hinj : Function.Injective alloc)
    (hne : ∀ i, alloc i ≠ nullptr)
    (hparse : ∀ parsed, maps = some parsed →
      pmparserParse abi alloc lines.flatten = some parsed)
    (h : (riruHide abi fuel maps libc names).Exec (KStep abi.limit) mm.mem tr (some true) M) :
    ∃ rounds, Rounds (takenUp mm names) tr rounds ∧
      (∀ m ∈ mm.mappings, m.perms.r = false → ∀ a, m.Has a → M a = some (m.cellAt a)) ∧
        ∀ a c, M a = some c → c.path ≠ [] → c.path ∈ names →
          ∃ m ∈ mm.mappings, m.Has a ∧ m.path = c.path ∧
            (m.perms.r = false ∨ (∃ p ∈ rounds, p.1 = m ∧ CallFailed m p.2) ∨
              ∃ x ∈ m.path, isBlank x = true) := by
  cases maps with
  | none => exact absurd h.2.1 (by simp)
  | some parsed =>
    have hparse := hparse parsed rfl
    have hlibc : libc ≠ nullptr := by
      rintro rfl
      exact absurd h.2.1 (by simp)
    have hone : mm.mappings.length ≠ 1 := by
      intro hone
      rw [riruHide_one hlist hinj hne hlibc hone hparse] at h
      exact absurd h.2.1 (by simp)
    obtain ⟨hlt, hshort⟩ := hlist.of_parsed hparse
    obtain ⟨parsed', hparse', hloop⟩ := riruHide_list hlist hinj hne hlibc hone hlt hshort
    obtain rfl : parsed = parsed' := Option.some.inj (hparse.symm.trans hparse')
    rw [hloop] at h
    split_ifs at h
    · obtain ⟨u, M', tr₁, tr₂, rfl, hall, rfl, -, rfl⟩ := Prog.exec_bind.mp h
      obtain ⟨rounds, hrounds⟩ := rounds_of_hideAll hall
      rw [List.append_nil]
      exact ⟨rounds, hrounds, hideAll_hides hall hrounds⟩
    · exact absurd h.2.1 (by simp)

/-- A run on a readable library in which no call fails. -/
theorem riruHide_hides_codePage : ∃ maps tr M,
    pmparserParse .aarch64 blocks (mapsLines besideCode.mappings).flatten = some maps ∧
      (riruHide .aarch64 3 (some maps) 1 {codePage.path}).Exec (KStep (Abi.limit .aarch64))
        besideCode.mem tr (some true) M ∧
      ∀ a c, M a = some c → c.path ≠ codePage.path := by
  have hlist := listing_mapsLines besideCode.mappings
  obtain ⟨maps, hparse, hloop⟩ := riruHide_list hlist blocks_injective blocks_ne
    (show (1 : Ptr) ≠ nullptr by decide) (by decide) (by decide)
    (besideOwn_short rfl page_length (show codePage.path.length < 900 by decide))
  obtain ⟨tr, u, M, hcalm⟩ := besideCode_runs
  have hrun : (riruHide .aarch64 3 (some maps) 1 {codePage.path}).Exec
      (KStep (Abi.limit .aarch64)) besideCode.mem tr (some true) M := by
    rw [hloop, if_pos (by decide)]
    exact exec_hideAll_true (hcalm.mono id fun _ _ _ _ h => h.step)
  refine ⟨maps, tr, M, hparse, hrun, ?_⟩
  intro a c hc hpath
  have hne : c.path ≠ [] := by
    rw [hpath]
    decide
  obtain ⟨rounds, hrounds, -, hhides⟩ := riruHide_hides hlist blocks_injective blocks_ne
    (fun parsed heq => Option.some.inj heq ▸ hparse) hrun
  obtain ⟨m, hm, -, hname, hwhy⟩ := hhides a c hc hne (Finset.mem_singleton.mpr hpath)
  obtain rfl : m = codePage := by
    rcases List.mem_pair.mp hm with rfl | rfl
    · rfl
    · exact absurd (hname.trans hpath) (by decide)
  rcases hwhy with hr | ⟨p, hp, -, e, hfailed⟩ | hblank
  · exact absurd hr (by decide)
  · have hcalls := hcalm.forall_trace (P := fun _ r => ∀ e, r ≠ .err e) fun _ _ _ _ h => h.calm
    rw [hrounds.trace] at hcalls
    have hin : ∀ x ∈ p.2, x ∈ (rounds.map Prod.snd).flatten :=
      fun x hx => List.mem_flatten.mpr ⟨p.2, List.mem_map_of_mem hp, hx⟩
    rcases hfailed with hfailed | hfailed
    · exact hcalls _ (hin _ hfailed) e rfl
    · exact hcalls _ (hin _ hfailed) e rfl
  · exact absurd (List.any_eq_true.mpr hblank) (by decide)

/-- A segment of a library that may not be accessed, as a linker leaves between others. -/
def gapPage : Mapping (Abi.limit .aarch64) :=
  page ⟨false, false, false⟩ "/data/app/libapp.so".toList newline_notMem_libapp nul_notMem_libapp

def besideGap : MemoryMap (Abi.limit .aarch64) := besideOwn gapPage rfl page_length

/-- It is not taken up, and keeps its name. -/
theorem riruHide_leaves_unreadable :
    ¬ ∀ (mm : MemoryMap (Abi.limit .aarch64)) lines maps names fuel tr M,
      Listing mm.mappings lines → pmparserParse .aarch64 blocks lines.flatten = some maps →
      (riruHide .aarch64 fuel (some maps) 1 names).Exec (KStep (Abi.limit .aarch64)) mm.mem tr
        (some true) M →
      ∀ a c, M a = some c → c.path ≠ [] → c.path ∉ names := by
  intro hall
  have hlist := listing_mapsLines besideGap.mappings
  have hmem : gapPage ∈ besideGap.mappings := List.mem_cons_self
  have htaken : takenUp besideGap {gapPage.path} = [] := by decide
  obtain ⟨maps, hparse, hloop⟩ := riruHide_list hlist blocks_injective blocks_ne
    (show (1 : Ptr) ≠ nullptr by decide) (by decide) (by decide)
    (besideOwn_short rfl page_length (show gapPage.path.length < 900 by decide))
  have hrun : (riruHide .aarch64 3 (some maps) 1 {gapPage.path}).Exec
      (KStep (Abi.limit .aarch64)) besideGap.mem [] (some true) besideGap.mem := by
    rw [hloop, htaken]
    exact ⟨rfl, rfl, rfl⟩
  have hcell := besideGap.mem_has hmem gapPage.has_start
  have hne : (gapPage.cellAt gapPage.start).path ≠ [] := show gapPage.path ≠ [] by decide
  exact hall _ _ maps _ _ _ _ hlist hparse hrun _ _ hcell hne (Finset.mem_singleton_self _)

end NativeLib.HideMaps
