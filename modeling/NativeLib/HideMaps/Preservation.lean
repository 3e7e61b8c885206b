import NativeLib.HideMaps.Backups

/-! What `riru_hide` does to the memory map when no call fails. Every mapping it takes up is
hidden as it should be, and all others are left alone, as long as the process does not live on one
of them itself. Which ones it takes up is decided by the name that the parser keeps, and whether it
comes to an end by the list that the parser builds. -/

namespace NativeLib.HideMaps

open Interaction Memory ProcMaps
open Prog (call forEach wp_bind wp_mono wp_forEach)

variable {abi : Abi} {own : Set ℕ} {M : Mem} {m : Mapping abi.limit}

/-- The commands that the process has to come back from: all but the search for a place, since the
kernel may have none. -/
def mustAnswer : KernelCall → Prop
  | .mmap addr _ _ => addr ≠ 0
  | _ => True

/-- A call that succeeds in a calm kernel, its hint honoured if it has one. -/
theorem calm_ok {c : KernelCall} {v : ℕ} {M' : Mem} (h : KStep abi.limit M c (.ok v) M')
    (hhint : ∀ addr length prot, c = .mmap addr length prot → addr = 0 ∨ addr = v) :
    CalmStep abi.limit M c (.ok v) M' := by
  refine ⟨h, by simp, ?_⟩
  intro addr length prot hc hne _ _
  rw [(hhint addr length prot hc).resolve_left hne]

/-- The rule for a checked system call where no call fails. -/
theorem wp_live {c : KernelCall} {next : abi.Long → KernelProg ℕ}
    {Q : Trace KernelCall KAnswer → ℕ → Mem → Prop}
    (hgo : mustAnswer c → ∃ v M', LiveStep own abi.limit M c (.ok v) M')
    (hok : ∀ v M', LiveStep own abi.limit M c (.ok v) M' → v < 2 ^ abi.bits →
      (next (BitVec.ofNat _ v)).wp (LiveStep own abi.limit) mustAnswer M'
        fun tr ret u => Q ((c, .ok v) :: tr) ret u) :
    (failureReturn (rawSyscall abi) c next).wp (LiveStep own abi.limit) mustAnswer M Q := by
  rw [failureReturn_eq, Prog.wp_ask]
  refine ⟨fun hmust => ?_, ?_⟩
  · obtain ⟨v, M', hstep⟩ := hgo hmust
    exact ⟨.ok v, M', hstep⟩
  intro r M' hstep
  have hlegal := legal_of_kstep hstep.step
  cases r with
  | err e => exact absurd rfl (hstep.calm e)
  | ok v =>
    have hne : rawSyscall abi (.ok v) ≠ MAP_FAILED abi := ofNat_ne_failed hlegal
    rw [if_neg hne]
    exact hok v M' hstep (Nat.lt_of_add_right_lt hlegal)

/-- The rule for a change of permissions of what is mapped. -/
theorem wp_live_mprotect {addr length prot : ℕ} {next : abi.Long → KernelProg ℕ}
    {Q : Trace KernelCall KAnswer → ℕ → Mem → Prop} (h : M.All (fun _ => True) addr length)
    (hnext : (next (BitVec.ofNat _ 0)).wp (LiveStep own abi.limit) mustAnswer
      (M.protect addr length (.ofProt prot))
        fun tr ret u => Q ((.mprotect addr length prot, .ok 0) :: tr) ret u) :
    (failureReturn (rawSyscall abi) (.mprotect addr length prot) next).wp
      (LiveStep own abi.limit) mustAnswer M Q := by
  refine wp_live (fun _ => ⟨0, _, calm_ok (.permitted prot h) (by simp), by simp⟩) ?_
  intro v M' hstep _
  cases hstep.step
  exact hnext

/-- The rule for a copy: both ranges have to allow it. -/
theorem wp_live_memcpy {dest src n : ℕ} {next : KernelProg ℕ}
    {Q : Trace KernelCall KAnswer → ℕ → Mem → Prop} (hsrc : M.All (·.perms.r = true) src n)
    (hdest : M.All (·.perms.w = true) dest n)
    (h : next.wp (LiveStep own abi.limit) mustAnswer (M.copy dest src n)
      fun tr ret u => Q ((.memcpy dest src n, .ok 0) :: tr) ret u) :
    (call (.memcpy dest src n) >>= fun _ => next).wp (LiveStep own abi.limit) mustAnswer M Q := by
  rw [Prog.call_bind, Prog.wp_ask]
  refine ⟨fun _ => ⟨.ok 0, _, calm_ok (.copied hsrc hdest) (by simp), by simp⟩, ?_⟩
  intro r M' hstep
  cases hstep.step with
  | copied => exact h
  | failed hc => simp [KernelCall.isSyscall] at hc

/-- A readable mapping that the process does not live on is hidden. -/
theorem doHide_live (h : ∀ a, m.Has a → M a = some (m.cellAt a)) (hr : m.perms.r = true)
    (hown : ∀ a ∈ own, ¬ m.Has a) :
    (doHide abi (record m)).wp (LiveStep own abi.limit) mustAnswer M
      fun _ ret M' => ret = 0 ∧ ∃ b, Moved M m b M' := by
  have hrw : Perms.ofProt (PROT_READ ||| PROT_WRITE) = readWrite := by decide
  rw [doHide, remap_record]
  refine wp_live (fun hmust => absurd rfl hmust) ?_
  intro b M₁ hstep hb
  cases hstep.step with
  | mapped _ _ hfree hpos hlim =>
  rw [hrw, BitVec.toNat_ofNat, Nat.mod_eq_of_lt hb, failureReturnUnless, if_pos hr,
    remapBackedUp_record]
  have hplaced := stage_place h hfree
  apply wp_live_memcpy
  · exact fun a ha => ⟨_, hplaced.range a ha, hr⟩
  · exact fun a ha => ⟨_, hplaced.backup a ha, rfl⟩
  have hcopied := hplaced.copyOut
  refine wp_live (fun _ => ⟨0, _, calm_ok (.unmapped _ _) (by simp), ?_⟩) ?_
  · intro addr length heq
    obtain ⟨rfl, rfl⟩ := KernelCall.munmap.inj heq
    exact hown
  intro _ M₂ hstep _
  cases hstep.step
  have hgone := hcopied.unmap
  refine wp_live (fun _ => ⟨m.start, _, calm_ok (.mapped _ _ hgone.range m.start_pos m.le_limit)
    (by simp), by simp⟩) ?_
  intro v M₃ hstep _
  have hv : v = m.start := by
    have hhint := hstep.hint _ _ _ rfl (Nat.ne_of_gt m.start_pos) hgone.range m.le_limit
    exact KAnswer.ok.inj hhint
  subst hv
  cases hstep.step
  rw [ofProt_getProt]
  have hrestored := hgone.restore m.perms
  apply wp_live_mprotect fun a ha => ⟨_, hrestored.range a ha, trivial⟩
  rw [ofProt_getProt_write]
  have hwritable := hrestored.protect { m.perms with w := true }
  apply wp_live_memcpy
  · exact fun a ha => ⟨_, hwritable.backup a ha, rfl⟩
  · exact fun a ha => ⟨_, hwritable.range a ha, rfl⟩
  have hback := hwritable.copyBack
  unfold failureReturnUnless
  split
  · next hw =>
    have hperms : { m.perms with w := true } = m.perms := by rw [← hw]
    refine ⟨rfl, b, hfree, hback.congr fun a ha => ?_⟩
    rw [source_back ha, hperms]
    rfl
  · apply wp_live_mprotect fun a ha => ⟨_, hback.range a ha, trivial⟩
    rw [ofProt_getProt]
    have hdone := hback.protect m.perms
    refine ⟨rfl, b, hfree, hdone.congr fun a ha => ?_⟩
    rw [Option.map_some, source_back ha]
    rfl

/-- The mappings the loop takes up. -/
def takenUp (mm : MemoryMap abi.limit) (names : Finset (List Char)) : List (Mapping abi.limit) :=
  mm.mappings.filter fun m => decide (cutPath m.path ∈ names) && m.perms.r

/-- The mappings it is meant to hide. -/
def meant (mm : MemoryMap abi.limit) (names : Finset (List Char)) : List (Mapping abi.limit) :=
  mm.mappings.filter fun m => decide (m.path ∈ names) && m.perms.r

/-- The mappings of `hidden` are anonymous, with their bytes and permissions; every other one
is as it was; and nothing is new but a backup of each of `hidden`, apart from all the rest. -/
def Preserves (mm : MemoryMap abi.limit) (hidden : List (Mapping abi.limit)) (M : Mem) : Prop :=
  ∃ copies, copies.map Prod.fst = hidden ∧ Copies mm copies M

/-- `do_hide` of one mapping after the other. -/
def hideAll (ms : List (Mapping abi.limit)) : KernelProg Unit :=
  forEach (fun m => do let _ ← doHide abi (record m)) ms

/-- What `riru_hide` does with the list adds the result. -/
theorem exec_hideAll_true {σ : Type} {env : σ → KernelCall → KAnswer → σ → Prop}
    {ms : List (Mapping abi.limit)} {s t : σ} {tr : Trace KernelCall KAnswer} {u : Unit}
    (h : (hideAll ms).Exec env s tr u t) :
    (hideAll ms >>= fun _ => pure (some true)).Exec env s tr (some true) t :=
  Prog.exec_bind.mpr ⟨u, t, tr, [], (List.append_nil tr).symm, h, rfl, rfl, rfl⟩

/-- The loop hides one mapping after the other. -/
theorem hideAll_live {mm : MemoryMap abi.limit} {hidden : List (Mapping abi.limit)}
    (hsub : hidden.Sublist mm.mappings) (hr : ∀ m ∈ hidden, m.perms.r = true)
    (hown : ∀ m ∈ hidden, ∀ a ∈ own, ¬ m.Has a) :
    (hideAll hidden).wp (LiveStep own abi.limit) mustAnswer mm.mem
      fun _ _ M => Preserves mm hidden M := by
  have hnodup : hidden.Nodup := mm.nodup.sublist hsub
  refine wp_forEach _ (fun done _ M => Preserves mm done M) hidden [] [] mm.mem
    ⟨[], rfl, copies_nil mm⟩ ?_
  rintro pre m post _ M hsplit ⟨copies, hfst, hc⟩
  have hsplit : hidden = pre ++ m :: post := hsplit
  have hmem : m ∈ hidden := by simp [hsplit]
  have hm : m ∈ mm.mappings := hsub.subset hmem
  have hnew : m ∉ copies.map Prod.fst := by
    rw [hfst]
    rw [hsplit, List.nodup_append] at hnodup
    exact fun hpre => hnodup.2.2 m hpre m (List.mem_cons_self ..) rfl
  rw [wp_bind]
  refine wp_mono (fun _ _ M' hdone => ?_)
    (doHide_live (hc.kept m hm hnew) (hr m hmem) (hown m hmem))
  obtain ⟨-, b, hmove⟩ := hdone
  exact ⟨copies ++ [(m, b)], by simp [hfst], hc.snoc hm hnew hmove⟩

theorem takenUp_readable {mm : MemoryMap abi.limit} {names : Finset (List Char)}
    (hm : m ∈ takenUp mm names) : m.perms.r = true := by
  have hsel := (List.mem_filter.mp hm).2
  rw [Bool.and_eq_true] at hsel
  exact hsel.2

/-! The list of `pmparser_parse`. -/

section List

variable {names : Finset (List Char)} {heap : NodeHeap} {it : ProcmapsIterator}
  {mm : MemoryMap abi.limit} {lines : List Line} {alloc : ℕ → Ptr} {libc : Ptr}

/-- The loop picks the records of a list that ends, if it has the fuel for it. -/
theorem itemLoop_holds {rs : List ProcmapsStruct} (fuel : ℕ) (items : List ProcmapsStruct)
    (h : heap.Holds it.current rs) :
    itemLoop names heap fuel it items =
      if rs.length < fuel then
        some (items ++ rs.filter fun r => decide (r.pathname ∈ names) && r.isR)
      else none := by
  induction fuel generalizing rs it items with
  | zero => rfl
  | succ fuel ih =>
    cases rs with
    | nil => simp [itemLoop, h.next_nil]
    | cons r rs =>
      obtain ⟨p, node, it', hnext, hp, hnode, rfl, hrest⟩ := h.next_cons
      simp only [itemLoop, hnext, if_neg hp, hnode, Option.bind_eq_bind, Option.bind_some,
        ih _ hrest, List.length_cons, Nat.succ_lt_succ_iff, List.filter_cons]
      split_ifs <;> simp

/-- It does not end on a record that points to itself. -/
theorem itemLoop_loops (h : heap.Loops it.current) (fuel : ℕ) (items : List ProcmapsStruct) :
    itemLoop names heap fuel it items = none := by
  obtain ⟨hp, node, hnode, -⟩ := id h
  induction fuel generalizing items with
  | zero => rfl
  | succ fuel ih =>
    simp only [itemLoop, h.next, if_neg hp, hnode, Option.bind_eq_bind, Option.bind_some, ih]

/-- `riru_hide` on the records of a memory map. -/
theorem riruHide_holds (h : heap.Holds it.current (mm.mappings.map record)) (hlibc : libc ≠ nullptr)
    (fuel : ℕ) :
    riruHide abi fuel (some (heap, it)) libc names =
      if mm.mappings.length < fuel then hideAll (takenUp mm names) >>= fun _ => pure (some true)
      else pure none := by
  have hitems : (mm.mappings.map record).filter (fun r => decide (r.pathname ∈ names) && r.isR) =
      (takenUp mm names).map record := by
    rw [List.filter_map]
    rfl
  simp only [riruHide, if_neg hlibc, itemLoop_holds fuel [] h, List.length_map, List.nil_append,
    hitems]
  split_ifs
  · simp only [Prog.forEach_map]
    rfl
  · rfl

/-- The same on what `pmparser_parse` makes of the maps file, unless that is a cycle. -/
theorem riruHide_list (hlist : Listing mm.mappings lines) (hinj : Function.Injective alloc)
    (hne : ∀ i, alloc i ≠ nullptr) (hlibc : libc ≠ nullptr) (hone : mm.mappings.length ≠ 1)
    (hlt : mm.mappings.length < 2 ^ 31) (hshort : ∀ line ∈ lines, line.length < 1024) :
    ∃ maps, pmparserParse abi alloc lines.flatten = some maps ∧ ∀ names fuel,
      riruHide abi fuel (some maps) libc names =
        if mm.mappings.length < fuel then hideAll (takenUp mm names) >>= fun _ => pure (some true)
        else pure none := by
  obtain ⟨heap, it, hparse, hholds⟩ := hlist.holds hinj hne hone hlt hshort
  exact ⟨(heap, it), hparse, fun names fuel => riruHide_holds hholds hlibc fuel⟩

/-- On a single mapping `riru_hide` does not return. -/
theorem riruHide_one (hlist : Listing mm.mappings lines) (hinj : Function.Injective alloc)
    (hne : ∀ i, alloc i ≠ nullptr) (hlibc : libc ≠ nullptr) (hone : mm.mappings.length = 1)
    {maps : NodeHeap × ProcmapsIterator}
    (hparse : pmparserParse abi alloc lines.flatten = some maps) (fuel : ℕ) :
    riruHide abi fuel (some maps) libc names = pure none := by
  obtain ⟨heap, it⟩ := maps
  simp only [riruHide, if_neg hlibc, itemLoop_loops (hlist.loops hinj hne hone hparse)]

end List

/-- A mapping with a name shows whether it was hidden. -/
theorem Preserves.hidden_iff {mm : MemoryMap abi.limit} {hidden : List (Mapping abi.limit)}
    (h : Preserves mm hidden M) (hm : m ∈ mm.mappings) (hname : m.path ≠ []) :
    m ∈ hidden ↔ M m.start = some (anonymousAt m m.start) := by
  obtain ⟨copies, rfl, hc⟩ := h
  refine ⟨?_, ?_⟩
  · intro hmem
    obtain ⟨p, hp, rfl⟩ := List.mem_map.mp hmem
    exact hc.moved p hp _ p.1.has_start
  · intro hanon
    by_contra hout
    rw [hc.kept m hm hout _ m.has_start, Option.some_inj] at hanon
    exact hname (congrArg Cell.path hanon)

theorem mem_filter_names {mm : MemoryMap abi.limit} {name : Mapping abi.limit → List Char}
    {names : Finset (List Char)} (hm : m ∈ mm.mappings) (hr : m.perms.r = true) :
    m ∈ mm.mappings.filter (fun m => decide (name m ∈ names) && m.perms.r) ↔
      name m ∈ names := by
  simp [hm, hr]

theorem preserves_meant_iff {mm : MemoryMap abi.limit} {names : Finset (List Char)}
    (h : Preserves mm (takenUp mm names) M) :
    Preserves mm (meant mm names) M ↔
      ∀ m ∈ mm.mappings, m.perms.r = true → (m.path ∈ names ↔ cutPath m.path ∈ names) := by
  refine ⟨?_, ?_⟩
  · intro hmeant m hm hr
    by_cases hname : m.path = []
    · rw [hname]
      rfl
    · have htaken : m ∈ takenUp mm names ↔ m ∈ meant mm names :=
        (h.hidden_iff hm hname).trans (hmeant.hidden_iff hm hname).symm
      rwa [takenUp, meant, mem_filter_names hm hr, mem_filter_names hm hr, iff_comm] at htaken
  · intro hnames
    have hsame : takenUp mm names = meant mm names := by
      refine List.filter_congr fun m hm => ?_
      cases hr : m.perms.r with
      | false => simp
      | true => simp [hnames m hm hr]
    rwa [← hsame]

/-- The process comes back from every command but the search for a place, and a run with enough
rounds ends with true and the map preserved as meant. -/
structure PreservesMemory (own : Set ℕ) (mm : MemoryMap abi.limit)
    (maps : NodeHeap × ProcmapsIterator) (libc : Ptr) (names : Finset (List Char)) : Prop where
  answered : ∀ fuel,
    (riruHide abi fuel (some maps) libc names).Safe (LiveStep own abi.limit) mustAnswer mm.mem
  preserved : ∃ fuel, ∀ tr ret M,
    (riruHide abi fuel (some maps) libc names).Exec (LiveStep own abi.limit) mm.mem tr ret M →
      ret = some true ∧ Preserves mm (meant mm names) M

/-- A run that has not come to its end shows nothing. -/
theorem none_not_preserves {mm : MemoryMap abi.limit} {hidden : List (Mapping abi.limit)}
    (h : ∀ tr ret M, (pure none : KernelProg (Option Bool)).Exec (LiveStep own abi.limit) mm.mem tr
      ret M → ret = some true ∧ Preserves mm hidden M) : False :=
  absurd (h [] none mm.mem ⟨rfl, rfl, rfl⟩).1 (by simp)

/-- Where the process comes back from every unmapping, a run in a calm kernel is one that it
survives. -/
theorem exec_live {α : Type} {p : KernelProg α} {tr : Trace KernelCall KAnswer} {x : α} {M' : Mem}
    (hsafe : p.Safe (LiveStep own abi.limit) mustAnswer M)
    (h : p.Exec (CalmStep abi.limit) M tr x M') : p.Exec (LiveStep own abi.limit) M tr x M' := by
  induction p generalizing M tr with
  | ret a => exact h
  | ask c k ih =>
    obtain ⟨r, u, tr', rfl, hstep, hk⟩ := h
    obtain ⟨hgo, hrest⟩ := hsafe
    have hlive : LiveStep own abi.limit M c r u := by
      refine ⟨hstep, ?_⟩
      rintro addr length rfl
      obtain ⟨_, _, hback⟩ := hgo trivial
      exact hback.alive addr length rfl
    exact ⟨r, u, tr', rfl, hlive, ih r (hrest r u hlive) hk⟩

/-- A kernel call for the mapping failed before its range was given up. -/
def CallFailed (m : Mapping abi.limit) (tr : Trace KernelCall KAnswer) : Prop :=
  ∃ e, (.munmap m.start m.length, .err e) ∈ tr ∨
    (.mmap 0 m.length (PROT_READ ||| PROT_WRITE), .err e) ∈ tr

/-- The sequence for a readable mapping comes to the `munmap`, unless the backup fails. -/
theorem doHide_unmaps {tr : Trace KernelCall KAnswer} {ret : ℕ} {M' : Mem}
    (hr : m.perms.r = true)
    (h : (doHide abi (record m)).Exec (KStep abi.limit) M tr ret M') :
    CallFailed m tr ∨ (.munmap m.start m.length, .ok 0) ∈ tr := by
  rw [doHide, remap_record] at h
  obtain ⟨r, M₁, tr₁, rfl, hplace, h⟩ := exec_failureReturn.mp h
  cases r with
  | err e => exact .inl ⟨e, .inr (List.mem_cons_self ..)⟩
  | ok b =>
    have hne : rawSyscall abi (.ok b) ≠ MAP_FAILED abi := ofNat_ne_failed (legal_of_kstep hplace)
    rw [if_neg hne, failureReturnUnless, if_pos hr, remapBackedUp_record] at h
    obtain ⟨_, M₂, tr₂, rfl, _, h⟩ := Prog.exec_call_bind.mp h
    obtain ⟨r, M₃, tr₃, rfl, hunmap, -⟩ := exec_failureReturn.mp h
    cases hunmap with
    | unmapped => exact .inr (by simp)
    | @failed _ e => exact .inl ⟨e, .inl (by simp)⟩

/-- What the loop hides in a calm kernel is what it unmaps. -/
theorem hideAll_unmaps {ms : List (Mapping abi.limit)} {tr : Trace KernelCall KAnswer} {u : Unit}
    {M' : Mem} (hr : ∀ m ∈ ms, m.perms.r = true)
    (h : (hideAll ms).Exec (CalmStep abi.limit) M tr u M') :
    ∀ m ∈ ms, (.munmap m.start m.length, .ok 0) ∈ tr := by
  obtain ⟨parts, rfl, rfl, hparts⟩ := Prog.exec_forEach_parts h
  refine List.forall_mem_map.mpr fun p hp => ?_
  obtain ⟨s, t, hbody⟩ := hparts p hp
  obtain ⟨ret, t', tr', tr'', hsplit, hhide, hend⟩ := Prog.exec_bind.mp hbody
  have hcalm := hhide.forall_trace (P := fun _ r => ∀ e, r ≠ .err e) fun _ _ _ _ h => h.calm
  have hunmap : (.munmap p.1.start p.1.length, .ok 0) ∈ tr' := by
    rcases doHide_unmaps (hr p.1 (List.mem_map_of_mem hp))
      (hhide.mono id fun _ _ _ _ h => h.step) with ⟨e, hfailed | hfailed⟩ | hunmap
    · exact absurd rfl (hcalm _ hfailed e)
    · exact absurd rfl (hcalm _ hfailed e)
    · exact hunmap
  refine List.mem_flatten.mpr ⟨p.2, List.mem_map_of_mem hp, ?_⟩
  rw [hsplit]
  exact List.mem_append_left _ hunmap

/-- `riru_hide` on a memory map, read from the maps file, where the kernel can carry out every call.
It preserves the map as meant exactly when the parser reads the maps file into a list that ends, the
process does not live on a mapping that is taken up, and the parser keeps of the name of every
readable mapping what decides whether the name is asked for. -/
theorem riruHide_preserves_iff {mm : MemoryMap abi.limit} {lines : List Line} {alloc : ℕ → Ptr}
    (hlist : Listing mm.mappings lines) (hinj : Function.Injective alloc)
    (hne : ∀ i, alloc i ≠ nullptr) {libc : Ptr} (hlibc : libc ≠ nullptr)
    (names : Finset (List Char))
    (hruns : (hideAll (takenUp mm names)).Runs (CalmStep abi.limit) mm.mem) :
    (∃ maps, pmparserParse abi alloc lines.flatten = some maps ∧
        PreservesMemory own mm maps libc names) ↔
      (mm.mappings.length ≠ 1 ∧ mm.mappings.length < 2 ^ 31 ∧
        ∀ line ∈ lines, line.length < 1024) ∧
        (∀ m ∈ takenUp mm names, ∀ a ∈ own, ¬ m.Has a) ∧
          ∀ m ∈ mm.mappings, m.perms.r = true → (m.path ∈ names ↔ cutPath m.path ∈ names) := by
  have hreadable : ∀ m ∈ takenUp mm names, m.perms.r = true := fun m hm => takenUp_readable hm
  have hlive : (∀ m ∈ takenUp mm names, ∀ a ∈ own, ¬ m.Has a) →
      (hideAll (takenUp mm names)).wp (LiveStep own abi.limit) mustAnswer mm.mem
        fun _ _ M => Preserves mm (takenUp mm names) M :=
    hideAll_live List.filter_sublist hreadable
  refine ⟨?_, ?_⟩
  · rintro ⟨maps, hparse, hpreserves⟩
    obtain ⟨fuel, hdone⟩ := hpreserves.preserved
    have hone : mm.mappings.length ≠ 1 := by
      intro hone
      rw [riruHide_one hlist hinj hne hlibc hone hparse] at hdone
      exact none_not_preserves hdone
    obtain ⟨hlt, hshort⟩ := hlist.of_parsed hparse
    obtain ⟨maps', hparse', hloop⟩ := riruHide_list hlist hinj hne hlibc hone hlt hshort
    obtain rfl : maps = maps' := Option.some.inj (hparse.symm.trans hparse')
    have hfuel : mm.mappings.length < fuel := by
      by_contra hle
      rw [hloop, if_neg hle] at hdone
      exact none_not_preserves hdone
    have hsafe := hpreserves.answered fuel
    rw [hloop, if_pos hfuel] at hsafe hdone
    -- The run in which no call fails is one that the process survives.
    obtain ⟨tr, u, M, hcalm⟩ := hruns
    have hexec := exec_live (Prog.safe_bind.mp hsafe).1 hcalm
    have hown : ∀ m ∈ takenUp mm names, ∀ a ∈ own, ¬ m.Has a := by
      intro m hm a ha
      have hunmap := hideAll_unmaps hreadable hcalm m hm
      exact hexec.forall_trace (P := fun c _ => ∀ addr length, c = .munmap addr length →
        ∀ a ∈ own, ¬ Within addr length a) (fun _ _ _ _ h => h.alive) _ hunmap _ _ rfl a ha
    refine ⟨⟨hone, hlt, hshort⟩, hown, ?_⟩
    have hpres := (hdone tr (some true) M (exec_hideAll_true hexec)).2
    exact (preserves_meant_iff (Prog.wp_exec (hlive hown) hexec)).mp hpres
  · rintro ⟨⟨hone, hlt, hshort⟩, hown, hnames⟩
    obtain ⟨maps, hparse, hloop⟩ := riruHide_list hlist hinj hne hlibc hone hlt hshort
    obtain ⟨hsafe, hexec⟩ := Prog.wp_iff.mp (hlive hown)
    refine ⟨maps, hparse, fun fuel => ?_, mm.mappings.length + 1, fun tr ret M h => ?_⟩
    · rw [hloop]
      split_ifs
      · exact Prog.safe_bind.mpr ⟨hsafe, fun _ _ _ _ => trivial⟩
      · trivial
    · rw [hloop, if_pos (Nat.lt_succ_self _)] at h
      obtain ⟨u, M', tr₁, tr₂, rfl, hall, rfl, rfl, rfl⟩ := Prog.exec_bind.mp h
      exact ⟨rfl, (preserves_meant_iff (hexec _ _ _ hall)).mpr hnames⟩

theorem runs_ok {c : KernelCall} {v : ℕ} {next : abi.Long → KernelProg ℕ} {M' : Mem}
    (h : CalmStep abi.limit M c (.ok v) M')
    (hnext : (next (BitVec.ofNat _ v)).Runs (CalmStep abi.limit) M') :
    (failureReturn (rawSyscall abi) c next).Runs (CalmStep abi.limit) M := by
  have hne : rawSyscall abi (.ok v) ≠ MAP_FAILED abi := ofNat_ne_failed (legal_of_kstep h.step)
  rw [failureReturn_eq]
  exact Prog.Runs.ask h (by rwa [if_neg hne])

/-- Where there is room for the backup, a calm kernel carries the sequence out. -/
theorem doHide_runs (h : ∀ a, m.Has a → M a = some (m.cellAt a)) (hr : m.perms.r = true)
    {b : ℕ} (hfree : M.Free b m.length) (hpos : 0 < b) (hlim : b + m.length ≤ abi.limit) :
    (doHide abi (record m)).Runs (CalmStep abi.limit) M := by
  have hrw : Perms.ofProt (PROT_READ ||| PROT_WRITE) = readWrite := by decide
  have hplaced := stage_place h hfree
  have hgone := hplaced.copyOut.unmap
  have hrestored := hgone.restore m.perms
  have hwritable := hrestored.protect { m.perms with w := true }
  have hback := hwritable.copyBack
  have hplace : KStep abi.limit M (.mmap 0 m.length (PROT_READ ||| PROT_WRITE)) (.ok b) _ :=
    .mapped _ _ hfree hpos hlim
  have hb : b < 2 ^ abi.bits := Nat.lt_of_add_right_lt (legal_of_kstep hplace)
  rw [doHide, remap_record]
  refine runs_ok (calm_ok hplace (by simp)) ?_
  rw [hrw, BitVec.toNat_ofNat, Nat.mod_eq_of_lt hb, failureReturnUnless, if_pos hr,
    remapBackedUp_record]
  refine Prog.Runs.call_bind (calm_ok (.copied (fun a ha => ⟨_, hplaced.range a ha, hr⟩)
    fun a ha => ⟨_, hplaced.backup a ha, rfl⟩) (by simp)) ?_
  refine runs_ok (calm_ok (.unmapped _ _) (by simp)) ?_
  refine runs_ok (calm_ok (.mapped _ _ hgone.range m.start_pos m.le_limit) (by simp)) ?_
  rw [ofProt_getProt]
  refine runs_ok (calm_ok (.permitted _ fun a ha => ⟨_, hrestored.range a ha, trivial⟩)
    (by simp)) ?_
  rw [ofProt_getProt_write]
  refine Prog.Runs.call_bind (calm_ok (.copied (fun a ha => ⟨_, hwritable.backup a ha, rfl⟩)
    fun a ha => ⟨_, hwritable.range a ha, rfl⟩) (by simp)) ?_
  unfold failureReturnUnless
  split
  · exact Prog.Runs.ret 0 _
  · exact runs_ok (calm_ok (.permitted _ fun a ha => ⟨_, hback.range a ha, trivial⟩) (by simp))
      (Prog.Runs.ret 0 _)

theorem newline_notMem_libown : '\n' ∉ "/data/app/libown.so".toList := by decide

theorem nul_notMem_libown : '\x00' ∉ "/data/app/libown.so".toList := by decide

theorem le_limit_secondPage : 0x2000 + 4096 ≤ Abi.limit .aarch64 := by decide

theorem dvd_secondPage : pageSize ∣ 0x2000 := by decide

/-- The library that the process runs on, behind the page. -/
def ownPage : Mapping (Abi.limit .aarch64) :=
  { page ⟨true, false, true⟩ "/data/app/libown.so".toList newline_notMem_libown
      nul_notMem_libown with
    start := 0x2000
    start_pos := Nat.succ_pos _
    le_limit := by rw [page, List.length_replicate]; exact le_limit_secondPage
    start_page := dvd_secondPage }

theorem ownPage_length : ownPage.length = 4096 := List.length_replicate

theorem ownPage_start : ownPage.start = 0x2000 := rfl

/-- The memory map of a process that runs on the second page. -/
def besideOwn (p : Mapping (Abi.limit .aarch64)) (hstart : p.start = 0x1000)
    (hlength : p.length = 4096) : MemoryMap (Abi.limit .aarch64) where
  mappings := [p, ownPage]
  apart := by
    refine List.pairwise_pair.mpr fun a hp hown => ?_
    rw [hstart, hlength, Within] at hp
    rw [ownPage_start, ownPage_length, Within] at hown
    omega

/-- The addresses that the process lives on. -/
def ownAddresses : Set ℕ := {a | ownPage.Has a}

def besideCode : MemoryMap (Abi.limit .aarch64) := besideOwn codePage rfl page_length

theorem besideCode_mappings : besideCode.mappings = [codePage, ownPage] := rfl

theorem besideOwn_short {p : Mapping (Abi.limit .aarch64)} (hstart : p.start = 0x1000)
    (hlength : p.length = 4096) (hpath : p.path.length < 900) :
    ∀ line ∈ mapsLines (besideOwn p hstart hlength).mappings, line.length < 1024 := by
  refine mapsLines_short fun m hm => ?_
  rcases List.mem_pair.mp hm with rfl | rfl
  · exact hpath
  · exact show "/data/app/libown.so".toList.length < 900 by decide

/-- There is room for a backup. -/
theorem besideCode_free : besideCode.mem.Free 0x10000 codePage.length := by
  intro a ha
  apply besideCode.mem_none
  rw [codePage_length, Within] at ha
  intro m hm hin
  rcases List.mem_pair.mp hm with rfl | rfl
  · rw [Mapping.Has, codePage_start, codePage_length, Within] at hin
    omega
  · rw [Mapping.Has, ownPage_start, ownPage_length, Within] at hin
    omega

theorem besideCode_takenUp : takenUp besideCode {codePage.path} = [codePage] := by
  have hcut : cutPath codePage.path = codePage.path := by decide
  have hown : cutPath ownPage.path ∉ ({codePage.path} : Finset (List Char)) := by decide
  have hr : codePage.perms.r = true := rfl
  rw [takenUp, besideCode_mappings, List.filter_cons_of_pos (by rw [hcut, hr]; simp),
    List.filter_cons_of_neg (by simp [hown]), List.filter_nil]

theorem besideCode_runs : (hideAll (takenUp besideCode {codePage.path})).Runs
    (CalmStep (Abi.limit .aarch64)) besideCode.mem := by
  have hcell : ∀ a, codePage.Has a → besideCode.mem a = some (codePage.cellAt a) :=
    fun a ha => besideCode.mem_has List.mem_cons_self ha
  have hlim : 0x10000 + codePage.length ≤ Abi.limit .aarch64 := by
    rw [codePage_length]
    decide
  have hhide := doHide_runs hcell rfl besideCode_free (by decide) hlim
  rw [besideCode_takenUp]
  exact (hhide.bind fun _ t => Prog.Runs.ret () t).bind fun _ t => Prog.Runs.ret () t

theorem besideCode_meant : meant besideCode {codePage.path} = [codePage] := by
  have hown : ownPage.path ∉ ({codePage.path} : Finset (List Char)) := by decide
  have hr : codePage.perms.r = true := rfl
  rw [meant, besideCode_mappings, List.filter_cons_of_pos (by rw [hr]; simp),
    List.filter_cons_of_neg (by simp [hown]), List.filter_nil]

theorem besideCode_own : ∀ m ∈ takenUp besideCode {codePage.path}, ∀ a ∈ ownAddresses,
    ¬ m.Has a := by
  intro m hm a ha hin
  rw [besideCode_takenUp] at hm
  obtain rfl := List.mem_singleton.mp hm
  rw [ownAddresses, Set.mem_ofPred_eq, Mapping.Has, ownPage_start, ownPage_length, Within] at ha
  rw [Mapping.Has, codePage_start, codePage_length, Within] at hin
  omega

/-- The page of code is hidden, and the process goes on beside it. -/
theorem riruHide_preserves_iff_codePage : ∃ maps fuel tr M,
    pmparserParse .aarch64 blocks (mapsLines besideCode.mappings).flatten = some maps ∧
      (riruHide .aarch64 fuel (some maps) 1 {codePage.path}).Exec
        (LiveStep ownAddresses (Abi.limit .aarch64)) besideCode.mem tr (some true) M ∧
      Preserves besideCode [codePage] M := by
  have hlibc : (1 : Ptr) ≠ nullptr := by decide
  have hlist := listing_mapsLines besideCode.mappings
  have hshort := besideOwn_short rfl page_length (show codePage.path.length < 900 by decide)
  have hnames : ∀ m ∈ besideCode.mappings, m.perms.r = true →
      (m.path ∈ ({codePage.path} : Finset (List Char)) ↔
        cutPath m.path ∈ ({codePage.path} : Finset (List Char))) := by
    intro m hm _
    rcases List.mem_pair.mp hm with rfl | rfl
    · exact iff_of_true (by decide) (by decide)
    · exact iff_of_false (by decide) (by decide)
  obtain ⟨maps, hparse, hanswered, fuel, hdone⟩ :=
    (riruHide_preserves_iff hlist blocks_injective blocks_ne hlibc _ besideCode_runs).mpr
      ⟨⟨by decide, by decide, hshort⟩, besideCode_own, hnames⟩
  obtain ⟨maps', hparse', hloop⟩ := riruHide_list hlist blocks_injective blocks_ne hlibc
    (by decide) (by decide) hshort
  obtain rfl : maps = maps' := Option.some.inj (hparse.symm.trans hparse')
  have hsafe := hanswered fuel
  rw [hloop] at hsafe hdone
  have hfuel : besideCode.mappings.length < fuel := by
    by_contra hle
    rw [if_neg hle] at hdone
    exact none_not_preserves hdone
  rw [if_pos hfuel] at hsafe hdone
  obtain ⟨tr, u, M, hcalm⟩ := besideCode_runs
  have hrun : (hideAll (takenUp besideCode {codePage.path}) >>= fun _ => pure (some true)).Exec
      (LiveStep ownAddresses (Abi.limit .aarch64)) besideCode.mem tr (some true) M :=
    exec_hideAll_true (exec_live (Prog.safe_bind.mp hsafe).1 hcalm)
  refine ⟨maps, fuel, tr, M, hparse, ?_, ?_⟩
  · rw [hloop, if_pos hfuel]
    exact hrun
  · rw [← besideCode_meant]
    exact (hdone _ _ _ hrun).2

/-- A library in a directory with a blank in its name. -/
def blankPage : Mapping (Abi.limit .aarch64) :=
  page ⟨true, false, true⟩ "/data/app/my app/libapp.so".toList (by decide) (by decide)

def besideBlank : MemoryMap (Abi.limit .aarch64) := besideOwn blankPage rfl page_length

/-- The parser keeps `/data/app/my` of the name, and the mapping stays as it is. -/
theorem riruHide_misses_blank :
    ¬ ∀ (mm : MemoryMap (Abi.limit .aarch64)) own lines maps names fuel tr ret M,
      Listing mm.mappings lines → pmparserParse .aarch64 blocks lines.flatten = some maps →
      (riruHide .aarch64 fuel (some maps) 1 names).Exec (LiveStep own (Abi.limit .aarch64)) mm.mem
        tr (some ret) M →
      Preserves mm (meant mm names) M := by
  intro hall
  have hlist := listing_mapsLines besideBlank.mappings
  have hmem : blankPage ∈ besideBlank.mappings := List.mem_cons_self
  have htaken : takenUp besideBlank {blankPage.path} = [] := by decide
  obtain ⟨maps, hparse, hloop⟩ := riruHide_list hlist blocks_injective blocks_ne
    (show (1 : Ptr) ≠ nullptr by decide) (by decide) (by decide)
    (besideOwn_short rfl page_length (show blankPage.path.length < 900 by decide))
  have hrun : (riruHide .aarch64 3 (some maps) 1 {blankPage.path}).Exec
      (LiveStep ownAddresses (Abi.limit .aarch64)) besideBlank.mem [] (some true)
        besideBlank.mem := by
    rw [hloop, htaken]
    exact ⟨rfl, rfl, rfl⟩
  have hpres := hall besideBlank _ _ maps _ _ _ _ _ hlist hparse hrun
  have hmeant : blankPage ∈ meant besideBlank {blankPage.path} :=
    (mem_filter_names hmem rfl).mpr (Finset.mem_singleton_self _)
  have hanon := (hpres.hidden_iff hmem (by decide)).mp hmeant
  rw [besideBlank.mem_has hmem blankPage.has_start, Option.some_inj] at hanon
  exact absurd (congrArg Cell.path hanon) (by decide)

end NativeLib.HideMaps
