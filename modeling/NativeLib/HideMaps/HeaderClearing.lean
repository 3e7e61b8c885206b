import NativeLib.HideMaps.ElfHeader
import NativeLib.HideMaps.Stages

/-! What `clear_elf_header` touches. It reads the first bytes of a mapping before it makes the
mapping readable, and it picks the mappings by the name that the parser keeps. -/

namespace NativeLib.HideMaps

open Interaction Memory ProcMaps
open Prog (call)

variable {abi : Abi} {M : Mem} {m : Mapping abi.limit} {names : Finset (List Char)}
  {type : CleanElfHeaderType}

/-- The mapping is in memory as it was. -/
def InPlace (M : Mem) (m : Mapping abi.limit) : Prop := ∀ a, m.Has a → M a = some (m.cellAt a)

/-- The mapping is picked and starts with the magic. -/
def Cleared (names : Finset (List Char)) (m : Mapping abi.limit) : Prop :=
  cutPath m.path ∈ names ∧ HasMagic m

instance : DecidablePred (@Cleared abi names) :=
  fun _ => inferInstanceAs (Decidable (_ ∧ _))

/-- The bytes from `a` on are these. -/
def matchesAt (M : Mem) : ℕ → List UInt8 → Bool
  | _, [] => true
  | a, b :: bs => if (M a).elim 0 Cell.byte = b then matchesAt M (a + 1) bs else false

theorem runWith_startsWith (addr : ℕ) (bs : List UInt8) :
    ((startsWith addr bs).runWith carryOut M).2 = (matchesAt M addr bs, M) := by
  induction bs generalizing addr with
  | nil => rfl
  | cons b bs ih =>
    rw [startsWith, Prog.runWith_bind, matchesAt]
    have hload : ((load addr).runWith carryOut M).2 = ((M addr).elim 0 Cell.byte, M) := rfl
    rw [hload]
    dsimp only
    split
    · exact ih (addr + 1)
    · rfl

theorem matchesAt_eq {data : List UInt8} {addr : ℕ} :
    ∀ {bs : List UInt8}, bs.length ≤ data.length →
      (∀ i < bs.length, (M (addr + i)).elim 0 Cell.byte = data.getD i 0) →
        matchesAt M addr bs = decide (data.take bs.length = bs) := by
  intro bs
  induction bs generalizing addr data with
  | nil =>
    intro _ _
    simp [matchesAt]
  | cons b bs ih =>
    intro hlen h
    cases data with
    | nil => simp at hlen
    | cons d data =>
      have hfirst : (M addr).elim 0 Cell.byte = d := h 0 (Nat.succ_pos _)
      have hrest := @ih data (addr + 1) (Nat.le_of_succ_le_succ hlen) fun i hi => by
        have := h (i + 1) (Nat.succ_lt_succ hi)
        rwa [← Nat.add_assoc, Nat.add_right_comm] at this
      rw [matchesAt, hfirst, hrest]
      by_cases hd : d = b
      · simp [hd]
      · simp [hd]

theorem pageSize_le (m : Mapping abi.limit) : pageSize ≤ m.length :=
  Nat.le_of_dvd m.nonempty m.length_page

theorem headerSize_le (abi : Abi) (type : CleanElfHeaderType) :
    headerSize abi type ≤ pageSize := by
  cases abi <;> cases type <;> decide

theorem wholePages_headerSize (abi : Abi) (type : CleanElfHeaderType) :
    wholePages (headerSize abi type) = pageSize := by
  cases abi <;> cases type <;> decide

/-- The first page is part of the mapping. -/
theorem has_of_first (m : Mapping abi.limit) {n a : ℕ} (hn : n ≤ pageSize)
    (ha : Within m.start n a) : m.Has a := by
  have := pageSize_le m
  unfold Mapping.Has Within at *
  omega

theorem elfmag_length : ELFMAG.length = 4 := rfl

/-- The permissions of the mapping are those of its first bytes. -/
theorem InPlace.all_first (h : InPlace M m) {P : Perms → Prop} (hP : P m.perms) {n : ℕ}
    (hn : n ≤ pageSize) : M.All (P ·.perms) m.start n :=
  fun a ha => ⟨_, h a (has_of_first m hn ha), hP⟩

/-- The test finds the magic in a mapping that is in place. -/
theorem matchesAt_magic (h : InPlace M m) :
    matchesAt M m.start ELFMAG = decide (HasMagic m) := by
  have hlen : 4096 ≤ m.bytes.length := pageSize_le m
  have heq := @matchesAt_eq M m.bytes m.start ELFMAG
  rw [elfmag_length] at heq
  rw [heq (by omega)]
  · rfl
  · intro i hi
    have hin : Within m.start 4 (m.start + i) := ⟨Nat.le_add_right _ _, by omega⟩
    rw [h _ (has_of_first m (by decide) hin)]
    simp [Mapping.cellAt, Mapping.byteAt]

/-- A mapping without one of the names is passed over. -/
theorem clearMapping_passed (hname : cutPath m.path ∉ names) (success : Bool) :
    clearMapping abi names type (record m) success = pure success := if_neg hname

theorem record_start (m : Mapping abi.limit) : (record m).addrStart = m.start := rfl

/-- Making the first page writable and taking that back leaves the cleared bytes. -/
theorem protect_fill_protect (h : InPlace M m) {size : ℕ} (hsize : size ≤ pageSize)
    (p : Perms) :
    ((M.protect m.start pageSize p).fill m.start size 0).protect m.start pageSize m.perms =
      M.fill m.start size 0 := by
  funext a
  by_cases hpage : Within m.start pageSize a
  · have hcell := h a (has_of_first m le_rfl hpage)
    rw [Mem.protect_in hpage]
    by_cases hin : Within m.start size a
    · rw [Mem.fill_in hin, Mem.fill_in hin, Mem.protect_in hpage, hcell]
      rfl
    · rw [Mem.fill_out hin, Mem.fill_out hin, Mem.protect_in hpage, hcell]
      rfl
  · have hin : ¬ Within m.start size a := by
      unfold Within at *
      omega
    rw [Mem.protect_out hpage, Mem.fill_out hin, Mem.fill_out hin, Mem.protect_out hpage]

theorem runWith_mProtectUserDefined (m : Mapping abi.limit) (prot : ℕ) :
    ((mProtectUserDefined m.start (headerSize abi type) prot).runWith carryOut M).2 =
      (true, M.protect m.start pageSize (.ofProt prot)) := by
  have halign : m.start % pageSize = 0 := Nat.mod_eq_zero_of_dvd m.start_page
  unfold mProtectUserDefined
  simp only [halign, Nat.sub_zero, Nat.zero_add, Prog.call_bind]
  show (true, M.protect m.start (wholePages (headerSize abi type)) (.ofProt prot)) = _
  rw [wholePages_headerSize]

/-- One round, when all is carried out. -/
theorem runWith_clearMapping (h : InPlace M m) (success : Bool) :
    ((clearMapping abi names type (record m) success).runWith carryOut M).2 =
      if Cleared names m then (true, M.fill m.start (headerSize abi type) 0)
      else (success, M) := by
  by_cases hname : cutPath m.path ∈ names
  · rw [clearMapping, if_pos (show (record m).pathname ∈ names from hname), record_start,
      Prog.runWith_bind, runWith_startsWith, matchesAt_magic h]
    by_cases hmagic : HasMagic m
    · have hcleared : Cleared names m := ⟨hname, hmagic⟩
      rw [if_pos hcleared, if_pos (decide_eq_true hmagic), Prog.runWith_bind, mProtectDef,
        runWith_mProtectUserDefined, if_pos rfl, Prog.runWith_bind, runWith_mProtectUserDefined]
      show (true, ((M.protect m.start pageSize _).fill m.start _ 0).protect _ _ _) = _
      rw [ofProt_getProt, protect_fill_protect h (headerSize_le abi type)]
    · have hcleared : ¬ Cleared names m := fun h => hmagic h.2
      rw [if_neg hcleared, if_neg (by simp [hmagic])]
      rfl
  · have hcleared : ¬ Cleared names m := fun h => hname h.1
    rw [clearMapping_passed hname, if_neg hcleared]
    rfl

/-- The loop over the records of a list that ends. -/
def clearList (abi : Abi) (names : Finset (List Char)) (type : CleanElfHeaderType) :
    ℕ → List ProcmapsStruct → Bool → HeaderProg (Option Bool)
  | 0, _, _ => pure none
  | _ + 1, [], success => pure (some success)
  | fuel + 1, r :: rs, success => do
    let success ← clearMapping abi names type r success
    clearList abi names type fuel rs success

theorem clearLoop_holds {heap : NodeHeap} {rs : List ProcmapsStruct} (fuel : ℕ)
    {it : ProcmapsIterator} (success : Bool) (h : heap.Holds it.current rs) :
    clearLoop abi names type heap fuel it success = clearList abi names type fuel rs success := by
  induction fuel generalizing rs it success with
  | zero => rfl
  | succ fuel ih =>
    cases rs with
    | nil => simp only [clearLoop, h.next_nil, if_true, clearList]
    | cons r rs =>
      obtain ⟨p, node, it', hnext, hp, hnode, rfl, hrest⟩ := h.next_cons
      simp only [clearLoop, hnext, if_neg hp, hnode, clearList]
      congr 1
      funext success
      exact ih success hrest

/-- With too little fuel there is no result. -/
theorem clearList_short {fuel : ℕ} : ∀ {rs : List ProcmapsStruct} (success : Bool),
    fuel ≤ rs.length → (clearList abi names type fuel rs success).Yields (· = none) := by
  induction fuel with
  | zero => exact fun _ _ => rfl
  | succ fuel ih =>
    intro rs success hle
    cases rs with
    | nil => simp at hle
    | cons r rs => exact Prog.Yields.bind _ fun success => ih success (Nat.le_of_succ_le_succ hle)

theorem length_lt_of_clearList {fuel : ℕ} {rs : List ProcmapsStruct} {success result : Bool}
    (h : ((clearList abi names type fuel rs success).runWith carryOut M).2.1 = some result) :
    rs.length < fuel := by
  by_contra hle
  have hshort := @clearList_short abi names type fuel rs success (Nat.le_of_not_lt hle)
  have hnone := Prog.runWith_yields carryOut hshort M
  rw [h] at hnone
  simp at hnone

/-- The loop over a record that points to itself does not end. -/
theorem clearLoop_loops {heap : NodeHeap} {it : ProcmapsIterator} (h : heap.Loops it.current)
    (fuel : ℕ) (success : Bool) :
    (clearLoop abi names type heap fuel it success).Yields (· = none) := by
  obtain ⟨hp, node, hnode, -⟩ := id h
  induction fuel generalizing success with
  | zero => rfl
  | succ fuel ih =>
    simp only [clearLoop, h.next, if_neg hp, hnode]
    exact Prog.Yields.bind _ ih

theorem inPlace_fill {n : Mapping abi.limit} (h : InPlace M n) (hapart : m.ApartFrom n) {size : ℕ}
    (hsize : size ≤ pageSize) : InPlace (M.fill m.start size 0) n := by
  intro a ha
  rw [Mem.fill_out, h a ha]
  exact fun hin => hapart a (has_of_first m hsize hin) ha

/-- All rounds, when all is carried out: the picked headers are cleared. -/
theorem runWith_clearList {ms : List (Mapping abi.limit)} (hapart : ms.Pairwise Mapping.ApartFrom)
    (hplace : ∀ m ∈ ms, InPlace M m) {fuel : ℕ} (hfuel : ms.length < fuel) (success : Bool) :
    ∃ result, ((clearList abi names type fuel (ms.map record) success).runWith carryOut M).2 =
      (some result, zeroHeaders (headerSize abi type) (ms.filter (Cleared names ·)) M) := by
  induction ms generalizing M fuel success with
  | nil =>
    obtain ⟨fuel, rfl⟩ := Nat.exists_eq_succ_of_ne_zero (Nat.ne_of_gt hfuel)
    exact ⟨success, rfl⟩
  | cons m ms ih =>
    rw [List.length_cons] at hfuel
    obtain ⟨fuel, rfl⟩ := Nat.exists_eq_succ_of_ne_zero (Nat.ne_zero_of_lt hfuel)
    rw [List.pairwise_cons] at hapart
    rw [List.forall_mem_cons] at hplace
    rw [List.map_cons, clearList, Prog.runWith_bind, runWith_clearMapping hplace.1]
    by_cases hcleared : Cleared names m
    · rw [if_pos hcleared, List.filter_cons_of_pos (by simp [hcleared])]
      have hrest : ∀ n ∈ ms, InPlace (M.fill m.start (headerSize abi type) 0) n := fun n hn =>
        inPlace_fill (hplace.2 n hn) (hapart.1 n hn) (headerSize_le abi type)
      exact ih hapart.2 hrest (by omega) true
    · rw [if_neg hcleared, List.filter_cons_of_neg (by simp [hcleared])]
      exact ih hapart.2 hplace.2 (by omega) success

theorem zeroHeaders_apply (size : ℕ) (a : ℕ) (ms : List (Mapping abi.limit)) (M : Mem) :
    zeroHeaders size ms M a =
      if ∃ m ∈ ms, Within m.start size a then (M a).map ({ · with byte := 0 }) else M a := by
  induction ms generalizing M with
  | nil => simp [zeroHeaders]
  | cons m ms ih =>
    have hstep : zeroHeaders size (m :: ms) M = zeroHeaders size ms (M.fill m.start size 0) := rfl
    rw [hstep, ih]
    by_cases hin : Within m.start size a
    · rw [Mem.fill_in hin]
      simp [hin, Function.comp_def]
    · rw [Mem.fill_out hin]
      simp [hin]

theorem headerSize_pos (abi : Abi) (type : CleanElfHeaderType) : 0 < headerSize abi type := by
  cases abi <;> cases type <;> decide

/-- The first byte of a mapping is cleared if the mapping is one of those. -/
theorem zeroHeaders_start (mm : MemoryMap abi.limit) (P : Mapping abi.limit → Bool)
    (hm : m ∈ mm.mappings) :
    zeroHeaders (headerSize abi type) (mm.mappings.filter P) mm.mem m.start =
      some { m.cellAt m.start with byte := if P m then 0 else m.byteAt m.start } := by
  have hpos := headerSize_pos abi type
  rw [zeroHeaders_apply, mm.mem_has hm m.has_start]
  by_cases hPm : P m = true
  · have hin : ∃ n ∈ mm.mappings.filter P, Within n.start (headerSize abi type) m.start := by
      refine ⟨m, List.mem_filter.mpr ⟨hm, hPm⟩, ?_⟩
      unfold Within
      omega
    rw [if_pos hin, if_pos hPm]
    rfl
  · have hout : ¬ ∃ n ∈ mm.mappings.filter P, Within n.start (headerSize abi type) m.start := by
      rintro ⟨n, hn, hin⟩
      obtain ⟨hn, hPn⟩ := List.mem_filter.mp hn
      have heq := mm.unique hn hm (has_of_first n (headerSize_le abi type) hin) m.has_start
      exact hPm (heq ▸ hPn)
    rw [if_neg hout, if_neg hPm]
    rfl

theorem byteAt_magic (h : HasMagic m) : m.byteAt m.start = 0x7f := by
  have hfirst : (m.bytes.take 4).getD 0 0 = 0x7f := by
    rw [h]
    rfl
  rw [Mapping.byteAt, Nat.sub_self]
  simpa [List.getD_eq_getElem?_getD] using hfirst

/-- Clearing the headers of two choices of mappings with the magic differs when the choices do. -/
theorem zeroHeaders_inj (mm : MemoryMap abi.limit) {P P' : Mapping abi.limit → Bool}
    (hP : ∀ m, P m = true → HasMagic m) (hP' : ∀ m, P' m = true → HasMagic m) :
    zeroHeaders (headerSize abi type) (mm.mappings.filter P) mm.mem =
        zeroHeaders (headerSize abi type) (mm.mappings.filter P') mm.mem ↔
      ∀ m ∈ mm.mappings, P m = P' m := by
  refine ⟨?_, fun h => by rw [List.filter_congr h]⟩
  intro h m hm
  have hcell := congrFun h m.start
  rw [zeroHeaders_start mm P hm, zeroHeaders_start mm P' hm, Option.some_inj,
    Cell.mk.injEq] at hcell
  by_cases hmagic : HasMagic m
  · rw [byteAt_magic hmagic] at hcell
    revert hcell
    cases P m <;> cases P' m <;> simp
  · have hnot : P m = false := by
      rw [← Bool.not_eq_true]
      exact fun h => hmagic (hP m h)
    have hnot' : P' m = false := by
      rw [← Bool.not_eq_true]
      exact fun h => hmagic (hP' m h)
    rw [hnot, hnot']

/-- The rule for a read: it has to be allowed. -/
theorem wp_load {a : ℕ} {c : Cell} (hc : M a = some c) (hr : c.perms.r = true)
    {Q : Trace HeaderCall HeaderAnswer → UInt8 → Mem → Prop} (hQ : ∀ tr, Q tr c.byte M) :
    (load a).wp HeaderStep isAccess M Q := by
  rw [load, Prog.call_bind, Prog.wp_ask]
  refine ⟨fun _ => ⟨_, _, .carried ⟨c, hc, hr⟩⟩, ?_⟩
  intro r t hstep
  cases hstep with
  | carried =>
    simp only [carryOut, hc, Option.elim_some]
    exact hQ _

/-- The rule for a change of permissions: it may fail. -/
theorem wp_mProtectUserDefined (m : Mapping abi.limit) (prot : ℕ)
    {Q : Trace HeaderCall HeaderAnswer → Bool → Mem → Prop}
    (hdone : ∀ tr, Q tr true (M.protect m.start pageSize (.ofProt prot)))
    (hrefused : ∀ tr, Q tr false M) :
    (mProtectUserDefined m.start (headerSize abi type) prot).wp HeaderStep isAccess M Q := by
  have halign : m.start % pageSize = 0 := Nat.mod_eq_zero_of_dvd m.start_page
  unfold mProtectUserDefined
  simp only [halign, Nat.sub_zero, Nat.zero_add, Prog.call_bind]
  rw [Prog.wp_ask]
  refine ⟨False.elim, ?_⟩
  intro r t hstep
  cases hstep with
  | carried =>
    simp only [carryOut, wholePages_headerSize]
    exact hdone _
  | refused => exact hrefused _

theorem wp_startsWith {bs : List UInt8} {addr : ℕ} (h : M.All (·.perms.r = true) addr bs.length)
    {Q : Trace HeaderCall HeaderAnswer → Bool → Mem → Prop} (hQ : ∀ tr b, Q tr b M) :
    (startsWith addr bs).wp HeaderStep isAccess M Q := by
  induction bs generalizing addr Q with
  | nil => exact hQ _ _
  | cons b bs ih =>
    obtain ⟨c, hc, hr⟩ := h addr ⟨le_rfl, Nat.lt_add_of_pos_right (Nat.succ_pos _)⟩
    rw [startsWith, Prog.wp_bind]
    apply wp_load hc hr
    intro tr
    split
    · exact ih h.tail fun tr' b => hQ _ _
    · exact hQ _ _

/-- The two memories differ on the mapping only. -/
def SameOutside (m : Mapping abi.limit) (M M' : Mem) : Prop := ∀ a, ¬ m.Has a → M' a = M a

theorem sameOutside_protect (m : Mapping abi.limit) {M' : Mem} (h : SameOutside m M M')
    (p : Perms) : SameOutside m M (M'.protect m.start pageSize p) := by
  intro a ha
  rw [Mem.protect_out, h a ha]
  exact fun hin => ha (has_of_first m le_rfl hin)

theorem sameOutside_fill (m : Mapping abi.limit) {M' : Mem} (h : SameOutside m M M') :
    SameOutside m M (M'.fill m.start (headerSize abi type) 0) := by
  intro a ha
  rw [Mem.fill_out, h a ha]
  exact fun hin => ha (has_of_first m (headerSize_le abi type) hin)

/-- Once the first page is made writable, the header may be cleared. -/
theorem allowed_memset (h : InPlace M m) :
    Allowed (M.protect m.start pageSize (.ofProt (PROT_READ ||| PROT_WRITE ||| PROT_EXEC)))
      (.memset m.start (headerSize abi type)) := by
  intro a ha
  have hpage : Within m.start pageSize a :=
    ⟨ha.1, ha.2.trans_le (Nat.add_le_add_left (headerSize_le abi type) _)⟩
  obtain ⟨c, hc, hperms⟩ := (h.all_first (P := fun _ => True) trivial le_rfl).protect a hpage
  refine ⟨c, hc, ?_⟩
  show c.perms.w = true
  rw [hperms]
  rfl

/-- One round reads and writes only where it may, if a picked mapping can be read. -/
theorem wp_clearMapping (h : InPlace M m) (hr : cutPath m.path ∈ names → m.perms.r = true)
    (success : Bool) :
    (clearMapping abi names type (record m) success).wp HeaderStep isAccess M
      fun _ _ M' => SameOutside m M M' := by
  have hsame : SameOutside m M M := fun _ _ => rfl
  by_cases hname : cutPath m.path ∈ names
  · rw [clearMapping, if_pos (show (record m).pathname ∈ names from hname), record_start,
      Prog.wp_bind]
    apply wp_startsWith (h.all_first (P := (·.r = true)) (hr hname) (by decide))
    intro tr isElf
    split
    · rw [Prog.wp_bind]
      refine wp_mProtectUserDefined m _ (fun tr => ?_) (fun tr => hsame)
      rw [if_pos rfl, Prog.call_bind, Prog.wp_ask]
      refine ⟨fun _ => ⟨_, _, .carried (allowed_memset h)⟩, ?_⟩
      intro r t hstep
      cases hstep with
      | carried =>
        refine wp_mProtectUserDefined m _ (fun tr => ?_) fun tr => ?_
        · exact sameOutside_protect m (sameOutside_fill m (sameOutside_protect m hsame _)) _
        · exact sameOutside_fill m (sameOutside_protect m hsame _)
    · exact hsame
  · rw [clearMapping_passed hname]
    exact hsame

theorem load_exec {a : ℕ} {c : Cell} (hc : M a = some c) (hr : c.perms.r = true) :
    (load a).Exec HeaderStep M [(.load a, .byte c.byte)] c.byte M := by
  refine ⟨.byte c.byte, M, [], rfl, ?_, rfl, rfl, rfl⟩
  have hstep : HeaderStep M (.load a) _ _ := .carried ⟨c, hc, hr⟩
  simpa only [carryOut, hc, Option.elim_some] using hstep

theorem startsWith_exec {bs : List UInt8} {addr : ℕ}
    (h : M.All (·.perms.r = true) addr bs.length) :
    ∃ tr b, (startsWith addr bs).Exec HeaderStep M tr b M := by
  induction bs generalizing addr with
  | nil => exact ⟨[], true, rfl, rfl, rfl⟩
  | cons b bs ih =>
    obtain ⟨c, hc, hr⟩ := h addr ⟨le_rfl, Nat.lt_add_of_pos_right (Nat.succ_pos _)⟩
    obtain ⟨tr, b', hrest⟩ : ∃ tr b', (if c.byte = b then startsWith (addr + 1) bs
        else pure false).Exec HeaderStep M tr b' M := by
      split
      · exact ih h.tail
      · exact ⟨[], false, rfl, rfl, rfl⟩
    exact ⟨_, b', Prog.exec_bind.mpr ⟨_, _, _, _, rfl, load_exec hc hr, hrest⟩⟩

/-- Where every call of `mprotect` fails, a round leaves memory as it is. -/
theorem clearMapping_refused (h : InPlace M m) (hr : cutPath m.path ∈ names → m.perms.r = true)
    (success : Bool) :
    ∃ tr result,
      (clearMapping abi names type (record m) success).Exec HeaderStep M tr result M := by
  by_cases hname : cutPath m.path ∈ names
  · rw [clearMapping, if_pos (show (record m).pathname ∈ names from hname), record_start]
    obtain ⟨tr, isElf, helf⟩ := @startsWith_exec M ELFMAG m.start
      (h.all_first (P := (·.r = true)) (hr hname) (by decide))
    cases isElf with
    | false => exact ⟨_, success, Prog.exec_bind.mpr ⟨_, _, _, _, rfl, helf, rfl, rfl, rfl⟩⟩
    | true =>
      have hrefused : (mProtectDef m.start (headerSize abi type)).Exec HeaderStep M
          [(_, .done false)] false M :=
        ⟨.done false, M, [], rfl, .refused _ _ _, rfl, rfl, rfl⟩
      exact ⟨_, false, Prog.exec_bind.mpr ⟨_, _, _, _, rfl, helf,
        Prog.exec_bind.mpr ⟨_, _, _, _, rfl, hrefused, rfl, rfl, rfl⟩⟩⟩
  · rw [clearMapping_passed hname]
    exact ⟨[], success, rfl, rfl, rfl⟩

/-- A round of a picked mapping begins with a read of its first byte. -/
theorem readable_of_safe (h : InPlace M m) {success : Bool}
    (hsafe : (clearMapping abi names type (record m) success).Safe HeaderStep isAccess M)
    (hname : cutPath m.path ∈ names) : m.perms.r = true := by
  rw [clearMapping, if_pos (show (record m).pathname ∈ names from hname), record_start] at hsafe
  obtain ⟨r, t, hstep⟩ := hsafe.1 trivial
  cases hstep with
  | carried hallowed =>
    obtain ⟨c, hc, hr⟩ := hallowed
    rw [h _ m.has_start] at hc
    obtain rfl := Option.some.inj hc
    exact hr

/-- All rounds read and write only where they may if every picked mapping can be read. -/
theorem safe_clearList {ms : List (Mapping abi.limit)} (hapart : ms.Pairwise Mapping.ApartFrom)
    (hplace : ∀ m ∈ ms, InPlace M m)
    (hr : ∀ m ∈ ms, cutPath m.path ∈ names → m.perms.r = true) (fuel : ℕ) (success : Bool) :
    (clearList abi names type fuel (ms.map record) success).Safe HeaderStep isAccess M := by
  induction ms generalizing M fuel success with
  | nil => cases fuel <;> trivial
  | cons m ms ih =>
    cases fuel with
    | zero => trivial
    | succ fuel =>
      rw [List.pairwise_cons] at hapart
      rw [List.forall_mem_cons] at hplace hr
      rw [List.map_cons, clearList, Prog.safe_bind]
      obtain ⟨hfirst, hframe⟩ := Prog.wp_iff.mp (wp_clearMapping hplace.1 hr.1 success)
      refine ⟨hfirst, fun tr result M' hrun => ?_⟩
      have hsame := hframe tr result M' hrun
      refine ih hapart.2 ?_ hr.2 fuel result
      intro n hn a ha
      rw [hsame a fun hma => hapart.1 n hn a hma ha]
      exact hplace.2 n hn a ha

/-- If they do, every picked mapping can be read: with every call of `mprotect` refused the loop
comes to each of them. -/
theorem readable_of_safe_clearList {ms : List (Mapping abi.limit)}
    (hplace : ∀ m ∈ ms, InPlace M m) {fuel : ℕ} (hfuel : ms.length < fuel) {success : Bool}
    (hsafe : (clearList abi names type fuel (ms.map record) success).Safe HeaderStep isAccess M) :
    ∀ m ∈ ms, cutPath m.path ∈ names → m.perms.r = true := by
  induction ms generalizing fuel success with
  | nil => simp
  | cons m ms ih =>
    rw [List.length_cons] at hfuel
    obtain ⟨fuel, rfl⟩ := Nat.exists_eq_succ_of_ne_zero (Nat.ne_zero_of_lt hfuel)
    rw [List.forall_mem_cons] at hplace
    rw [List.map_cons, clearList, Prog.safe_bind] at hsafe
    have hr := readable_of_safe hplace.1 hsafe.1
    obtain ⟨tr, result, hrun⟩ := @clearMapping_refused _ _ _ names type hplace.1 hr success
    exact List.forall_mem_cons.mpr ⟨hr, ih hplace.2 (by omega) (hsafe.2 _ _ _ hrun)⟩

/-- The mapping has one of the names and starts with the magic. -/
def Meant (names : Finset (List Char)) (m : Mapping abi.limit) : Prop :=
  m.path ∈ names ∧ HasMagic m

instance : DecidablePred (@Meant abi names) :=
  fun _ => inferInstanceAs (Decidable (_ ∧ _))

/-- Every read and every write is allowed, whichever calls of `mprotect` fail; and when none
fails the function returns, the headers of the mappings it is meant for are cleared, and all else,
permissions included, is as it was. -/
structure ClearsHeaders (mm : MemoryMap abi.limit) (maps : NodeHeap × ProcmapsIterator)
    (names : Finset (List Char)) (type : CleanElfHeaderType) : Prop where
  access : ∀ fuel,
    (clearElfHeader abi fuel (some maps) names type).Safe HeaderStep isAccess mm.mem
  frame : ∃ fuel success,
    ((clearElfHeader abi fuel (some maps) names type).runWith carryOut mm.mem).2 =
      (some success,
        zeroHeaders (headerSize abi type) (mm.mappings.filter (Meant names ·)) mm.mem)

variable {mm : MemoryMap abi.limit} {lines : List Line} {alloc : ℕ → Ptr}

/-- The loop over what `pmparser_parse` builds, unless that is a cycle. -/
theorem clearElfHeader_list (hlisting : Listing mm.mappings lines)
    (hinj : Function.Injective alloc) (hne : ∀ i, alloc i ≠ nullptr)
    (hone : mm.mappings.length ≠ 1) (hlt : mm.mappings.length < 2 ^ 31)
    (hshort : ∀ line ∈ lines, line.length < 1024) :
    ∃ maps, pmparserParse abi alloc lines.flatten = some maps ∧ ∀ fuel,
      clearElfHeader abi fuel (some maps) names type =
        clearList abi names type fuel (mm.mappings.map record) false := by
  obtain ⟨heap, it, hparse, hholds⟩ := hlisting.holds hinj hne hone hlt hshort
  exact ⟨(heap, it), hparse, fun fuel => clearLoop_holds fuel false hholds⟩

/-- A single mapping makes a loop that does not end. -/
theorem not_clearsHeaders_one (hlisting : Listing mm.mappings lines)
    (hinj : Function.Injective alloc) (hne : ∀ i, alloc i ≠ nullptr)
    (hone : mm.mappings.length = 1) {maps : NodeHeap × ProcmapsIterator}
    (hparse : pmparserParse abi alloc lines.flatten = some maps) :
    ¬ ClearsHeaders mm maps names type := by
  intro h
  obtain ⟨heap, it⟩ := maps
  obtain ⟨fuel, success, hrun⟩ := h.frame
  have hyields : (clearElfHeader abi fuel (some (heap, it)) names type).Yields (· = none) :=
    clearLoop_loops (hlisting.loops hinj hne hone hparse) fuel false
  have hnone := Prog.runWith_yields carryOut hyields mm.mem
  rw [hrun] at hnone
  simp at hnone

/-- The function touches what it may exactly when the parser reads the maps file into a list that
ends, every mapping it picks can be read, and it picks those with the magic by the names they
have. -/
theorem clearsHeaders_iff (hlisting : Listing mm.mappings lines)
    (hinj : Function.Injective alloc) (hne : ∀ i, alloc i ≠ nullptr)
    (names : Finset (List Char)) (type : CleanElfHeaderType) :
    (∃ maps, pmparserParse abi alloc lines.flatten = some maps ∧
        ClearsHeaders mm maps names type) ↔
      (mm.mappings.length ≠ 1 ∧ mm.mappings.length < 2 ^ 31 ∧
        ∀ line ∈ lines, line.length < 1024) ∧
        (∀ m ∈ mm.mappings, cutPath m.path ∈ names → m.perms.r = true) ∧
          ∀ m ∈ mm.mappings, HasMagic m → (cutPath m.path ∈ names ↔ m.path ∈ names) := by
  have hplace : ∀ m ∈ mm.mappings, InPlace mm.mem m := fun m hm a ha => mm.mem_has hm ha
  have hchoice : (∀ m ∈ mm.mappings, decide (Cleared names m) = decide (Meant names m)) ↔
      ∀ m ∈ mm.mappings, HasMagic m → (cutPath m.path ∈ names ↔ m.path ∈ names) := by
    refine forall₂_congr fun m hm => ?_
    rw [decide_eq_decide, Cleared, Meant, and_congr_left_iff]
  have hclear := @zeroHeaders_inj abi type mm (fun m => decide (Cleared names m))
    (fun m => decide (Meant names m)) (fun m hm => (of_decide_eq_true hm).2)
    (fun m hm => (of_decide_eq_true hm).2)
  rw [hchoice] at hclear
  refine ⟨?_, ?_⟩
  · rintro ⟨maps, hparse, h⟩
    have hone : mm.mappings.length ≠ 1 :=
      fun hone => not_clearsHeaders_one hlisting hinj hne hone hparse h
    obtain ⟨hlt, hshort⟩ := hlisting.of_parsed hparse
    obtain ⟨maps', hparse', hlist⟩ :=
      @clearElfHeader_list abi names type mm lines alloc hlisting hinj hne hone hlt hshort
    rw [hparse] at hparse'
    obtain rfl := Option.some.inj hparse'
    refine ⟨⟨hone, hlt, hshort⟩, ?_, ?_⟩
    · have hsafe := h.access (mm.mappings.length + 1)
      rw [hlist] at hsafe
      exact readable_of_safe_clearList hplace (Nat.lt_succ_self _) hsafe
    · obtain ⟨fuel, success, hrun⟩ := h.frame
      rw [hlist] at hrun
      have hfuel := length_lt_of_clearList (congrArg Prod.fst hrun)
      rw [List.length_map] at hfuel
      obtain ⟨result, hdone⟩ := @runWith_clearList _ _ names type _ mm.apart hplace _ hfuel false
      rw [hrun] at hdone
      exact hclear.mp (Prod.mk.inj hdone).2.symm
  · rintro ⟨⟨hone, hlt, hshort⟩, hr, hnames⟩
    obtain ⟨maps, hparse, hlist⟩ :=
      @clearElfHeader_list abi names type mm lines alloc hlisting hinj hne hone hlt hshort
    refine ⟨maps, hparse, ?_, ?_⟩
    · intro fuel
      rw [hlist]
      exact safe_clearList mm.apart hplace hr fuel false
    · obtain ⟨result, hrun⟩ := @runWith_clearList _ _ names type _ mm.apart hplace _
        (Nat.lt_succ_self mm.mappings.length) false
      refine ⟨mm.mappings.length + 1, result, ?_⟩
      rw [hlist, hrun]
      exact congrArg _ (hclear.mpr hnames)

/-- The first segment of a library. -/
def elfPage (perms : Perms) : Mapping (Abi.limit .aarch64) where
  start := 0x2000
  bytes := ELFMAG ++ List.replicate 4092 0
  perms := perms
  path := "/data/app/libapp.so".toList
  start_pos := by decide
  nonempty := by rw [List.length_append, List.length_replicate]; decide
  le_limit := by rw [List.length_append, List.length_replicate]; decide
  start_page := by decide
  length_page := by rw [List.length_append, List.length_replicate]; decide
  path_newline := newline_notMem_libapp
  path_nul := nul_notMem_libapp

theorem elfPage_length (perms : Perms) : (elfPage perms).length = 4096 := by
  rw [Mapping.length, elfPage, List.length_append, List.length_replicate]
  decide

/-- The segment comes after a page of code. -/
def twoPages (perms : Perms) : MemoryMap (Abi.limit .aarch64) where
  mappings := [codePage, elfPage perms]
  apart := by
    refine List.pairwise_pair.mpr fun a hcode helf => ?_
    rw [codePage, page_length] at hcode
    rw [elfPage_length] at helf
    change 0x1000 ≤ a ∧ a < 0x1000 + 4096 at hcode
    change 0x2000 ≤ a ∧ a < 0x2000 + 4096 at helf
    omega

/-- The maps file of the two pages. -/
def twoLines (perms : Perms) : List Line := mapsLines (twoPages perms).mappings

theorem twoLines_short (perms : Perms) : ∀ line ∈ twoLines perms, line.length < 1024 := by
  refine mapsLines_short fun m hm => ?_
  rcases List.mem_pair.mp hm with rfl | rfl
  · decide
  · exact show "/data/app/libapp.so".toList.length < 900 by decide

theorem clearsHeaders_iff_readable :
    ∃ maps, pmparserParse .aarch64 blocks (twoLines ⟨true, false, false⟩).flatten = some maps ∧
      ClearsHeaders (twoPages ⟨true, false, false⟩) maps {codePage.path} .cleanElf := by
  refine (clearsHeaders_iff (listing_mapsLines _) blocks_injective blocks_ne _ _).mpr ?_
  refine ⟨⟨by decide, by decide, twoLines_short _⟩, ?_, ?_⟩
  · intro m hm _
    rcases List.mem_pair.mp hm with rfl | rfl
    · rfl
    · rfl
  · intro m hm _
    rcases List.mem_pair.mp hm with rfl | rfl
    · decide
    · decide

/-- The header of a segment that may be executed and not read is read. -/
theorem clearElfHeader_reads_unreadable :
    ¬ ∃ maps, pmparserParse .aarch64 blocks (twoLines ⟨false, false, true⟩).flatten = some maps ∧
      ClearsHeaders (twoPages ⟨false, false, true⟩) maps {codePage.path} .cleanElf := by
  rintro ⟨maps, hparse, h⟩
  obtain ⟨maps', hparse', hlist⟩ := @clearElfHeader_list .aarch64 {codePage.path} .cleanElf
    (twoPages ⟨false, false, true⟩) _ blocks (listing_mapsLines _) blocks_injective blocks_ne
    (by decide) (by decide) (twoLines_short _)
  obtain rfl : maps = maps' := Option.some.inj (hparse.symm.trans hparse')
  have hsafe := h.access 3
  rw [hlist] at hsafe
  have hr := readable_of_safe_clearList (fun m hm a ha => MemoryMap.mem_has _ hm ha)
    (show 2 < 3 by decide) hsafe (elfPage ⟨false, false, true⟩) (by simp [twoPages]) (by decide)
  exact absurd hr (by decide)

end NativeLib.HideMaps
