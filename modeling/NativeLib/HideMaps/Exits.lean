import NativeLib.HideMaps.Stages

/-! What a failed sequence leaves behind. There is no way back: an exit undoes nothing, so the
range is as before only where nothing was done to it yet, or by the chance that its bytes were
zero. -/

namespace NativeLib.HideMaps

open Interaction Memory
open Prog (call wp wp_mono)

variable {abi : Abi} {M M₀ : Mem} {m : Mapping abi.limit} {b : ℕ}

/-- The range of `m` is mapped, with the bytes and the permissions of `m`. -/
def Intact (m : Mapping abi.limit) (M : Mem) : Prop :=
  ∀ a, m.Has a → ∃ c, M a = some c ∧ c.byte = m.byteAt a ∧ c.perms = m.perms

/-- The calls of a run that change the range, where they are carried out. -/
def unmapped (m : Mapping abi.limit) : KernelCall × KAnswer :=
  (.munmap m.start m.length, .ok 0)

def readAdded (m : Mapping abi.limit) : KernelCall × KAnswer :=
  (.mprotect m.start m.length (getProt (record m) ||| PROT_READ), .ok 0)

def writeAdded (m : Mapping abi.limit) : KernelCall × KAnswer :=
  (.mprotect m.start m.length (getProt (record m) ||| PROT_WRITE), .ok 0)

/-- The new mapping was placed where the old one was. -/
def replaced (m : Mapping abi.limit) : KernelCall × KAnswer :=
  (.mmap m.start m.length (getProt (record m)), .ok m.start)

/-- Nothing was done to the range: it was not unmapped, and no permission was added. -/
def Untouched (m : Mapping abi.limit) (tr : Trace KernelCall KAnswer) : Prop :=
  unmapped m ∉ tr ∧ writeAdded m ∉ tr ∧ (m.perms.r = true ∨ readAdded m ∉ tr)

/-- The new mapping is in place, nothing was added to its permissions, and its zeros are what
was there before. -/
def ZerosInPlace (m : Mapping abi.limit) (tr : Trace KernelCall KAnswer) : Prop :=
  replaced m ∈ tr ∧ writeAdded m ∉ tr ∧ ∀ a, m.Has a → m.byteAt a = 0

/-- What a wrapper returns: the value of a call that was carried out, and for an error either `-1`
or a value above all memory. -/
structure Reports (wrapper : KAnswer → abi.Long) : Prop where
  ok : ∀ v, wrapper (.ok v) = BitVec.ofNat _ v
  err : ∀ e, 0 < e → e ≤ MAX_ERRNO →
    wrapper (.err e) = MAP_FAILED abi ∨ abi.limit ≤ (wrapper (.err e)).toNat

theorem reports_libcWrapper : Reports (libcWrapper abi) := ⟨fun _ => rfl, fun _ _ _ => .inl rfl⟩

theorem reports_rawSyscall : Reports (rawSyscall abi) :=
  ⟨fun _ => rfl, fun _ hpos hle => .inr (limit_le_rawSyscall hpos hle)⟩

variable {wrapper : KAnswer → abi.Long}

/-- The rule for a checked call: its failure is noticed, or the sequence goes on without it, or it
is carried out. -/
theorem wp_checked (hw : Reports wrapper) {c : KernelCall} {next : abi.Long → KernelProg ℕ}
    {Q : Trace KernelCall KAnswer → ℕ → Mem → Prop}
    (hseen : ∀ e, Q [(c, .err e)] 1 M)
    (hunseen : ∀ e v, abi.limit ≤ v.toNat →
      (next v).wp (KStep abi.limit) (fun _ => False) M fun tr ret u => Q ((c, .err e) :: tr) ret u)
    (hok : ∀ v M', KStep abi.limit M c (.ok v) M' → v < 2 ^ abi.bits →
      (next (BitVec.ofNat _ v)).wp (KStep abi.limit) (fun _ => False) M'
        fun tr ret u => Q ((c, .ok v) :: tr) ret u) :
    (failureReturn wrapper c next).wp (KStep abi.limit) (fun _ => False) M Q := by
  rw [failureReturn_eq, Prog.wp_ask]
  refine ⟨False.elim, ?_⟩
  intro r M' hstep
  have hlegal := legal_of_kstep hstep
  cases r with
  | err e =>
    cases hstep
    by_cases heq : wrapper (.err e) = MAP_FAILED abi
    · rw [if_pos heq]
      exact hseen e
    · rw [if_neg heq]
      exact hunseen e _ ((hw.err e hlegal.2.1 hlegal.2.2).resolve_left heq)
  | ok v =>
    have hne : wrapper (.ok v) ≠ MAP_FAILED abi := by
      rw [hw.ok]
      exact ofNat_ne_failed hlegal
    rw [if_neg hne, hw.ok]
    exact hok v M' hstep (Nat.lt_of_add_right_lt hlegal)

/-- The rule for a copy: where it cannot be made, there is nothing to show. -/
theorem wp_memcpy {dest src n : ℕ} {next : KernelProg ℕ}
    {Q : Trace KernelCall KAnswer → ℕ → Mem → Prop}
    (h : M.All (·.perms.r = true) src n → M.All (·.perms.w = true) dest n →
      next.wp (KStep abi.limit) (fun _ => False) (M.copy dest src n)
        fun tr ret u => Q ((.memcpy dest src n, .ok 0) :: tr) ret u) :
    (call (.memcpy dest src n) >>= fun _ => next).wp (KStep abi.limit) (fun _ => False) M Q := by
  rw [Prog.call_bind, Prog.wp_ask]
  refine ⟨False.elim, ?_⟩
  intro r M' hstep
  cases hstep with
  | copied hsrc hdest => exact h hsrc hdest
  | failed hc => simp [KernelCall.isSyscall] at hc

/-- Every address of the range holds the bytes and permissions of `cell`. -/
theorem Stage.intact_iff {cell : ℕ → Cell} {byte : ℕ → UInt8}
    (h : Stage M₀ m b (fun a => some (cell a)) byte M) :
    Intact m M ↔ ∀ a, m.Has a → (cell a).byte = m.byteAt a ∧ (cell a).perms = m.perms := by
  refine forall₂_congr fun a ha => ?_
  simp [h.range a ha]

theorem not_intact_of_hole {a : ℕ} (ha : m.Has a) (h : M a = none) : ¬ Intact m M := by
  intro hi
  obtain ⟨c, hc, -⟩ := hi a ha
  simp [h] at hc

/-- A new mapping that is placed elsewhere leaves a hole. -/
theorem Stage.hole {byte : ℕ → UInt8} (h : Stage M₀ m b (fun _ => none) byte M) {v : ℕ}
    (hv : v ≠ m.start) (p : Perms) : ∃ a, m.Has a ∧ M.place v m.length p a = none := by
  obtain ⟨a, ha, hout⟩ := exists_not_within hv
  exact ⟨a, ha, by rw [Mem.place_out hout, h.range a ha]⟩

/-- A permission more than the mapping had. -/
theorem Stage.not_intact_of_perms {cell : ℕ → Cell} {byte : ℕ → UInt8}
    (h : Stage M₀ m b (fun a => some (cell a)) byte M)
    (hp : (cell m.start).perms ≠ m.perms) : ¬ Intact m M := by
  rw [h.intact_iff]
  exact fun hi => hp (hi m.start m.has_start).2

/-- An address of the range can be written only if the cells of the range can. -/
theorem Stage.perms_of_all {cell : ℕ → Cell} {byte : ℕ → UInt8} {P : Perms → Prop}
    (h : Stage M₀ m b (fun a => some (cell a)) byte M)
    (hall : M.All (fun c => P c.perms) m.start m.length) : P (cell m.start).perms := by
  obtain ⟨c, hc, hP⟩ := hall m.start m.has_start
  rw [h.range _ m.has_start, Option.some_inj] at hc
  rwa [hc]

/-- Placing memory elsewhere changes neither the range nor the backup. -/
theorem Stage.placeElsewhere {cell : ℕ → Cell} {byte : ℕ → UInt8} {v n : ℕ}
    (h : Stage M₀ m b (fun a => some (cell a)) byte M) (hfree : M.Free v n) (p : Perms) :
    Stage (M₀.place v n p) m b (fun a => some (cell a)) byte (M.place v n p) := by
  have hout : ∀ {a c}, M a = some c → ¬ Within v n a := by
    intro a c hc hw
    rw [hfree a hw] at hc
    exact Option.some_ne_none c hc.symm
  refine ⟨fun a ha => ?_, fun a ha => ?_, fun a hm hb => ?_, h.apart⟩
  · rw [Mem.place_out (hout (h.range a ha)), h.range a ha]
  · rw [Mem.place_out (hout (h.backup a ha)), h.backup a ha]
  · simp only [Mem.place, h.other a hm hb]

/-- The end of the sequence, once a new mapping was asked for. -/
def putBack (wrapper : KAnswer → abi.Long) (m : Mapping abi.limit) (b : ℕ) : KernelProg ℕ :=
  failureReturn wrapper (.mprotect m.start m.length (getProt (record m) ||| PROT_WRITE)) fun _ =>
    call (.memcpy m.start b m.length) >>= fun _ =>
      failureReturnUnless m.perms.w wrapper (.mprotect m.start m.length (getProt (record m)))
        (pure 0)

/-- Where write permission was added and is to be taken away again, a failure to do so is
noticed too late. -/
theorem putBack_written (hw : Reports wrapper) {cell : ℕ → Cell} {byte : ℕ → UInt8}
    (h : Stage M₀ m b (fun a => some (cell a)) byte M)
    (hperms : (cell m.start).perms.w = true) :
    (call (.memcpy m.start b m.length) >>= fun _ =>
      failureReturnUnless m.perms.w wrapper (.mprotect m.start m.length (getProt (record m)))
        (pure 0)).wp (KStep abi.limit) (fun _ => False) M
      fun _ ret M' => ret ≠ 0 → ¬ Intact m M' := by
  apply wp_memcpy
  intro _ _
  unfold failureReturnUnless
  split
  · simp
  · next hnot =>
    apply wp_checked hw
    · intro e _
      refine h.copyBack.not_intact_of_perms fun heq => hnot ?_
      rw [← heq]
      exact hperms
    · simp
    · simp

/-- Where write permission could not be added, the copy goes through only if the mapping had it,
and then nothing is left that could fail. -/
theorem putBack_unwritten {cell : ℕ → Cell} {byte : ℕ → UInt8}
    (h : Stage M₀ m b (fun a => some (cell a)) byte M)
    (hperms : (cell m.start).perms.w = m.perms.w) :
    (call (.memcpy m.start b m.length) >>= fun _ =>
      failureReturnUnless m.perms.w wrapper (.mprotect m.start m.length (getProt (record m)))
        (pure 0)).wp (KStep abi.limit) (fun _ => False) M fun _ ret _ => ret = 0 := by
  apply wp_memcpy
  intro _ hdest
  have hwrite : m.perms.w = true := by
    rw [← hperms]
    exact h.perms_of_all (P := (·.w = true)) hdest
  rw [failureReturnUnless, if_pos hwrite]
  simp

/-- With a hole in the range no call goes through any more. -/
theorem putBack_hole (hw : Reports wrapper) {a : ℕ} (ha : m.Has a) (hnone : M a = none) :
    (putBack wrapper m b).wp (KStep abi.limit) (fun _ => False) M
      fun tr ret M' => ret ≠ 0 → ¬ Intact m M' ∧ ∀ x ∈ tr, ∃ e, x.2 = .err e := by
  apply wp_checked hw
  · intro e _
    exact ⟨not_intact_of_hole ha hnone, by simp⟩
  · intro e v _
    apply wp_memcpy
    intro _ hdest
    obtain ⟨c, hc, -⟩ := hdest a ha
    simp [hnone] at hc
  · intro v M' hstep _
    cases hstep with
    | permitted _ hall =>
      obtain ⟨c, hc, -⟩ := hall a ha
      simp [hnone] at hc

/-- The end of the sequence neither maps nor unmaps. -/
theorem putBack_asks : (putBack wrapper m b).Asks fun c =>
    c ≠ (unmapped m).1 ∧ c ≠ (replaced m).1 := by
  refine ⟨⟨KernelCall.noConfusion, KernelCall.noConfusion⟩, fun r => .ite trivial ?_⟩
  refine ⟨⟨KernelCall.noConfusion, KernelCall.noConfusion⟩, fun _ => .ite trivial ?_⟩
  exact ⟨⟨KernelCall.noConfusion, KernelCall.noConfusion⟩, fun _ => .ite trivial trivial⟩

/-- What the end of the sequence makes of a range whose cells have the write permission of the
mapping: it is intact if it was so before and none is added. -/
theorem putBack_exits (hw : Reports wrapper) {cell : ℕ → Cell} {byte : ℕ → UInt8}
    (h : Stage M₀ m b (fun a => some (cell a)) byte M)
    (hperms : (cell m.start).perms.w = m.perms.w) :
    (putBack wrapper m b).wp (KStep abi.limit) (fun _ => False) M
      fun tr ret M' => ret ≠ 0 → (Intact m M' ↔ writeAdded m ∉ tr ∧ Intact m M) := by
  apply wp_checked hw
  · intro e _
    simp [writeAdded]
  · intro e v _
    refine wp_mono ?_ (putBack_unwritten h hperms)
    intro tr ret M' hzero hret
    exact absurd hzero hret
  · intro v M' hstep _
    cases hstep with
    | permitted _ _ =>
      rw [ofProt_getProt_write]
      refine wp_mono ?_ (putBack_written hw (h.protect { m.perms with w := true }) rfl)
      intro tr ret M' hlost hret
      simp [hlost hret, writeAdded]

/-- With its permission to be read, the range is intact if it had it. -/
theorem Stage.intact_read {byte : ℕ → UInt8}
    (h : Stage M₀ m b (fun a => some { m.cellAt a with perms := { m.perms with r := true } })
      byte M) : Intact m M ↔ m.perms.r = true := by
  rw [h.intact_iff]
  refine ⟨fun hall => ?_, fun hr a _ => ⟨rfl, ?_⟩⟩
  · rw [← (hall m.start m.has_start).2]
  · rw [← hr]

/-- The exits after `munmap` failed without being noticed: the range still stands. -/
theorem standing_exits (hw : Reports wrapper)
    (h : Stage M₀ m b (fun a => some { m.cellAt a with perms := { m.perms with r := true } })
      (fun a => m.byteAt (source m b a)) M) :
    (failureReturn wrapper (.mmap m.start m.length (getProt (record m))) fun _ =>
      putBack wrapper m b).wp (KStep abi.limit) (fun _ => False) M
      fun tr ret M' => ret ≠ 0 → (Intact m M' ↔ writeAdded m ∉ tr ∧ m.perms.r = true) ∧
        unmapped m ∉ tr ∧ replaced m ∉ tr := by
  apply wp_checked hw
  · intro e _
    simp [h.intact_read, writeAdded, unmapped, replaced]
  · intro e v _
    refine wp_mono ?_ (Prog.wp_asks putBack_asks (putBack_exits hw h rfl))
    rintro tr ret M' ⟨hasks, hexit⟩ hret
    rw [hexit hret, h.intact_read]
    have hunmapped : unmapped m ∉ tr := fun hx => (hasks _ hx).1 rfl
    have hreplaced : replaced m ∉ tr := fun hx => (hasks _ hx).2 rfl
    simpa [writeAdded, unmapped, replaced] using ⟨hunmapped, hreplaced⟩
  · intro v M' hstep _
    cases hstep with
    | mapped _ _ hfree hpos hlim =>
      -- the new mapping cannot be where the old one still is
      have hv : v ≠ m.start := by
        rintro rfl
        have hnone := hfree m.start m.has_start
        rw [h.range _ m.has_start] at hnone
        exact Option.some_ne_none _ hnone
      have helse := h.placeElsewhere hfree (Perms.ofProt (getProt (record m)))
      refine wp_mono ?_ (Prog.wp_asks putBack_asks (putBack_exits hw helse rfl))
      rintro tr ret M' ⟨hasks, hexit⟩ hret
      rw [hexit hret, helse.intact_read]
      have hunmapped : unmapped m ∉ tr := fun hx => (hasks _ hx).1 rfl
      have hreplaced : replaced m ∉ tr := fun hx => (hasks _ hx).2 rfl
      simpa [writeAdded, unmapped, replaced, hv.symm] using ⟨hunmapped, hreplaced⟩

/-- The exits after the range is gone: it is intact only if zeros took the place of zeros. -/
theorem gone_exits (hw : Reports wrapper) {byte : ℕ → UInt8}
    (h : Stage M₀ m b (fun _ => none) byte M) :
    (failureReturn wrapper (.mmap m.start m.length (getProt (record m))) fun _ =>
      putBack wrapper m b).wp (KStep abi.limit) (fun _ => False) M
      fun tr ret M' => ret ≠ 0 → (Intact m M' ↔ ZerosInPlace m tr) := by
  have hgone := not_intact_of_hole m.has_start (h.range m.start m.has_start)
  apply wp_checked hw
  · intro e _
    simp [hgone, ZerosInPlace, replaced]
  · intro e v _
    refine wp_mono ?_ (putBack_hole hw m.has_start (h.range m.start m.has_start))
    intro tr ret M' hexit hret
    obtain ⟨hlost, herr⟩ := hexit hret
    have hreplaced : replaced m ∉ tr := by
      intro hx
      obtain ⟨e, he⟩ := herr _ hx
      exact KAnswer.noConfusion he
    simpa [hlost, ZerosInPlace, replaced] using fun hx => absurd hx hreplaced
  · intro v M' hstep _
    cases hstep with
    | mapped _ _ hfree hpos hlim =>
      rw [ofProt_getProt]
      by_cases hv : v = m.start
      · subst hv
        have hplaced := h.restore m.perms
        refine wp_mono ?_ (putBack_exits hw hplaced rfl)
        intro tr ret M' hexit hret
        have hzero : (∀ a, m.Has a → (0 : UInt8) = m.byteAt a ∧ m.perms = m.perms) ↔
            ∀ a, m.Has a → m.byteAt a = 0 := by
          simp [eq_comm]
        rw [hexit hret, hplaced.intact_iff, hzero]
        simp [ZerosInPlace, replaced, writeAdded]
      · -- the hint was not honoured, and the next call finds a hole in the range
        obtain ⟨a, ha, hnone⟩ := h.hole hv m.perms
        refine wp_mono ?_ (putBack_hole hw ha hnone)
        intro tr ret M' hexit hret
        obtain ⟨hlost, herr⟩ := hexit hret
        have hreplaced : replaced m ∉ tr := by
          intro hx
          obtain ⟨e, he⟩ := herr _ hx
          exact KAnswer.noConfusion he
        simpa [hlost, ZerosInPlace, replaced, Ne.symm hv] using fun hx => absurd hx hreplaced

/-- The exits after the backup. -/
theorem remapBackedUp_exits (hw : Reports wrapper)
    (h : Stage M₀ m b
      (fun a => some { m.cellAt a with perms := { m.perms with r := true } }) (fun _ => 0) M) :
    (remapBackedUp wrapper (record m) b).wp (KStep abi.limit) (fun _ => False) M
      fun tr ret M' => ret ≠ 0 → (Intact m M' ↔
        (unmapped m ∉ tr ∧ writeAdded m ∉ tr ∧ m.perms.r = true) ∨ ZerosInPlace m tr) := by
  rw [remapBackedUp_record]
  apply wp_memcpy
  intro _ _
  have hcopied := h.copyOut
  apply wp_checked hw
  · -- the range still stands, perhaps with a permission more
    intro e _
    simp [hcopied.intact_read, ZerosInPlace, unmapped, replaced, writeAdded]
  · intro e v _
    refine wp_mono ?_ (standing_exits hw hcopied)
    intro tr ret M' hexit hret
    obtain ⟨hintact, hunmapped, hreplaced⟩ := hexit hret
    rw [unmapped] at hunmapped
    rw [replaced] at hreplaced
    rw [hintact]
    simp [ZerosInPlace, unmapped, replaced, writeAdded, hunmapped, hreplaced]
  · intro v M₁ hstep _
    cases hstep
    refine wp_mono ?_ (gone_exits hw hcopied.unmap)
    intro tr ret M' hexit hret
    rw [hexit hret]
    simp [ZerosInPlace, unmapped, replaced, writeAdded]

/-- A backup above all memory is never written. -/
theorem remapBackedUp_stuck (hb : M.Bounded abi.limit) (h : abi.limit ≤ b)
    {Q : Trace KernelCall KAnswer → ℕ → Mem → Prop} :
    (remapBackedUp wrapper (record m) b).wp (KStep abi.limit) (fun _ => False) M Q := by
  rw [remapBackedUp_record]
  apply wp_memcpy
  intro _ hdest
  have hfirst : Within b m.length b := ⟨Nat.le_refl b, Nat.lt_add_of_pos_right m.nonempty⟩
  obtain ⟨c, hc, -⟩ := hdest b hfirst
  rw [hb b h] at hc
  exact absurd hc.symm (Option.some_ne_none c)

/-- Nor is one of a range that cannot be read. -/
theorem remapBackedUp_unreadable {byte : ℕ → UInt8}
    (h : Stage M₀ m b (fun a => some (m.cellAt a)) byte M) (hr : ¬ m.perms.r = true)
    {Q : Trace KernelCall KAnswer → ℕ → Mem → Prop} :
    (remapBackedUp wrapper (record m) b).wp (KStep abi.limit) (fun _ => False) M Q := by
  rw [remapBackedUp_record]
  apply wp_memcpy
  intro hsrc _
  exact absurd (h.perms_of_all (P := (·.r = true)) hsrc) hr

/-- The range after a failed sequence, from any memory that holds the mapping. -/
theorem remap_exits (hw : Reports wrapper) (h : ∀ a, m.Has a → M₀ a = some (m.cellAt a))
    (hbounded : M₀.Bounded abi.limit) :
    (remap wrapper (record m)).wp (KStep abi.limit) (fun _ => False) M₀
      fun tr ret M' => ret ≠ 0 → (Intact m M' ↔ Untouched m tr ∨ ZerosInPlace m tr) := by
  have hstart : m.start ≠ 0 := Nat.ne_of_gt m.start_pos
  have hrw : Perms.ofProt (PROT_READ ||| PROT_WRITE) = readWrite := by decide
  have hkept : Intact m M₀ := fun a ha => ⟨_, h a ha, rfl, rfl⟩
  rw [remap_record]
  apply wp_checked hw
  · intro e _
    simp [hkept, Untouched, unmapped, writeAdded, readAdded]
  · -- the address of the backup is the error number
    intro e v hv
    unfold failureReturnUnless
    split
    · exact remapBackedUp_stuck hbounded hv
    · apply wp_checked hw
      · intro e _
        simp [hkept, Untouched, unmapped, writeAdded, readAdded]
      · intro e _ _
        exact remapBackedUp_stuck hbounded hv
      · intro v' M₁ hstep _
        exact remapBackedUp_stuck (hstep.bounded hbounded) hv
  intro b M₁ hstep hb
  cases hstep with
  | mapped _ _ hfree hpos hlim =>
  rw [hrw, BitVec.toNat_ofNat, Nat.mod_eq_of_lt hb]
  have hplaced := stage_place h hfree
  have hkept₁ : Intact m (M₀.place b m.length readWrite) :=
    hplaced.intact_iff.mpr fun a _ => ⟨rfl, rfl⟩
  unfold failureReturnUnless
  split
  · next hr =>
    have hsame : ∀ a, { m.cellAt a with perms := { m.perms with r := true } } = m.cellAt a := by
      intro a
      rw [← hr]
      rfl
    refine wp_mono ?_ (remapBackedUp_exits hw (by simpa only [hsame] using hplaced))
    intro tr ret M' htail hret
    rw [htail hret]
    simp [Untouched, ZerosInPlace, unmapped, writeAdded, replaced, hr, hstart]
  · next hr =>
    have hne : getProt (record m) ||| PROT_WRITE ≠ getProt (record m) ||| PROT_READ := by
      intro he
      have hperms := congrArg (Perms.r ∘ Perms.ofProt) he
      simp [ofProt_getProt_write, ofProt_getProt_read, hr] at hperms
    apply wp_checked hw
    · intro e _
      simp [hkept₁, Untouched, unmapped, writeAdded, readAdded]
    · intro e _ _
      exact remapBackedUp_unreadable hplaced hr
    intro v M₂ hstep _
    cases hstep
    rw [ofProt_getProt_read]
    refine wp_mono ?_ (remapBackedUp_exits hw (hplaced.protect { m.perms with r := true }))
    intro tr ret M' htail hret
    rw [htail hret]
    simp [Untouched, ZerosInPlace, unmapped, writeAdded, readAdded, replaced, hr, hstart, hne]

/-- A failed sequence leaves the range as it was exactly when it had not touched it, or had put
back nothing but zeros for zeros. It does not matter which of its failures it noticed. -/
theorem remap_failed_iff {mm : MemoryMap abi.limit} (hm : m ∈ mm.mappings)
    {tr : Trace KernelCall KAnswer} {ret : ℕ} {M' : Mem} (hret : ret ≠ 0)
    (h : (doHideOrg abi (record m)).Exec (KStep abi.limit) mm.mem tr ret M' ∨
      (doHide abi (record m)).Exec (KStep abi.limit) mm.mem tr ret M') :
    Intact m M' ↔ Untouched m tr ∨ ZerosInPlace m tr := by
  have hmapped : ∀ a, m.Has a → mm.mem a = some (m.cellAt a) := fun a ha => mm.mem_has hm ha
  rcases h with h | h
  · exact Prog.wp_exec (remap_exits reports_libcWrapper hmapped mm.mem_bounded) h hret
  · exact Prog.wp_exec (remap_exits reports_rawSyscall hmapped mm.mem_bounded) h hret

theorem remap_failed_iff_backup : Intact codePage (onePage codePage).mem := by
  have hstep : KStep (Abi.limit .aarch64) (onePage codePage).mem
      (.mmap 0 codePage.length (PROT_READ ||| PROT_WRITE)) (.err 12) (onePage codePage).mem :=
    .failed rfl (by decide) (by decide)
  have hfail : (doHideOrg .aarch64 (record codePage)).Exec (KStep (Abi.limit .aarch64))
      (onePage codePage).mem [(.mmap 0 codePage.length (PROT_READ ||| PROT_WRITE), .err 12)] 1
      (onePage codePage).mem := by
    rw [doHideOrg, remap_record]
    exact exec_failed rfl hstep
  refine (remap_failed_iff codePage_mem (by decide) (.inl hfail)).mpr (.inl ⟨?_, ?_, .inl rfl⟩)
  · simp [unmapped]
  · simp [writeAdded]

/-- Whatever readable mapping the sequence is given: if the kernel finds no room for the new
mapping, the old one is gone. -/
theorem exists_lost {mm : MemoryMap abi.limit} (hm : m ∈ mm.mappings) (hr : m.perms.r = true)
    (hfree : mm.mem.Free b m.length) (hpos : 0 < b) (hlim : b + m.length ≤ abi.limit) :
    ∃ tr M', (doHideOrg abi (record m)).Exec (KStep abi.limit) mm.mem tr 1 M' ∧
      ¬ Intact m M' := by
  have hcell : ∀ a, m.Has a → mm.mem a = some (m.cellAt a) := fun a ha => mm.mem_has hm ha
  have hplaced := stage_place hcell hfree
  have hcopied := hplaced.copyOut
  have hgone := hcopied.unmap
  have hok : ∀ {M c v M'}, KStep abi.limit M c (.ok v) M' →
      libcWrapper abi (.ok v) ≠ MAP_FAILED abi := fun h => ofNat_ne_failed (legal_of_kstep h)
  have hplace : KStep abi.limit mm.mem (.mmap 0 m.length (PROT_READ ||| PROT_WRITE)) (.ok b)
      (mm.mem.place b m.length readWrite) := .mapped _ _ hfree hpos hlim
  have hcopy : KStep abi.limit _ (.memcpy b m.start m.length) (.ok 0) _ :=
    .copied (fun a ha => ⟨_, hplaced.range a ha, hr⟩) (fun a ha => ⟨_, hplaced.backup a ha, rfl⟩)
  have hunmap : ∀ M : Mem, KStep abi.limit M (.munmap m.start m.length) (.ok 0)
      (M.unmap m.start m.length) := fun M => .unmapped m.start m.length
  have hb : b < 2 ^ abi.bits := Nat.lt_of_add_right_lt (legal_of_kstep hplace)
  refine ⟨[(.mmap 0 m.length (PROT_READ ||| PROT_WRITE), .ok b),
    (.memcpy b m.start m.length, .ok 0), (.munmap m.start m.length, .ok 0),
    (.mmap m.start m.length (getProt (record m)), .err 12)], _, ?_,
    not_intact_of_hole m.has_start (hgone.range _ m.has_start)⟩
  rw [doHideOrg, remap_record]
  refine exec_ok (hok hplace) hplace ?_
  rw [libcWrapper, BitVec.toNat_ofNat, Nat.mod_eq_of_lt hb, failureReturnUnless, if_pos hr,
    remapBackedUp_record]
  refine Prog.exec_call_bind.mpr ⟨.ok 0, _, _, rfl, hcopy, ?_⟩
  refine exec_ok (hok (hunmap mm.mem)) (hunmap _) ?_
  exact exec_failed rfl (.failed rfl (by decide) (by decide))

/-- The mapping is gone, and the kernel has no memory left for the new one. -/
theorem doHideOrg_loses_mapping :
    ¬ ∀ (mm : MemoryMap (Abi.limit .aarch64)) m tr ret M', m ∈ mm.mappings →
      (doHideOrg .aarch64 (record m)).Exec (KStep (Abi.limit .aarch64)) mm.mem tr ret M' →
      ret ≠ 0 → Intact m M' := by
  intro hall
  have hlim : 0x10000 + codePage.length ≤ Abi.limit .aarch64 := by
    rw [codePage, page_length]
    decide
  obtain ⟨tr, M', hrun, hlost⟩ := exists_lost codePage_mem rfl (onePage_free rfl page_length)
    (by decide) hlim
  exact hlost (hall (onePage codePage) codePage tr 1 M' codePage_mem hrun (by decide))

end NativeLib.HideMaps
