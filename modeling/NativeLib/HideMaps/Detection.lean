import NativeLib.HideMaps.HideMapsPath
import NativeLib.Interaction.Guarded

/-! Which failures the two sequences notice. Both compare what a call returns with `-1`. The
libc wrappers return that for every error; the raw system call returns the negated error
number, and only `EPERM` is 1. -/

namespace NativeLib.HideMaps

open Interaction Memory Collections
open Prog (call)

variable {abi : Abi} {σ : Type} {env : σ → KernelCall → KAnswer → σ → Prop}

def EPERM : ℕ := 1

/-- The answers a kernel gives: no value it returns looks like an error number. -/
def Legal (abi : Abi) (c : KernelCall) : KAnswer → Prop
  | .ok v => v + MAX_ERRNO < 2 ^ abi.bits
  | .err e => c.isSyscall = true ∧ 0 < e ∧ e ≤ MAX_ERRNO

/-- The call failed. -/
def Failed (_ : KernelCall) (r : KAnswer) : Prop := ∃ e, r = .err e

/-- The check after the call takes it for failed. -/
def Seen (wrapper : KAnswer → abi.Long) (c : KernelCall) (r : KAnswer) : Prop :=
  c.isSyscall = true ∧ wrapper r = MAP_FAILED abi

theorem guarded_failureReturn {wrapper : KAnswer → abi.Long} {c : KernelCall}
    {next : abi.Long → KernelProg ℕ} (hc : c.isSyscall = true)
    (hnext : ∀ rc, Guarded (Seen wrapper) (next rc)) :
    Guarded (Seen wrapper) (failureReturn wrapper c next) := by
  rw [failureReturn_eq]
  refine .ask ?_ ?_
  · intro r hr
    exact if_pos hr.2
  · intro r hr
    have hne : wrapper r ≠ MAP_FAILED abi := fun h => hr ⟨hc, h⟩
    rw [if_neg hne]
    exact hnext _

theorem guarded_failureReturnUnless {wrapper : KAnswer → abi.Long} {flag : Bool}
    {c : KernelCall} {next : KernelProg ℕ} (hc : c.isSyscall = true)
    (hnext : Guarded (Seen wrapper) next) :
    Guarded (Seen wrapper) (failureReturnUnless flag wrapper c next) := by
  unfold failureReturnUnless
  split
  · exact hnext
  · exact guarded_failureReturn hc fun _ => hnext

theorem guarded_memcpy {wrapper : KAnswer → abi.Long} {dest src n : ℕ}
    {next : KAnswer → KernelProg ℕ} (hnext : ∀ r, Guarded (Seen wrapper) (next r)) :
    Guarded (Seen wrapper) (call (.memcpy dest src n) >>= next) :=
  .ask (fun _ hr => absurd hr.1 (by simp [KernelCall.isSyscall])) fun r _ => hnext r

/-- Every kernel call of the sequence is checked. -/
theorem remap_guarded (wrapper : KAnswer → abi.Long) (d : ProcmapsStruct) :
    Guarded (Seen wrapper) (remap wrapper d) := by
  unfold remap remapBackedUp
  apply guarded_failureReturn rfl
  intro backupAddress
  apply guarded_failureReturnUnless rfl
  apply guarded_memcpy
  intro _
  apply guarded_failureReturn rfl
  intro _
  apply guarded_failureReturn rfl
  intro _
  apply guarded_failureReturn rfl
  intro _
  apply guarded_memcpy
  intro _
  exact guarded_failureReturnUnless rfl .done

theorem two_pow_bits (abi : Abi) : MAX_ERRNO + pageSize < 2 ^ abi.bits := by
  cases abi <;> decide

/-- A value below the error numbers does not look like `-1`. -/
theorem ofNat_ne_failed {v : ℕ} (h : v + MAX_ERRNO < 2 ^ abi.bits) :
    BitVec.ofNat abi.bits v ≠ MAP_FAILED abi := by
  intro he
  have hnat := congrArg BitVec.toNat he
  rw [MAX_ERRNO] at h
  rw [BitVec.toNat_ofNat, MAP_FAILED, BitVec.neg_one_eq_allOnes, BitVec.toNat_allOnes,
    Nat.mod_eq_of_lt (by omega)] at hnat
  omega

/-- The value `-1` is no answer but the negated `EPERM`. -/
theorem rawSyscall_eq_failed {c : KernelCall} {r : KAnswer} (h : Legal abi c r) :
    rawSyscall abi r = MAP_FAILED abi ↔ r = .err EPERM := by
  have hbits := two_pow_bits abi
  rw [MAX_ERRNO, pageSize] at hbits
  cases r with
  | ok v => simpa [rawSyscall] using ofNat_ne_failed h
  | err e =>
    have he : e < 2 ^ abi.bits := by
      have := h.2.2
      rw [MAX_ERRNO] at this
      omega
    simp only [rawSyscall, MAP_FAILED, BitVec.neg_inj, KAnswer.err.injEq, EPERM]
    refine ⟨fun h1 => ?_, fun h1 => by rw [h1]⟩
    have hnat := congrArg BitVec.toNat h1
    rwa [BitVec.toNat_ofNat, BitVec.toNat_ofNat, Nat.mod_eq_of_lt he,
      Nat.mod_eq_of_lt (by omega)] at hnat

/-- The address that an unseen error number makes lies in the page that is never mapped. -/
theorem limit_le_rawSyscall {e : ℕ} (hpos : 0 < e) (hle : e ≤ MAX_ERRNO) :
    abi.limit ≤ (rawSyscall abi (.err e)).toNat := by
  have hbits := two_pow_bits abi
  rw [MAX_ERRNO, pageSize] at *
  unfold Abi.limit
  rw [rawSyscall, BitVec.toNat_neg, BitVec.toNat_ofNat, pageSize,
    Nat.mod_eq_of_lt (by omega : e < 2 ^ abi.bits), Nat.mod_eq_of_lt (by omega)]
  omega

theorem libcWrapper_eq_failed {c : KernelCall} {r : KAnswer} (h : Legal abi c r) :
    libcWrapper abi r = MAP_FAILED abi ↔ Failed c r := by
  cases r with
  | ok v => simpa [libcWrapper, Failed] using ofNat_ne_failed h
  | err e => simp [libcWrapper, Failed]

theorem isSyscall_of_failed {c : KernelCall} {r : KAnswer} (h : Legal abi c r)
    (hf : Failed c r) : c.isSyscall = true := by
  obtain ⟨e, rfl⟩ := hf
  exact h.1

/-- Two wrappers that return the same for the answers of a run have that run in common. -/
theorem failureReturn_congr {w w' : KAnswer → abi.Long} {c : KernelCall}
    {next next' : abi.Long → KernelProg ℕ} {s t : σ} {tr : Trace KernelCall KAnswer} {ret : ℕ}
    (hw : ∀ x ∈ tr, w x.2 = w' x.2)
    (hnext : ∀ rc u tr', (∀ x ∈ tr', w x.2 = w' x.2) → (next rc).Exec env u tr' ret t →
      (next' rc).Exec env u tr' ret t)
    (h : (failureReturn w c next).Exec env s tr ret t) :
    (failureReturn w' c next').Exec env s tr ret t := by
  obtain ⟨r, u, tr', rfl, hr, hk⟩ := exec_failureReturn.mp h
  have hwr : w r = w' r := hw (c, r) (List.mem_cons_self ..)
  have hw : ∀ x ∈ tr', w x.2 = w' x.2 := fun x hx => hw x (List.mem_cons_of_mem _ hx)
  refine exec_failureReturn.mpr ⟨r, u, tr', rfl, hr, ?_⟩
  rw [← hwr]
  split at hk
  · next hbad => rwa [if_pos hbad]
  · next hgood =>
    rw [if_neg hgood]
    exact hnext _ u tr' hw hk

theorem failureReturnUnless_congr {w w' : KAnswer → abi.Long} {flag : Bool} {c : KernelCall}
    {next next' : KernelProg ℕ} {s t : σ} {tr : Trace KernelCall KAnswer} {ret : ℕ}
    (hw : ∀ x ∈ tr, w x.2 = w' x.2)
    (hnext : ∀ u tr', (∀ x ∈ tr', w x.2 = w' x.2) → next.Exec env u tr' ret t →
      next'.Exec env u tr' ret t)
    (h : (failureReturnUnless flag w c next).Exec env s tr ret t) :
    (failureReturnUnless flag w' c next').Exec env s tr ret t := by
  unfold failureReturnUnless at h ⊢
  split at h
  · next hflag =>
    rw [if_pos hflag]
    exact hnext _ _ hw h
  · next hflag =>
    rw [if_neg hflag]
    exact failureReturn_congr hw (fun _ => hnext) h

theorem memcpy_congr {w w' : KAnswer → abi.Long} {c : KernelCall}
    {next next' : KernelProg ℕ} {s t : σ} {tr : Trace KernelCall KAnswer} {ret : ℕ}
    (hw : ∀ x ∈ tr, w x.2 = w' x.2)
    (hnext : ∀ u tr', (∀ x ∈ tr', w x.2 = w' x.2) → next.Exec env u tr' ret t →
      next'.Exec env u tr' ret t)
    (h : (call c >>= fun _ => next).Exec env s tr ret t) :
    (call c >>= fun _ => next').Exec env s tr ret t := by
  obtain ⟨r, u, tr', rfl, hr, hk⟩ := Prog.exec_call_bind.mp h
  exact ⟨r, u, tr', rfl, hr, hnext u tr' (List.forall_mem_cons.mp hw).2 hk⟩

theorem remap_congr {w w' : KAnswer → abi.Long} {d : ProcmapsStruct} {s t : σ}
    {tr : Trace KernelCall KAnswer} {ret : ℕ} (hw : ∀ x ∈ tr, w x.2 = w' x.2)
    (h : (remap w d).Exec env s tr ret t) : (remap w' d).Exec env s tr ret t := by
  unfold remap remapBackedUp at h ⊢
  refine failureReturn_congr hw (fun backup _ _ hw h => ?_) h
  refine failureReturnUnless_congr hw (fun _ _ hw h => ?_) h
  refine memcpy_congr hw (fun _ _ hw h => ?_) h
  refine failureReturn_congr hw (fun _ _ _ hw h => ?_) h
  refine failureReturn_congr hw (fun _ _ _ hw h => ?_) h
  refine failureReturn_congr hw (fun _ _ _ hw h => ?_) h
  refine memcpy_congr hw (fun _ _ hw h => ?_) h
  exact failureReturnUnless_congr hw (fun _ _ _ h => h) h

/-- Every error number in the answers is `EPERM`. -/
def OnlyEPERM (tr : Trace KernelCall KAnswer) : Prop := ∀ x ∈ tr, ∀ e, x.2 = .err e → e = EPERM

/-- For such answers the raw system call returns what the wrapper does. -/
theorem OnlyEPERM.wrappers {tr : Trace KernelCall KAnswer} (h : OnlyEPERM tr) :
    ∀ x ∈ tr, rawSyscall abi x.2 = libcWrapper abi x.2 := by
  rintro ⟨c, r⟩ hx
  cases r with
  | ok v => rfl
  | err e =>
    obtain rfl : e = EPERM := h _ hx e rfl
    rfl

theorem doHideOrg_detects (henv : ∀ s c r t, env s c r t → Legal abi c r) {d : ProcmapsStruct}
    {s t : σ} {tr : Trace KernelCall KAnswer} {ret : ℕ}
    (h : (doHideOrg abi d).Exec env s tr ret t) : Detects Failed tr ret := by
  have hlegal := h.forall_trace henv
  refine ((remap_guarded _ d).detects_iff h ?_).mpr ?_
  · intro x hx hs
    exact (libcWrapper_eq_failed (hlegal x hx)).mp hs.2
  · intro x hx hf
    exact ⟨isSyscall_of_failed (hlegal x hx) hf, (libcWrapper_eq_failed (hlegal x hx)).mpr hf⟩

/-- `do_hide` detects the failures of its calls, and takes the exit that `do_hide_org` takes,
exactly when every error it meets is `EPERM`. -/
theorem doHide_detects_iff (henv : ∀ s c r t, env s c r t → Legal abi c r)
    {d : ProcmapsStruct} {s t : σ} {tr : Trace KernelCall KAnswer} {ret : ℕ}
    (h : (doHide abi d).Exec env s tr ret t) :
    (Detects Failed tr ret ↔ OnlyEPERM tr) ∧
      ((doHideOrg abi d).Exec env s tr ret t ↔ OnlyEPERM tr) := by
  have hlegal := h.forall_trace henv
  have hdetects : Detects Failed tr ret ↔ OnlyEPERM tr := by
    rw [(remap_guarded _ d).detects_iff h fun x hx hs =>
      ⟨EPERM, (rawSyscall_eq_failed (hlegal x hx)).mp hs.2⟩]
    refine forall₂_congr fun x hx => ?_
    refine ⟨?_, ?_⟩
    · intro hseen e he
      have := (rawSyscall_eq_failed (hlegal x hx)).mp (hseen ⟨e, he⟩).2
      rw [he] at this
      exact KAnswer.err.inj this
    · rintro honly ⟨e, he⟩
      refine ⟨isSyscall_of_failed (hlegal x hx) ⟨e, he⟩, ?_⟩
      rw [rawSyscall_eq_failed (hlegal x hx), he, honly e he]
  refine ⟨hdetects, ?_, ?_⟩
  · intro horg
    exact hdetects.mp (doHideOrg_detects henv horg)
  · intro honly
    exact remap_congr honly.wrappers h

/-- A readable, executable mapping of two pages. -/
def codeRecord : ProcmapsStruct := ⟨0x1000, 0x3000, true, false, true, "/data/app/libapp.so".toList⟩

/-- A kernel that carries out everything but `munmap`, which it fails with the error `e`. -/
def munmapFails (e : ℕ) (_ : Unit) : KernelCall → KAnswer × Unit
  | .mmap _ _ _ => (.ok 0x10000, ())
  | .munmap _ _ => (.err e, ())
  | _ => (.ok 0, ())

def munmapEnv (e : ℕ) (s : Unit) (c : KernelCall) (r : KAnswer) (t : Unit) : Prop :=
  munmapFails e s c = (r, t)

theorem munmapEnv_legal {e : ℕ} (hpos : 0 < e) (hle : e ≤ MAX_ERRNO) {s t : Unit}
    {c : KernelCall} {r : KAnswer} (h : munmapEnv e s c r t) : Legal .aarch64 c r := by
  obtain ⟨rfl, -⟩ := Prod.mk.inj h
  cases c with
  | munmap addr length => exact ⟨rfl, hpos, hle⟩
  | mmap addr length prot => simp [Legal, MAX_ERRNO, Abi.bits]
  | mprotect addr length prot => simp [Legal, MAX_ERRNO, Abi.bits]
  | memcpy dest src n => simp [Legal, MAX_ERRNO, Abi.bits]

/-- The run of `do_hide` against that kernel. -/
def hideCode (e : ℕ) : Trace KernelCall KAnswer × ℕ × Unit :=
  (doHide .aarch64 codeRecord).runWith (munmapFails e) ()

theorem hideCode_exec (e : ℕ) :
    (doHide .aarch64 codeRecord).Exec (munmapEnv e) () (hideCode e).1 (hideCode e).2.1 () :=
  Prog.runWith_exec (fun _ _ => rfl) _ _

theorem doHide_detects_iff_eperm :
    Detects Failed (hideCode EPERM).1 (hideCode EPERM).2.1 ∧
      (doHideOrg .aarch64 codeRecord).Exec (munmapEnv EPERM) () (hideCode EPERM).1
        (hideCode EPERM).2.1 () := by
  have hiff := doHide_detects_iff
    (fun _ _ _ _ h => munmapEnv_legal (by decide) (by decide) h) (hideCode_exec EPERM)
  have honly : OnlyEPERM (hideCode EPERM).1 := by
    have htr : (hideCode EPERM).1 = [(.mmap 0 0x2000 3, .ok 0x10000),
        (.memcpy 0x10000 0x1000 0x2000, .ok 0), (.munmap 0x1000 0x2000, .err EPERM)] := by decide
    simp [OnlyEPERM, htr]
  exact ⟨hiff.1.mpr honly, hiff.2.mpr honly⟩

/-- `munmap` fails with `ENOMEM`, and `do_hide` goes on and returns 0. -/
theorem doHide_misses_enomem :
    ¬ ∀ (env : Unit → KernelCall → KAnswer → Unit → Prop) (d : ProcmapsStruct) s tr ret t,
      (∀ s c r t, env s c r t → Legal .aarch64 c r) →
      (doHide .aarch64 d).Exec env s tr ret t → Detects Failed tr ret := by
  intro hall
  have hd := hall _ _ _ _ _ _ (fun _ _ _ _ h => munmapEnv_legal (by decide) (by decide) h)
    (hideCode_exec 12)
  have hret : (hideCode 12).2.1 = 0 := by decide
  have hmem : (.munmap 0x1000 0x2000, .err 12) ∈ (hideCode 12).1 := by decide
  exact hd.result.mpr ⟨_, hmem, 12, rfl⟩ hret

end NativeLib.HideMaps
