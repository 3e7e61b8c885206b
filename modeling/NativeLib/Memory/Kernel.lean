import Mathlib.Data.Set.Defs
import NativeLib.Interaction.Logic
import NativeLib.Memory.AddressSpace

/-! The kernel calls that change an address space, with every answer the kernel may give. A
call that fails changes nothing. A copy is no kernel call, but it needs the permissions of
both ranges: where they are missing it cannot go on, and the process ends. Ranges are whole
pages, so nothing is rounded. -/

namespace NativeLib.Memory

open Interaction

def PROT_READ : ℕ := 1

def PROT_WRITE : ℕ := 2

def PROT_EXEC : ℕ := 4

/-- The permissions a `prot` argument asks for. -/
def Perms.ofProt (prot : ℕ) : Perms where
  r := prot &&& PROT_READ ≠ 0
  w := prot &&& PROT_WRITE ≠ 0
  x := prot &&& PROT_EXEC ≠ 0

/-- Flags joined by `|` ask for what each of them asks for. -/
theorem Perms.ofProt_or (p q : ℕ) : Perms.ofProt (p ||| q) =
    ⟨(Perms.ofProt p).r || (Perms.ofProt q).r, (Perms.ofProt p).w || (Perms.ofProt q).w,
      (Perms.ofProt p).x || (Perms.ofProt q).x⟩ := by
  have hor : ∀ k, decide ((p ||| q) &&& k ≠ 0) =
      (decide (p &&& k ≠ 0) || decide (q &&& k ≠ 0)) := by
    intro k
    rw [Nat.and_or_distrib_right, ← Bool.decide_or, decide_eq_decide, ne_eq, Nat.or_eq_zero_iff]
    tauto
  simp only [Perms.ofProt, hor]

/-- `mmap` stands for an anonymous private mapping; a null `addr` leaves the place open and
another `addr` is a hint. -/
inductive KernelCall where
  | mmap (addr length prot : ℕ)
  | mprotect (addr length prot : ℕ)
  | munmap (addr length : ℕ)
  | memcpy (dest src n : ℕ)
  deriving DecidableEq, Repr

/-- The command traps into the kernel. -/
def KernelCall.isSyscall : KernelCall → Bool
  | .memcpy _ _ _ => false
  | _ => true

/-- What the kernel answers: a value, or an error number. -/
inductive KAnswer where
  | ok (v : ℕ)
  | err (e : ℕ)
  deriving DecidableEq, Repr

def MAX_ERRNO : ℕ := 4095

/-- What a call can do to memory that ends at `limit`. -/
inductive KStep (limit : ℕ) (m : Mem) : KernelCall → KAnswer → Mem → Prop
  | mapped {v length} (addr prot) (h : m.Free v length) (hpos : 0 < v)
      (hlim : v + length ≤ limit) :
      KStep limit m (.mmap addr length prot) (.ok v) (m.place v length (.ofProt prot))
  | permitted {addr length} (prot) (h : m.All (fun _ => True) addr length) :
      KStep limit m (.mprotect addr length prot) (.ok 0) (m.protect addr length (.ofProt prot))
  | unmapped (addr length) : KStep limit m (.munmap addr length) (.ok 0) (m.unmap addr length)
  | copied {dest src n} (hsrc : m.All (·.perms.r = true) src n)
      (hdest : m.All (·.perms.w = true) dest n) :
      KStep limit m (.memcpy dest src n) (.ok 0) (m.copy dest src n)
  | failed {c e} (hc : c.isSyscall = true) (hpos : 0 < e) (hle : e ≤ MAX_ERRNO) :
      KStep limit m c (.err e) m

/-- The same when no call fails and a free hint is honoured. -/
structure CalmStep (limit : ℕ) (m : Mem) (c : KernelCall) (r : KAnswer) (m' : Mem) : Prop where
  step : KStep limit m c r m'
  calm : ∀ e, r ≠ .err e
  hint : ∀ addr length prot, c = .mmap addr length prot → addr ≠ 0 → m.Free addr length →
    addr + length ≤ limit → r = .ok addr

/-- The same for a process that itself lives on the addresses of `own`: its code, its stack, its
data. It does not come back from a call that unmaps one of them. -/
structure LiveStep (own : Set ℕ) (limit : ℕ) (m : Mem) (c : KernelCall) (r : KAnswer)
    (m' : Mem) : Prop extends CalmStep limit m c r m' where
  alive : ∀ addr length, c = .munmap addr length → ∀ a ∈ own, ¬ Within addr length a

abbrev KernelProg := Prog KernelCall KAnswer

variable {limit : ℕ} {m m' : Mem} {c : KernelCall} {r : KAnswer}

theorem KStep.bounded (h : KStep limit m c r m') (hb : m.Bounded limit) : m'.Bounded limit := by
  intro a ha
  have hna := hb a ha
  cases h with
  | mapped addr prot hf hpos hlim =>
    rw [Mem.place_out, hna]
    unfold Within
    omega
  | @permitted addr length prot h =>
    by_cases hw : Within addr length a
    · rw [Mem.protect_in hw, hna]
      rfl
    · rw [Mem.protect_out hw, hna]
  | unmapped addr length =>
    by_cases hw : Within addr length a
    · rw [Mem.unmap_in hw]
    · rw [Mem.unmap_out hw, hna]
  | @copied dest src n hsrc hdest =>
    by_cases hw : Within dest n a
    · rw [Mem.copy_in hw, hna]
      rfl
    · rw [Mem.copy_out hw, hna]
  | failed => exact hna

/-- The call changes what is mapped at `a`. -/
def KernelCall.Touches : KernelCall → ℕ → Prop
  | .mmap _ _ _, _ => False
  | .mprotect addr length _, a => Within addr length a
  | .munmap addr length, a => Within addr length a
  | .memcpy dest _ n, a => Within dest n a

/-- What is mapped and not touched stays. -/
theorem KStep.frame (h : KStep limit m c r m') {a : ℕ} {x : Cell} (hx : m a = some x)
    (ht : ¬ c.Touches a) : m' a = some x := by
  cases h with
  | mapped addr prot hf hpos hlim =>
    rw [Mem.place_out, hx]
    intro hw
    rw [hf a hw] at hx
    simp at hx
  | permitted prot h => rw [Mem.protect_out ht, hx]
  | unmapped addr length => rw [Mem.unmap_out ht, hx]
  | copied hsrc hdest => rw [Mem.copy_out ht, hx]
  | failed => exact hx

/-- No call gives a name to memory. -/
theorem KStep.named (h : KStep limit m c r m') {a : ℕ} {x' : Cell} (hx' : m' a = some x')
    (hne : x'.path ≠ []) : ∃ x, m a = some x ∧ x.path = x'.path := by
  cases h with
  | @mapped v length addr prot hf hpos hlim =>
    by_cases hw : Within v length a
    · rw [Mem.place_in hw, Option.some_inj] at hx'
      simp [← hx'] at hne
    · rw [Mem.place_out hw] at hx'
      exact ⟨x', hx', rfl⟩
  | @permitted addr length prot h =>
    by_cases hw : Within addr length a
    · rw [Mem.protect_in hw, Option.map_eq_some_iff] at hx'
      obtain ⟨x, hx, rfl⟩ := hx'
      exact ⟨x, hx, rfl⟩
    · rw [Mem.protect_out hw] at hx'
      exact ⟨x', hx', rfl⟩
  | unmapped addr length =>
    by_cases hw : Within addr length a
    · rw [Mem.unmap_in hw] at hx'
      simp at hx'
    · rw [Mem.unmap_out hw] at hx'
      exact ⟨x', hx', rfl⟩
  | @copied dest src n hsrc hdest =>
    by_cases hw : Within dest n a
    · rw [Mem.copy_in hw, Option.map_eq_some_iff] at hx'
      obtain ⟨x, hx, rfl⟩ := hx'
      exact ⟨x, hx, rfl⟩
    · rw [Mem.copy_out hw] at hx'
      exact ⟨x', hx', rfl⟩
  | failed => exact ⟨x', hx', rfl⟩

end NativeLib.Memory
