import Mathlib.Tactic.Common
import Mathlib.Data.Nat.Notation

/-! The address space of a process, byte by byte: what a mapped address holds, who may use it,
and the name of what backs it. The operations are those of a kernel on ranges of addresses. -/

namespace NativeLib.Memory

/-- Read, write and execute permission. -/
structure Perms where
  r : Bool
  w : Bool
  x : Bool
  deriving DecidableEq, Repr

/-- A mapped byte. The name of anonymous memory is empty. -/
structure Cell where
  byte : UInt8
  perms : Perms
  path : List Char
  deriving DecidableEq, Repr

/-- An unmapped address holds no cell. -/
abbrev Mem := ℕ → Option Cell

/-- `a` is one of the `length` addresses from `start`. -/
def Within (start length a : ℕ) : Prop := start ≤ a ∧ a < start + length

instance (start length a : ℕ) : Decidable (Within start length a) :=
  inferInstanceAs (Decidable (_ ∧ _))

/-- The two ranges share no address. -/
def Apart (s l t n : ℕ) : Prop := ∀ a, Within s l a → ¬ Within t n a

theorem Apart.symm {s l t n : ℕ} (h : Apart s l t n) : Apart t n s l :=
  fun a ha hb => h a hb ha

namespace Mem

/-- Nothing is mapped in the range. -/
def Free (m : Mem) (start length : ℕ) : Prop := ∀ a, Within start length a → m a = none

/-- Every address of the range is mapped, to a cell with `P`. -/
def All (m : Mem) (P : Cell → Prop) (start length : ℕ) : Prop :=
  ∀ a, Within start length a → ∃ c, m a = some c ∧ P c

/-- Nothing is mapped from `limit` on. -/
def Bounded (m : Mem) (limit : ℕ) : Prop := ∀ a, limit ≤ a → m a = none

/-- Map zeroed anonymous memory. -/
def place (m : Mem) (start length : ℕ) (perms : Perms) : Mem :=
  fun a => if Within start length a then some ⟨0, perms, []⟩ else m a

/-- Change the permissions of what is mapped. -/
def protect (m : Mem) (start length : ℕ) (perms : Perms) : Mem :=
  fun a => if Within start length a then (m a).map ({ · with perms := perms }) else m a

/-- Set the bytes of what is mapped. -/
def fill (m : Mem) (start length : ℕ) (byte : UInt8) : Mem :=
  fun a => if Within start length a then (m a).map ({ · with byte := byte }) else m a

/-- Take the range out of the address space. -/
def unmap (m : Mem) (start length : ℕ) : Mem :=
  fun a => if Within start length a then none else m a

/-- Copy the bytes of `length` addresses, between ranges that are apart. -/
def copy (m : Mem) (dest src length : ℕ) : Mem :=
  fun a =>
    if Within dest length a then
      (m a).map fun c => { c with byte := (m (src + (a - dest))).elim c.byte Cell.byte }
    else m a

variable {m : Mem} {s l a : ℕ} {p : Perms}

theorem place_in (h : Within s l a) : m.place s l p a = some ⟨0, p, []⟩ := if_pos h

theorem place_out (h : ¬ Within s l a) : m.place s l p a = m a := if_neg h

theorem protect_in (h : Within s l a) :
    m.protect s l p a = (m a).map ({ · with perms := p }) := if_pos h

theorem protect_out (h : ¬ Within s l a) : m.protect s l p a = m a := if_neg h

theorem fill_in {b : UInt8} (h : Within s l a) :
    m.fill s l b a = (m a).map ({ · with byte := b }) := if_pos h

theorem fill_out {b : UInt8} (h : ¬ Within s l a) : m.fill s l b a = m a := if_neg h

theorem unmap_in (h : Within s l a) : m.unmap s l a = none := if_pos h

theorem unmap_out (h : ¬ Within s l a) : m.unmap s l a = m a := if_neg h

theorem copy_in {d : ℕ} (h : Within d l a) :
    m.copy d s l a =
      (m a).map fun c => { c with byte := (m (s + (a - d))).elim c.byte Cell.byte } := if_pos h

theorem copy_out {d : ℕ} (h : ¬ Within d l a) : m.copy d s l a = m a := if_neg h

theorem All.mono {P : Cell → Prop} {t n : ℕ} (h : m.All P t n)
    (hin : ∀ a, Within s l a → Within t n a) : m.All P s l := fun a ha => h a (hin a ha)

/-- The range without its first address. -/
theorem All.tail {P : Cell → Prop} (h : m.All P s (l + 1)) : m.All P (s + 1) l := by
  refine h.mono fun a ha => ?_
  unfold Within at *
  omega

/-- What is mapped gets the permissions. -/
theorem All.protect (h : m.All (fun _ => True) s l) :
    (m.protect s l p).All (·.perms = p) s l := by
  intro a ha
  obtain ⟨c, hc, -⟩ := h a ha
  rw [protect_in ha, hc]
  exact ⟨_, rfl, rfl⟩

/-- What is free lies apart from what is mapped. -/
theorem Free.apart {P : Cell → Prop} {t n : ℕ} (h : m.Free t n) (hm : m.All P s l) :
    Apart s l t n := by
  intro a hs ht
  obtain ⟨c, hc, -⟩ := hm a hs
  rw [h a ht] at hc
  simp at hc

end Mem

end NativeLib.Memory
