import Mathlib.Data.List.Pairwise
import NativeLib.Memory.AddressSpace

/-! The memory map of a process as a list of mappings, and the address space it describes. -/

namespace NativeLib.Memory

def pageSize : ℕ := 4096

/-- A mapping: whole pages below `limit`, with their bytes, their permissions, and the name of
what backs them as the maps file shows it (a C string, in which a newline is shown as an escape). -/
structure Mapping (limit : ℕ) where
  start : ℕ
  bytes : List UInt8
  perms : Perms
  path : List Char
  start_pos : 0 < start
  nonempty : 0 < bytes.length
  le_limit : start + bytes.length ≤ limit
  start_page : pageSize ∣ start
  length_page : pageSize ∣ bytes.length
  path_newline : '\n' ∉ path
  path_nul : '\x00' ∉ path

namespace Mapping

variable {limit : ℕ}

def length (m : Mapping limit) : ℕ := m.bytes.length

/-- The first address after the mapping. -/
def stop (m : Mapping limit) : ℕ := m.start + m.length

/-- `a` is an address of the mapping. -/
def Has (m : Mapping limit) (a : ℕ) : Prop := Within m.start m.length a

instance (m : Mapping limit) (a : ℕ) : Decidable (m.Has a) :=
  inferInstanceAs (Decidable (Within _ _ _))

theorem has_start (m : Mapping limit) : m.Has m.start := by
  have hpos : 0 < m.length := m.nonempty
  unfold Has Within
  omega

def byteAt (m : Mapping limit) (a : ℕ) : UInt8 := m.bytes.getD (a - m.start) 0

/-- What the mapping holds at `a`. -/
def cellAt (m : Mapping limit) (a : ℕ) : Cell := ⟨m.byteAt a, m.perms, m.path⟩

end Mapping

/-- The two mappings share no address. -/
def Mapping.ApartFrom {limit : ℕ} (m n : Mapping limit) : Prop :=
  Apart m.start m.length n.start n.length

instance {limit : ℕ} : Std.Symm (@Mapping.ApartFrom limit) :=
  ⟨fun _ _ h => Apart.symm h⟩

/-- Mappings that share no address. -/
structure MemoryMap (limit : ℕ) where
  mappings : List (Mapping limit)
  apart : mappings.Pairwise Mapping.ApartFrom

namespace MemoryMap

variable {limit : ℕ}

/-- The address space the map describes. -/
def mem (mm : MemoryMap limit) : Mem :=
  fun a => (mm.mappings.find? fun m => decide (m.Has a)).map (·.cellAt a)

/-- An address lies in one mapping. -/
theorem unique (mm : MemoryMap limit) {m n : Mapping limit} (hm : m ∈ mm.mappings)
    (hn : n ∈ mm.mappings) {a : ℕ} (hma : m.Has a) (hna : n.Has a) : m = n := by
  by_contra hne
  exact mm.apart.forall hm hn hne a hma hna

theorem nodup (mm : MemoryMap limit) : mm.mappings.Nodup := by
  refine mm.apart.imp ?_
  rintro m _ hap rfl
  exact hap m.start m.has_start m.has_start

theorem mem_has (mm : MemoryMap limit) {m : Mapping limit} (hm : m ∈ mm.mappings) {a : ℕ}
    (ha : m.Has a) : mm.mem a = some (m.cellAt a) := by
  unfold mem
  cases hf : mm.mappings.find? fun m => decide (m.Has a) with
  | none =>
    have := List.find?_eq_none.mp hf m hm
    simp [ha] at this
  | some n =>
    have hn : n.Has a := by simpa using List.find?_some hf
    rw [mm.unique (List.mem_of_find?_eq_some hf) hm hn ha, Option.map_some]

theorem mem_some (mm : MemoryMap limit) {a : ℕ} {c : Cell} (h : mm.mem a = some c) :
    ∃ m ∈ mm.mappings, m.Has a ∧ c = m.cellAt a := by
  obtain ⟨m, hf, rfl⟩ := Option.map_eq_some_iff.mp h
  exact ⟨m, List.mem_of_find?_eq_some hf, by simpa using List.find?_some hf, rfl⟩

theorem mem_none (mm : MemoryMap limit) {a : ℕ} (h : ∀ m ∈ mm.mappings, ¬ m.Has a) :
    mm.mem a = none := by
  rw [Option.eq_none_iff_forall_ne_some]
  intro c hc
  obtain ⟨m, hm, ha, -⟩ := mm.mem_some hc
  exact h m hm ha

theorem mem_bounded (mm : MemoryMap limit) : mm.mem.Bounded limit := by
  intro a ha
  refine mm.mem_none fun m _ hw => ?_
  have := m.le_limit
  unfold Mapping.Has Within Mapping.length at hw
  omega

end MemoryMap

end NativeLib.Memory
