import Mathlib.Data.List.Nodup

/-! Ledgers of additions and removals, and the ordered map they describe: what was added
and not removed later, in the order of the additions. -/

namespace NativeLib.Collections

variable {κ ν : Type}

/-- A ledger entry. -/
inductive Entry (ν : Type) where
  | added (v : ν)
  | removed (v : ν)
  deriving DecidableEq

/-- The values added and not removed by a later entry, in order of their addition. -/
def survivors [DecidableEq ν] : List (Entry ν) → List ν
  | [] => []
  | .added v :: l => if .removed v ∈ l then survivors l else v :: survivors l
  | .removed _ :: l => survivors l

theorem survivors_added [DecidableEq ν] (l : List (Entry ν)) (v : ν) :
    survivors (l ++ [.added v]) = survivors l ++ [v] := by
  induction l with
  | nil => simp [survivors]
  | cons x l ih =>
    cases x with
    | removed w => simp [survivors, ih]
    | added w =>
      simp only [List.cons_append, survivors, ih, List.mem_append, List.mem_singleton,
        reduceCtorEq, or_false]
      split <;> rfl

theorem survivors_removed [DecidableEq ν] (l : List (Entry ν)) (v : ν) :
    survivors (l ++ [.removed v]) = (survivors l).filter (· ≠ v) := by
  induction l with
  | nil => simp [survivors]
  | cons x l ih =>
    cases x with
    | removed w => simp [survivors, ih]
    | added w =>
      simp only [List.cons_append, survivors, ih, List.mem_append, List.mem_singleton,
        Entry.removed.injEq]
      by_cases hw : w = v <;> by_cases hl : Entry.removed w ∈ l <;> simp [hw, hl]
      · simp [← hw, hl]
      · simp [← hw, hl]

/-- A list of values with distinct keys. -/
structure OrderedMap (key : ν → κ) where
  entries : List ν
  nodup : (entries.map key).Nodup

namespace OrderedMap

variable {key : ν → κ}

/-- The empty map. -/
def empty : OrderedMap key := ⟨[], List.nodup_nil⟩

/-- Put a value whose key is new at the end. -/
def insert (m : OrderedMap key) (v : ν) (h : key v ∉ m.entries.map key) : OrderedMap key :=
  ⟨m.entries ++ [v], by
    rw [List.map_append, List.nodup_append]
    refine ⟨m.nodup, by simp, ?_⟩
    rintro k hk k' hk' rfl
    rw [List.map_singleton, List.mem_singleton] at hk'
    exact h (hk' ▸ hk)⟩

@[simp] theorem insert_entries (m : OrderedMap key) (v : ν) (h) :
    (m.insert v h).entries = m.entries ++ [v] := rfl

variable [DecidableEq ν]

/-- Take a value out. -/
def remove (m : OrderedMap key) (v : ν) : OrderedMap key :=
  ⟨m.entries.filter (· ≠ v), m.nodup.sublist (List.filter_sublist.map key)⟩

@[simp] theorem remove_entries (m : OrderedMap key) (v : ν) :
    (m.remove v).entries = m.entries.filter (· ≠ v) := rfl

/-- One ledger entry as a step of the map. -/
inductive Step (m : OrderedMap key) : Entry ν → OrderedMap key → Prop
  | added (v) (h : key v ∉ m.entries.map key) : Step m (.added v) (m.insert v h)
  | removed (v) (h : v ∈ m.entries) : Step m (.removed v) (m.remove v)

/-- A map built entry by entry from the empty one holds the survivors of its ledger. -/
inductive Replays : List (Entry ν) → OrderedMap key → Prop
  | nil : Replays [] empty
  | snoc {l m x m'} : Replays l m → Step m x m' → Replays (l ++ [x]) m'

theorem Replays.entries {l : List (Entry ν)} {m : OrderedMap key} (h : Replays l m) :
    m.entries = survivors l := by
  induction h with
  | nil => rfl
  | snoc _ hx ih =>
    cases hx with
    | added v hv => rw [survivors_added, insert_entries, ih]
    | removed v hv => rw [survivors_removed, remove_entries, ih]

end OrderedMap

end NativeLib.Collections
