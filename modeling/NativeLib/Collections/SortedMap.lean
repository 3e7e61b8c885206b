import Mathlib.Data.List.Infix
import Mathlib.Data.List.Lex
import Mathlib.Order.Lattice

/-! Maps as rows of entries with increasing keys, and the texts with a common beginning in the
order of a dictionary. -/

namespace NativeLib.Collections

/-- The entries of a map, in the order of their keys. -/
@[ext]
structure SortedMap (α β : Type) [LinearOrder α] where
  entries : List (α × β)
  sorted : entries.Pairwise fun x y => x.1 < y.1

section pairs

variable {α β : Type} {x y : α × β} {pairs : List (α × β)}

/-- The first pair with its key. -/
def FirstPair (pairs : List (α × β)) (y : α × β) : Prop :=
  ∃ before after, pairs = before ++ y :: after ∧ y.1 ∉ before.map Prod.fst

theorem not_firstPair_nil : ¬ FirstPair [] y := by
  intro h
  obtain ⟨before, after, heq, -⟩ := h
  exact List.append_ne_nil_of_right_ne_nil before (List.cons_ne_nil y after) heq.symm

theorem firstPair_cons : FirstPair (x :: pairs) y ↔ y = x ∨ y.1 ≠ x.1 ∧ FirstPair pairs y := by
  constructor
  · intro h
    obtain ⟨before, after, heq, hfirst⟩ := h
    cases before with
    | nil => exact .inl (List.cons.inj heq).1.symm
    | cons z before =>
      obtain ⟨rfl, rfl⟩ := List.cons.inj heq
      rw [List.map_cons, List.mem_cons, not_or] at hfirst
      exact .inr ⟨hfirst.1, before, after, rfl, hfirst.2⟩
  · intro h
    rcases h with rfl | ⟨hne, before, after, rfl, hfirst⟩
    · exact ⟨[], pairs, rfl, List.not_mem_nil⟩
    · refine ⟨x :: before, after, rfl, ?_⟩
      rw [List.map_cons, List.mem_cons, not_or]
      exact ⟨hne, hfirst⟩

end pairs

section insert

variable {α β : Type} [LinearOrder α] {entries : List (α × β)} {key : α} {value : β} {y : α × β}

/-- An entry put in its place. One that is there stays. -/
def insertEntry (key : α) (value : β) : List (α × β) → List (α × β)
  | [] => [(key, value)]
  | x :: entries =>
    if key < x.1 then (key, value) :: x :: entries
    else if key = x.1 then x :: entries
    else x :: insertEntry key value entries

theorem mem_insertEntry (hsorted : entries.Pairwise fun x y => x.1 < y.1) :
    y ∈ insertEntry key value entries ↔
      y ∈ entries ∨ key ∉ entries.map Prod.fst ∧ y = (key, value) := by
  induction entries with
  | nil => simp [insertEntry]
  | cons x entries ih =>
    rw [List.pairwise_cons] at hsorted
    obtain ⟨hx, hsorted⟩ := hsorted
    rw [insertEntry]
    by_cases hlt : key < x.1
    · have hnew : key ∉ (x :: entries).map Prod.fst := by
        rw [List.map_cons, List.mem_cons, not_or, List.mem_map]
        refine ⟨hlt.ne, ?_⟩
        intro h
        obtain ⟨y, hy, hkey⟩ := h
        exact absurd (hkey ▸ hlt.trans (hx y hy)) (lt_irrefl key)
      rw [if_pos hlt, List.mem_cons, or_comm, and_iff_right hnew]
    · by_cases heq : key = x.1
      · have hold : ¬ key ∉ (x :: entries).map Prod.fst := by
          rw [not_not, heq]
          exact List.mem_map_of_mem List.mem_cons_self
        rw [if_neg hlt, if_pos heq, or_iff_left fun h => hold h.1]
      · rw [if_neg hlt, if_neg heq, List.mem_cons, ih hsorted, List.mem_cons, List.map_cons,
          List.mem_cons, not_or, and_iff_right heq, or_assoc]

theorem insertEntry_sorted (hsorted : entries.Pairwise fun x y => x.1 < y.1) :
    (insertEntry key value entries).Pairwise fun x y => x.1 < y.1 := by
  induction entries with
  | nil => exact List.pairwise_singleton _ _
  | cons x entries ih =>
    have htail := List.pairwise_cons.mp hsorted
    rw [insertEntry]
    by_cases hlt : key < x.1
    · rw [if_pos hlt, List.pairwise_cons]
      refine ⟨?_, hsorted⟩
      intro y hy
      rcases List.mem_cons.mp hy with rfl | hy
      · exact hlt
      · exact hlt.trans (htail.1 y hy)
    · by_cases heq : key = x.1
      · rwa [if_neg hlt, if_pos heq]
      · rw [if_neg hlt, if_neg heq, List.pairwise_cons]
        refine ⟨?_, ih htail.2⟩
        intro y hy
        rcases (mem_insertEntry htail.2).mp hy with hy | ⟨-, rfl⟩
        · exact htail.1 y hy
        · exact lt_of_le_of_ne (not_lt.mp hlt) (Ne.symm heq)

end insert

namespace SortedMap

variable {α β : Type} [LinearOrder α] {m : SortedMap α β} {key : α} {value : β} {x y : α × β}
  {pairs : List (α × β)}

/-- The map without entries. -/
def empty : SortedMap α β := ⟨[], List.Pairwise.nil⟩

/-- `std::map::emplace`. -/
def emplace (m : SortedMap α β) (key : α) (value : β) : SortedMap α β :=
  ⟨insertEntry key value m.entries, insertEntry_sorted m.sorted⟩

/-- `std::map::find`, `none` for `end()`. -/
def find (m : SortedMap α β) (key : α) : Option (α × β) := m.entries.find? fun x => x.1 = key

/-- `std::map::lower_bound`, `none` for `end()`. -/
def lowerBound (m : SortedMap α β) (key : α) : Option (α × β) :=
  m.entries.find? fun x => key ≤ x.1

/-- The map after one `emplace` for each pair. -/
def emplaceAll (m : SortedMap α β) (pairs : List (α × β)) : SortedMap α β :=
  pairs.foldl (fun m x => m.emplace x.1 x.2) m

theorem mem_emplace :
    y ∈ (m.emplace key value).entries ↔
      y ∈ m.entries ∨ key ∉ m.entries.map Prod.fst ∧ y = (key, value) :=
  mem_insertEntry m.sorted

theorem mem_keys_emplace {k : α} :
    k ∈ (m.emplace key value).entries.map Prod.fst ↔ k = key ∨ k ∈ m.entries.map Prod.fst := by
  constructor
  · intro h
    obtain ⟨y, hy, rfl⟩ := List.mem_map.mp h
    rcases mem_emplace.mp hy with hy | ⟨-, rfl⟩
    · exact .inr (List.mem_map_of_mem hy)
    · exact .inl rfl
  · intro h
    by_cases hkey : key ∈ m.entries.map Prod.fst
    · have hk : k ∈ m.entries.map Prod.fst := h.elim (fun heq => heq ▸ hkey) id
      obtain ⟨y, hy, rfl⟩ := List.mem_map.mp hk
      exact List.mem_map_of_mem (mem_emplace.mpr (.inl hy))
    · rcases h with rfl | h
      · exact List.mem_map.mpr ⟨(k, value), mem_emplace.mpr (.inr ⟨hkey, rfl⟩), rfl⟩
      · obtain ⟨y, hy, rfl⟩ := List.mem_map.mp h
        exact List.mem_map_of_mem (mem_emplace.mpr (.inl hy))

/-- Of the pairs with one key the first one is in the map. -/
theorem mem_emplaceAll (m : SortedMap α β) (pairs : List (α × β)) :
    y ∈ (m.emplaceAll pairs).entries ↔
      y ∈ m.entries ∨ y.1 ∉ m.entries.map Prod.fst ∧ FirstPair pairs y := by
  induction pairs generalizing m with
  | nil => exact (or_iff_left fun h => not_firstPair_nil h.2).symm
  | cons x pairs ih =>
    have hstep := ih (m.emplace x.1 x.2)
    rw [mem_emplace, mem_keys_emplace] at hstep
    refine hstep.trans ?_
    rw [firstPair_cons, not_or]
    by_cases hyx : y = x
    · subst hyx
      tauto
    · tauto

/-- The first key that is not smaller. -/
theorem lowerBound_eq_some (h : m.lowerBound key = some y) :
    y ∈ m.entries ∧ key ≤ y.1 ∧ ∀ x ∈ m.entries, key ≤ x.1 → y.1 ≤ x.1 := by
  obtain ⟨hle, before, after, heq, hbefore⟩ := List.find?_eq_some_iff_append.mp h
  have hsorted := m.sorted
  rw [heq, List.pairwise_append, List.pairwise_cons] at hsorted
  obtain ⟨-, ⟨hafter, -⟩, -⟩ := hsorted
  refine ⟨heq ▸ List.mem_append_right before List.mem_cons_self, of_decide_eq_true hle, ?_⟩
  intro x hx hkey
  rw [heq, List.mem_append, List.mem_cons] at hx
  rcases hx with hx | rfl | hx
  · have hnot := hbefore x hx
    rw [decide_eq_true hkey] at hnot
    exact absurd hnot (by decide)
  · exact le_refl _
  · exact (hafter x hx).le

theorem lowerBound_eq_none (h : m.lowerBound key = none) : ∀ x ∈ m.entries, ¬ key ≤ x.1 := by
  intro x hx
  simpa using List.find?_eq_none.mp h x hx

end SortedMap

section lists

variable {α : Type} [LinearOrder α] {p k s : List α}

theorem prefix_le (h : p <+: s) : p ≤ s := not_lt.mp h.le

theorem cons_le_iff {a b : α} : a :: p ≤ b :: k ↔ a < b ∨ a = b ∧ p ≤ k := by
  rw [← not_lt, ← not_lt]
  exact List.cons_le_cons_iff

/-- The texts that begin with `p` stand together, from `p` on. -/
theorem prefix_of_le_of_le (hs : p <+: s) (hp : p ≤ k) (hk : k ≤ s) : p <+: k := by
  induction p generalizing k s with
  | nil => exact List.nil_prefix
  | cons a p ih =>
    obtain ⟨rest, rfl⟩ := hs
    cases k with
    | nil => exact absurd (not_lt.mpr hp) (not_not.mpr List.Lex.nil)
    | cons b k =>
      rw [List.cons_append] at hk
      rcases cons_le_iff.mp hp with hab | ⟨rfl, hpk⟩
      · rcases cons_le_iff.mp hk with hba | ⟨rfl, -⟩
        · exact absurd hba hab.not_gt
        · exact absurd hab (lt_irrefl _)
      · rcases cons_le_iff.mp hk with hba | ⟨-, hks⟩
        · exact absurd hba (lt_irrefl _)
        · exact (List.prefix_cons_inj a).mpr (ih (List.prefix_append p rest) hpk hks)

end lists

end NativeLib.Collections
