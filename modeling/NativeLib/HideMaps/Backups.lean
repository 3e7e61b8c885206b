import NativeLib.HideMaps.Stages

/-! The memory after some mappings were hidden: they are anonymous, all others are as they
were, and what is new are the backups. One more hidden mapping keeps this. -/

namespace NativeLib.HideMaps

open Memory

variable {limit : ℕ} {mm : MemoryMap limit} {M M' : Mem} {m : Mapping limit} {b : ℕ}
  {copies : List (Mapping limit × ℕ)}

/-- What a hidden mapping holds: its bytes and permissions, without a name. -/
def anonymousAt (m : Mapping limit) (a : ℕ) : Cell := { m.cellAt a with path := [] }

/-- `M'` is `M` with the readable mapping `m` hidden and its backup at `b`. -/
structure Moved (M : Mem) (m : Mapping limit) (b : ℕ) (M' : Mem) : Prop where
  free : M.Free b m.length
  stage : Stage M m b (fun a => some (anonymousAt m a)) (fun a => m.byteAt (source m b a)) M'

/-- The first of each pair is hidden, with its backup at the second. -/
structure Copies (mm : MemoryMap limit) (copies : List (Mapping limit × ℕ)) (M : Mem) :
    Prop where
  mapped : ∀ p ∈ copies, p.1 ∈ mm.mappings
  moved : ∀ p ∈ copies, ∀ a, p.1.Has a → M a = some (anonymousAt p.1 a)
  kept : ∀ n ∈ mm.mappings, n ∉ copies.map Prod.fst → ∀ a, n.Has a → M a = some (n.cellAt a)
  backup : ∀ p ∈ copies, ∀ a, Within p.2 p.1.length a →
    M a = some ⟨p.1.byteAt (source p.1 p.2 a), readWrite, []⟩
  only : ∀ a, (∀ n ∈ mm.mappings, ¬ n.Has a) → (∀ p ∈ copies, ¬ Within p.2 p.1.length a) →
    M a = none
  clear : ∀ p ∈ copies, ∀ n ∈ mm.mappings, Apart n.start n.length p.2 p.1.length
  apart : copies.Pairwise fun p q => Apart p.2 p.1.length q.2 q.1.length

theorem copies_nil (mm : MemoryMap limit) : Copies mm [] mm.mem := by
  refine ⟨?_, ?_, ?_, ?_, ?_, ?_, ?_⟩
  · simp
  · simp
  · exact fun n hn _ a ha => mm.mem_has hn ha
  · simp
  · exact fun a hno _ => mm.mem_none hno
  · simp
  · exact List.Pairwise.nil

/-- Every mapping is still mapped, hidden or not. -/
theorem Copies.all_mapped (h : Copies mm copies M) {n : Mapping limit} (hn : n ∈ mm.mappings) :
    M.All (fun _ => True) n.start n.length := by
  intro a ha
  by_cases hc : n ∈ copies.map Prod.fst
  · obtain ⟨p, hp, rfl⟩ := List.mem_map.mp hc
    exact ⟨_, h.moved p hp a ha, trivial⟩
  · exact ⟨_, h.kept n hn hc a ha, trivial⟩

theorem Copies.backup_mapped (h : Copies mm copies M) {p : Mapping limit × ℕ}
    (hp : p ∈ copies) : M.All (fun _ => True) p.2 p.1.length :=
  fun a ha => ⟨_, h.backup p hp a ha, trivial⟩

/-- What is mapped, and neither in the range nor in its backup, is not changed. -/
theorem Moved.frame (h : Moved M m b M') {a : ℕ} {c : Cell} (hc : M a = some c)
    (hm : ¬ m.Has a) : M' a = some c := by
  rw [h.stage.other a hm, hc]
  intro hb
  rw [h.free a hb] at hc
  simp at hc

theorem Copies.snoc (h : Copies mm copies M) (hm : m ∈ mm.mappings)
    (hnew : m ∉ copies.map Prod.fst) (hmove : Moved M m b M') :
    Copies mm (copies ++ [(m, b)]) M' := by
  have hother : ∀ {n a}, n ∈ mm.mappings → n ≠ m → n.Has a → ¬ m.Has a :=
    fun hn hne hna hma => hne (mm.unique hn hm hna hma)
  have hclear : ∀ n ∈ mm.mappings, Apart n.start n.length b m.length :=
    fun n hn => hmove.free.apart (h.all_mapped hn)
  refine ⟨?_, ?_, ?_, ?_, ?_, ?_, ?_⟩
  · simpa [or_imp, forall_and, hm] using h.mapped
  · intro p hp a ha
    rw [List.mem_append, List.mem_singleton] at hp
    rcases hp with hp | rfl
    · have hne : p.1 ≠ m := fun he => hnew (he ▸ List.mem_map_of_mem hp)
      exact hmove.frame (h.moved p hp a ha) (hother (h.mapped p hp) hne ha)
    · exact hmove.stage.range a ha
  · intro n hn hout a ha
    rw [List.map_append, List.mem_append, not_or, List.map_singleton, List.mem_singleton] at hout
    exact hmove.frame (h.kept n hn hout.1 a ha) (hother hn hout.2 ha)
  · intro p hp a ha
    rw [List.mem_append, List.mem_singleton] at hp
    rcases hp with hp | rfl
    · exact hmove.frame (h.backup p hp a ha) fun hma => h.clear p hp m hm a hma ha
    · exact hmove.stage.backup a ha
  · intro a hno hout
    rw [hmove.stage.other a (hno m hm) (hout (m, b) (by simp))]
    exact h.only a hno fun p hp => hout p (List.mem_append_left _ hp)
  · intro p hp n hn
    rw [List.mem_append, List.mem_singleton] at hp
    rcases hp with hp | rfl
    · exact h.clear p hp n hn
    · exact hclear n hn
  · rw [List.pairwise_append]
    refine ⟨h.apart, List.pairwise_singleton _ _, ?_⟩
    intro p hp q hq
    rw [List.mem_singleton] at hq
    rw [hq]
    exact hmove.free.apart (h.backup_mapped hp)

end NativeLib.HideMaps
