import Mathlib.Data.List.Infix
import Mathlib.Data.Nat.Find
import Mathlib.Data.Nat.Notation

/-! The occurrences of one list in another, taken from the left and without overlaps. -/

namespace NativeLib.Collections

variable {α : Type} {p s before after : List α} {pieces : List (List α)}

/-- The first place where `p` stands in `s`: `before` it and `after` it. -/
structure FirstAt (p s before after : List α) : Prop where
  eq : s = before ++ p ++ after
  first : ∀ u v, s = u ++ p ++ v → before.length ≤ u.length

/-- What lies between the occurrences of `p` in `s`, each taken as the first one behind the
occurrence before it. -/
inductive Leftmost (p : List α) : List α → List (List α) → Prop where
  | last {s : List α} (h : ¬ p <:+: s) : Leftmost p s [s]
  | cut {s before after : List α} {pieces : List (List α)} (h : FirstAt p s before after)
      (rest : Leftmost p after pieces) : Leftmost p s (before :: pieces)

theorem FirstAt.isInfix (h : FirstAt p s before after) : p <:+: s := ⟨before, after, h.eq.symm⟩

theorem FirstAt.unique {before' after' : List α} (h : FirstAt p s before after)
    (h' : FirstAt p s before' after') : before = before' ∧ after = after' := by
  have hlen := Nat.le_antisymm (h.first _ _ h'.eq) (h'.first _ _ h.eq)
  have heq := h.eq.symm.trans h'.eq
  rw [List.append_assoc, List.append_assoc] at heq
  obtain ⟨hbefore, hrest⟩ := List.append_inj heq hlen
  exact ⟨hbefore, List.append_cancel_left hrest⟩

theorem FirstAt.length_lt (h : FirstAt p s before after) (hp : p ≠ []) :
    after.length < s.length := by
  have hpos := List.length_pos_iff.mpr hp
  rw [h.eq, List.length_append, List.length_append]
  omega

theorem exists_firstAt (h : p <:+: s) : ∃ before after, FirstAt p s before after := by
  classical
  have hex : ∃ n, ∃ u v, s = u ++ p ++ v ∧ u.length = n := by
    obtain ⟨u, v, huv⟩ := h
    exact ⟨_, u, v, huv.symm, rfl⟩
  obtain ⟨u, v, huv, hlen⟩ := Nat.find_spec hex
  refine ⟨u, v, huv, ?_⟩
  intro u' v' huv'
  rw [hlen]
  exact Nat.find_min' hex ⟨u', v', huv', rfl⟩

section decidable

variable [BEq α] [LawfulBEq α]

theorem dropInfix?_eq_some : s.dropInfix? p = some (before, after) ↔ FirstAt p s before after := by
  rw [List.dropInfix?_eq_some_iff]
  constructor
  · intro h
    obtain ⟨⟨p', heq, hp⟩, hfirst⟩ := h
    rw [eq_of_beq hp] at heq
    exact ⟨heq, fun u v huv => hfirst u p v huv (beq_self_eq_true p)⟩
  · intro h
    refine ⟨⟨p, h.eq, beq_self_eq_true p⟩, ?_⟩
    intro u p' v huv hp
    rw [eq_of_beq hp] at huv
    exact h.first u v huv

theorem dropInfix?_eq_none : s.dropInfix? p = none ↔ ¬ p <:+: s := by
  constructor
  · intro hnone hp
    obtain ⟨before, after, hfirst⟩ := exists_firstAt hp
    rw [dropInfix?_eq_some.mpr hfirst] at hnone
    exact Option.some_ne_none _ hnone
  · intro hp
    rw [Option.eq_none_iff_forall_not_mem]
    intro r hr
    exact hp (dropInfix?_eq_some.mp hr).isInfix

end decidable

theorem Leftmost.ne_nil (h : Leftmost p s pieces) : pieces ≠ [] := by
  cases h <;> exact List.cons_ne_nil _ _

theorem Leftmost.length_pos (h : Leftmost p s pieces) : 0 < pieces.length :=
  List.length_pos_iff.mpr h.ne_nil

theorem Leftmost.unique {pieces' : List (List α)} (h : Leftmost p s pieces)
    (h' : Leftmost p s pieces') : pieces = pieces' := by
  induction h generalizing pieces' with
  | last hnot =>
    cases h' with
    | last => rfl
    | cut hfirst => exact absurd hfirst.isInfix hnot
  | cut hfirst _ ih =>
    cases h' with
    | last hnot => exact absurd hfirst.isInfix hnot
    | cut hfirst' hrest =>
      obtain ⟨rfl, rfl⟩ := hfirst.unique hfirst'
      rw [ih hrest]

/-- The pieces with the occurrences between them again. -/
theorem Leftmost.intercalate_eq (h : Leftmost p s pieces) : p.intercalate pieces = s := by
  induction h with
  | last => exact List.intercalate_singleton
  | cut hfirst hrest ih =>
    rw [List.intercalate_cons_of_ne_nil hrest.ne_nil, ih, hfirst.eq]

theorem exists_leftmost (hp : p ≠ []) (s : List α) : ∃ pieces, Leftmost p s pieces := by
  by_cases h : p <:+: s
  · obtain ⟨before, after, hfirst⟩ := exists_firstAt h
    have hlt := hfirst.length_lt hp
    obtain ⟨pieces, hpieces⟩ := exists_leftmost hp after
    exact ⟨_, .cut hfirst hpieces⟩
  · exact ⟨_, .last h⟩
termination_by s.length

/-- There are no more pieces than fit. -/
theorem Leftmost.length_le (hp : p ≠ []) (h : Leftmost p s pieces) :
    pieces.length ≤ s.length + 1 := by
  induction h with
  | last => exact Nat.succ_le_succ (Nat.zero_le _)
  | cut hfirst _ ih =>
    have hlt := hfirst.length_lt hp
    rw [List.length_cons]
    omega

/-- A single element stands at each place of its repetition. -/
theorem leftmost_replicate (a : α) (n : ℕ) :
    Leftmost [a] (List.replicate n a) (List.replicate (n + 1) []) := by
  induction n with
  | zero => exact .last (by simp)
  | succ n ih => exact .cut ⟨rfl, fun _ _ _ => Nat.zero_le _⟩ ih

end NativeLib.Collections
