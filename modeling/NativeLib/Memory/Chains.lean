import Mathlib.Data.List.Nodup
import Mathlib.Logic.Function.Basic

/-! Singly linked lists in memory: `next` is the pointer each node holds, and the list ends
at `null`. -/

namespace NativeLib.Memory

variable {α : Type} {next next' : α → α} {null p p' : α} {l l' : List α}

/-- The nodes met from `p` on. -/
inductive Chain (next : α → α) (null : α) : α → List α → Prop
  | nil : Chain next null null []
  | cons {p : α} {l : List α} (hp : p ≠ null) (h : Chain next null (next p) l) :
      Chain next null p (p :: l)

namespace Chain

theorem unique (h : Chain next null p l) (h' : Chain next null p l') : l = l' := by
  induction h generalizing l' with
  | nil =>
    cases h' with
    | nil => rfl
    | cons hp _ => exact absurd rfl hp
  | cons hp _ ih =>
    cases h' with
    | nil => exact absurd rfl hp
    | cons _ h' => rw [ih h']

theorem ne_null (h : Chain next null p l) : ∀ x ∈ l, x ≠ null := by
  induction h with
  | nil => simp
  | cons hp _ ih => exact List.forall_mem_cons.mpr ⟨hp, ih⟩

theorem head_mem (h : Chain next null p l) (hp : p ≠ null) : p ∈ l := by
  cases h with
  | nil => exact absurd rfl hp
  | cons => exact List.mem_cons_self ..

theorem tail (h : Chain next null p (p' :: l)) : Chain next null (next p) l := by
  cases h with
  | cons _ h => exact h

/-- From any of its nodes on, the list is what is left of it. -/
theorem suffix (h : Chain next null p l) {pre post : List α} {x : α} (hl : l = pre ++ x :: post) :
    Chain next null x (x :: post) := by
  induction h generalizing pre with
  | nil => simp at hl
  | @cons p l hp h ih =>
    cases pre with
    | nil =>
      obtain ⟨rfl, rfl⟩ := List.cons.inj hl
      exact .cons hp h
    | cons y pre => exact ih (List.cons.inj hl).2

/-- A list that ends meets no node twice. -/
theorem nodup (h : Chain next null p l) : l.Nodup := by
  induction h with
  | nil => exact List.nodup_nil
  | @cons p l hp h ih =>
    refine List.nodup_cons.mpr ⟨?_, ih⟩
    intro hmem
    obtain ⟨pre, post, rfl⟩ := List.append_of_mem hmem
    have heq := (h.suffix rfl).unique (.cons hp h)
    have hlen := congrArg List.length heq
    simp only [List.length_cons, List.length_append] at hlen
    omega

theorem congr (h : Chain next null p l) (heq : ∀ x ∈ l, next' x = next x) :
    Chain next' null p l := by
  induction h with
  | nil => exact .nil
  | @cons p l hp _ ih =>
    rw [List.forall_mem_cons] at heq
    refine .cons hp ?_
    rw [heq.1]
    exact ih heq.2

/-- Nodes of which each points to the one behind it are a list. -/
theorem of_links (hne : ∀ x ∈ l, x ≠ null)
    (hlinks : ∀ i (h : i < l.length), next l[i] = l.getD (i + 1) null) :
    Chain next null (l.getD 0 null) l := by
  induction l with
  | nil => exact .nil
  | cons x l ih =>
    rw [List.forall_mem_cons] at hne
    have hfirst : next x = l.getD 0 null := hlinks 0 (Nat.succ_pos _)
    refine .cons (p := x) hne.1 ?_
    rw [hfirst]
    exact ih hne.2 fun i h => hlinks (i + 1) (Nat.succ_lt_succ h)

/-- Let a node point past its successor: the successor is out of the list. -/
theorem unlink [DecidableEq α] {a x : α} {pre post : List α}
    (h : Chain next null p (pre ++ a :: x :: post)) :
    Chain (Function.update next a (next x)) null p (pre ++ a :: post) := by
  induction pre generalizing p with
  | nil =>
    have hnodup := h.nodup
    cases h with
    | cons hp h =>
      have hx : x = next a := by
        cases h with
        | cons _ _ => rfl
      refine .cons hp ?_
      rw [Function.update_self]
      have htail : Chain next null (next x) post := by
        rw [← hx] at h
        cases h with
        | cons _ h => exact h
      refine htail.congr ?_
      rintro y hy
      rw [Function.update_of_ne]
      rintro rfl
      exact (List.nodup_cons.mp hnodup).1 (List.mem_cons_of_mem _ hy)
  | cons b pre ih =>
    have hnodup := h.nodup
    cases h with
    | cons hp h =>
      refine .cons hp ?_
      rw [Function.update_of_ne]
      · exact ih h
      · rintro rfl
        exact (List.nodup_cons.mp hnodup).1 (by simp)

end Chain

end NativeLib.Memory
