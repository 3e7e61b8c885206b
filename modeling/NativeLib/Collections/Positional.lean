import Mathlib.Algebra.Ring.Hom.Defs
import Mathlib.Algebra.Order.Ring.Nat
import Mathlib.Data.List.Induction
import Mathlib.Tactic.Ring

/-! Rows of digits, the most significant one first, and their values. -/

namespace NativeLib.Collections

section semiring

variable {R S : Type} [CommSemiring R] [CommSemiring S]

/-- The value of the digits in base `b`. -/
def positional (b : R) (digits : List R) : R := digits.foldl (fun value d => value * b + d) 0

@[simp] theorem positional_nil (b : R) : positional b [] = 0 := rfl

theorem positional_concat (b : R) (digits : List R) (d : R) :
    positional b (digits ++ [d]) = positional b digits * b + d := by
  rw [positional, List.foldl_append]
  rfl

theorem positional_append (b : R) (high low : List R) :
    positional b (high ++ low) = positional b high * b ^ low.length + positional b low := by
  induction low using List.reverseRecOn with
  | nil => simp
  | append_singleton low d ih =>
    rw [← List.append_assoc, positional_concat, ih, positional_concat, List.length_append,
      List.length_singleton]
    ring

theorem positional_cons (b d : R) (low : List R) :
    positional b (d :: low) = d * b ^ low.length + positional b low := by
  have h := positional_append b [d] low
  have hd : positional b [d] = d := by rw [← List.nil_append [d], positional_concat]; simp
  rwa [List.singleton_append, hd] at h

theorem map_positional (f : R →+* S) (b : R) (digits : List R) :
    f (positional b digits) = positional (f b) (digits.map f) := by
  induction digits using List.reverseRecOn with
  | nil => exact map_zero f
  | append_singleton digits d ih =>
    rw [List.map_append, List.map_singleton, positional_concat, positional_concat, map_add,
      map_mul, ih]

/-- A row of two-digit groups, read in the square of the base. -/
theorem positional_flatMap {α : Type} (b : R) (high low : α → R) (xs : List α) :
    positional b (xs.flatMap fun x => [high x, low x]) =
      positional (b * b) (xs.map fun x => high x * b + low x) := by
  induction xs using List.reverseRecOn with
  | nil => rfl
  | append_singleton xs x ih =>
    have hpair : [high x, low x] = [high x] ++ [low x] := rfl
    rw [List.flatMap_append, List.flatMap_singleton, hpair, ← List.append_assoc,
      positional_concat, positional_concat, ih, List.map_append, List.map_singleton,
      positional_concat]
    ring

theorem positional_map_add {α : Type} (b k : R) (f g : α → R) (xs : List α) :
    positional b (xs.map fun x => f x + k * g x) =
      positional b (xs.map f) + k * positional b (xs.map g) := by
  induction xs using List.reverseRecOn with
  | nil => simp
  | append_singleton xs x ih =>
    simp only [List.map_append, List.map_singleton, positional_concat, ih]
    ring

end semiring

section nat

variable {b : ℕ} {digits : List ℕ}

/-- Ones leave a part of the range free. -/
theorem positional_ones_lt (h : ∀ d ∈ digits, d ≤ 1) :
    positional (b + 1) digits * b < (b + 1) ^ digits.length := by
  induction digits with
  | nil => simp
  | cons d low ih =>
    have hd := h d List.mem_cons_self
    have hlow := ih fun d hmem => h d (List.mem_cons_of_mem _ hmem)
    rw [positional_cons, List.length_cons]
    calc (d * (b + 1) ^ low.length + positional (b + 1) low) * b
        = d * (b + 1) ^ low.length * b + positional (b + 1) low * b := by ring
      _ < d * (b + 1) ^ low.length * b + (b + 1) ^ low.length := Nat.add_lt_add_left hlow _
      _ ≤ 1 * (b + 1) ^ low.length * b + (b + 1) ^ low.length := by gcongr
      _ = (b + 1) ^ (low.length + 1) := by ring

theorem positional_eq_zero (hb : 0 < b) : positional b digits = 0 ↔ ∀ d ∈ digits, d = 0 := by
  induction digits with
  | nil => simp
  | cons d low ih =>
    have hpow : b ^ low.length ≠ 0 := (Nat.pow_pos hb).ne'
    rw [positional_cons, Nat.add_eq_zero_iff, ih, Nat.mul_eq_zero, or_iff_left hpow,
      List.forall_mem_cons]

end nat

end NativeLib.Collections
