import Mathlib.Logic.Function.Iterate
import NativeLib.Collections.Answers
import NativeLib.Interaction.Prog

/-! Loops of programs. A loop is followed at most `fuel` times round; where it would go on
there is no result. -/

namespace NativeLib.Interaction.Prog

open Collections

variable {C R α ι σ : Type} (body : ι → Prog C R Bool) (next : ι → ι) (again : ι → Bool)

/-- `do { if (!body(x)) break; x = next(x); } while (again(x));`. -/
def doWhile : ℕ → ι → Prog C R (Option Unit)
  | 0, _ => pure none
  | fuel + 1, x => do
    if ← body x then
      if again (next x) then doWhile fuel (next x) else pure (some ())
    else pure (some ())

/-- Where the loop stands, round after round, if its body never breaks it off. -/
def visits : ℕ → ι → List ι
  | 0, _ => []
  | fuel + 1, x => x :: if again (next x) then visits fuel (next x) else []

/-- The loop ends by itself. -/
def ends : ℕ → ι → Bool
  | 0, _ => false
  | fuel + 1, x => if again (next x) then ends fuel (next x) else true

/-- `for (x : xs) if (!body(x)) return;`, and what comes after the loop. -/
def forWhile (after : Option Unit) : List ι → Prog C R (Option Unit)
  | [] => pure after
  | x :: xs => do
    if ← body x then forWhile after xs else pure (some ())

theorem doWhile_eq_forWhile (fuel : ℕ) (x : ι) : doWhile body next again fuel x =
    forWhile body (if ends next again fuel x then some () else none)
      (visits next again fuel x) := by
  induction fuel generalizing x with
  | zero => rfl
  | succ fuel ih =>
    rw [doWhile, visits, ends, forWhile, ih]
    cases again (next x) <;> rfl

/-- The loop stands where it is said to, if it has to go on there and not further. -/
theorem visits_eq_iterate {n : ℕ} {x : ι} (hgo : ∀ i, 0 < i → i < n → again (next^[i] x) = true)
    (hstop : again (next^[n] x) = false) (hn : 0 < n) {fuel : ℕ} (hfuel : n ≤ fuel) :
    visits next again fuel x = (List.range n).map (next^[·] x) ∧
      ends next again fuel x = true := by
  induction n generalizing x fuel with
  | zero => exact absurd hn (Nat.lt_irrefl 0)
  | succ n ih =>
    obtain ⟨fuel, rfl⟩ : ∃ m, fuel = m + 1 := ⟨fuel - 1, by omega⟩
    rw [visits, ends]
    rcases Nat.eq_zero_or_pos n with rfl | hpos
    · rw [show again (next x) = false from hstop]
      exact ⟨rfl, rfl⟩
    · rw [show again (next x) = true from hgo 1 Nat.one_pos (by omega)]
      obtain ⟨hv, he⟩ := @ih (next x) (fun i hi hlt => hgo (i + 1) (by omega) (by omega)) hstop hpos
        fuel (by omega)
      refine ⟨?_, he⟩
      rw [if_pos rfl, hv, List.range_succ_eq_map, List.map_cons, List.map_map]
      rfl

variable {body} {next} {again}

theorem Asks.forWhile {P : C → Prop} {xs : List ι} (h : ∀ x ∈ xs, (body x).Asks P)
    (after : Option Unit) : (forWhile body after xs).Asks P := by
  induction xs with
  | nil => trivial
  | cons x xs ih =>
    rw [List.forall_mem_cons] at h
    refine h.1.bind fun b => ?_
    cases b with
    | false => trivial
    | true => exact ih h.2

/-- A loop whose body brings what `site` finds and heeds the answer. The environment keeps
what was brought. -/
theorem runWith_forWhile {h : List α → C → R × List α} (site : ι → Option α)
    (go : List α → Bool) (hbody : ∀ x s, ((body x).runWith h s).2 =
      ((site x).all (fun y => go (s ++ [y])), s ++ (site x).toList))
    (after : Option Unit) (xs : List ι) (s : List α) :
    ((forWhile body after xs).runWith h s).2 =
      (if GoesOn go s (xs.filterMap site) then after else some (),
        s ++ brought go s (xs.filterMap site)) := by
  induction xs generalizing s with
  | nil => simp [Prog.forWhile, brought]
  | cons x xs ih =>
    rw [Prog.forWhile, runWith_bind, hbody, List.filterMap_cons]
    cases site x with
    | none =>
      simp only [Option.all_none, if_true, Option.toList_none, List.append_nil]
      exact ih s
    | some y =>
      simp only [Option.all_some, Option.toList_some, GoesOn, brought]
      by_cases hgo : go (s ++ [y]) = true
      · simp only [hgo, if_true, Bool.true_and, ih, List.append_assoc, List.singleton_append]
      · simp [hgo]

end NativeLib.Interaction.Prog
