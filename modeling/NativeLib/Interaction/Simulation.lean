import Mathlib.Logic.Function.Iterate
import Mathlib.Tactic.Common

/-! Two machines that take step after step. One follows the other if whatever the first does in a
step the second does in some number of its own. -/

namespace NativeLib.Interaction

variable {σ τ : Type} {f : σ → σ} {g : τ → τ}

/-- The machine comes from one state to another. -/
def Reaches (f : σ → σ) (s t : σ) : Prop := ∃ n, f^[n] s = t

namespace Reaches

theorem refl (f : σ → σ) (s : σ) : Reaches f s s := ⟨0, rfl⟩

theorem head {s t : σ} (h : Reaches f (f s) t) : Reaches f s t := by
  obtain ⟨n, hn⟩ := h
  exact ⟨n + 1, by rwa [Function.iterate_succ_apply]⟩

theorem single (f : σ → σ) (s : σ) : Reaches f s (f s) := head (refl f (f s))

theorem trans {s t u : σ} (hst : Reaches f s t) (htu : Reaches f t u) : Reaches f s u := by
  obtain ⟨m, rfl⟩ := hst
  obtain ⟨n, rfl⟩ := htu
  exact ⟨n + m, Function.iterate_add_apply f n m s⟩

/-- The first machine runs inside a region and leaves it with its last step. As long as it is
inside, `R` connects it with the second machine; where it comes out, `Out` does. -/
theorem simulates {R Out : σ → τ → Prop} {inside : σ → Prop} {s : σ} {s' : τ} {n : ℕ}
    (hstep : ∀ i < n, ∀ t', R (f^[i] s) t' → ∃ u', Reaches g t' u' ∧
      (inside (f^[i + 1] s) → R (f^[i + 1] s) u') ∧
      (¬ inside (f^[i + 1] s) → Out (f^[i + 1] s) u'))
    (hpos : 0 < n) (hR : R s s') (hin : ∀ i < n, inside (f^[i] s))
    (hout : ¬ inside (f^[n] s)) :
    ∃ t', Reaches g s' t' ∧ Out (f^[n] s) t' := by
  have hrun : ∀ i, i < n → ∃ t', Reaches g s' t' ∧ R (f^[i] s) t' := by
    intro i
    induction i with
    | zero => exact fun _ => ⟨s', refl g s', hR⟩
    | succ i ih =>
      intro hi
      obtain ⟨t', hreach, ht'⟩ := ih (by omega)
      obtain ⟨u', hu', hR', -⟩ := hstep i (by omega) t' ht'
      exact ⟨u', hreach.trans hu', hR' (hin (i + 1) hi)⟩
  cases n with
  | zero => exact absurd hpos (Nat.lt_irrefl 0)
  | succ n =>
    obtain ⟨t', hreach, ht'⟩ := hrun n (by omega)
    obtain ⟨u', hu', -, hOut⟩ := hstep n (by omega) t' ht'
    exact ⟨u', hreach.trans hu', hOut hout⟩

end Reaches

end NativeLib.Interaction
