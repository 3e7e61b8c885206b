import Mathlib.Algebra.Group.Nat.Defs
import Mathlib.Data.List.Forall2
import Mathlib.Tactic.Common

/-! Arguments in registers. A function takes from each register as many bits as its parameter
has; the rest of a register, and the registers after its last parameter, it does not know. -/

namespace NativeLib.Calls

variable {ws vs args : List ℕ} {regs : ℕ → ℕ}

/-- The arguments that a function with parameters of these widths finds in the registers. -/
def received : List ℕ → (ℕ → ℕ) → List ℕ
  | [], _ => []
  | w :: ws, regs => regs 0 % 2 ^ w :: received ws fun i => regs (i + 1)

@[simp] theorem length_received (ws : List ℕ) (regs : ℕ → ℕ) :
    (received ws regs).length = ws.length := by
  induction ws generalizing regs with
  | nil => rfl
  | cons w ws ih => exact congrArg Nat.succ (ih _)

/-- Values that fit their parameters can be passed. -/
theorem exists_received (h : List.Forall₂ (fun a w => a < 2 ^ w) args ws) :
    ∃ regs, received ws regs = args := by
  induction h with
  | nil => exact ⟨fun _ => 0, rfl⟩
  | @cons a w args ws ha _ ih =>
    obtain ⟨regs, hregs⟩ := ih
    refine ⟨fun i => i.casesOn a regs, ?_⟩
    exact congrArg₂ List.cons (Nat.mod_eq_of_lt ha) hregs

/-- Parameters that agree with the arguments once there are as many are given these arguments
if there are as many. -/
theorem received_eq_iff (hwidths : ws.length = vs.length → ws = vs)
    (hargs : received vs regs = args) : received ws regs = args ↔ ws.length = vs.length := by
  refine ⟨fun h => ?_, fun h => ?_⟩
  · rw [← length_received ws regs, ← length_received vs regs, h, hargs]
  · rw [hwidths h, hargs]

end NativeLib.Calls
