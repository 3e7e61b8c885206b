import Mathlib.Logic.Relation
import NativeLib.Collections.Brackets
import NativeLib.Interaction.Prog

/-! Programs that are run again while a command of theirs is answered. The environment keeps
the log of all commands, those of the programs that run inside with them. -/

namespace NativeLib.Interaction

open Collections Relation
open Prog (Exec)

variable {C R α ι : Type}

/-- Answers as `reply` has them. While a command of `starts` is answered any number of the
programs run one after another, and in these no more than `depth` are open at any time. -/
def nested (reply : C → R → Prop) (starts : C → Prop) (body : ι → Prog C R α) :
    ℕ → List C → C → R → List C → Prop
  | 0, log, c, r, log' => reply c r ∧ log' = log ++ [c]
  | depth + 1, log, c, r, log' =>
      reply c r ∧ ReflTransGen (fun l l' => starts c ∧ ∃ i tr a,
        (body i).Exec (nested reply starts body depth) l tr a l') (log ++ [c]) log'

/-- One program after another, `depth` more being open in each at any time. -/
def RunsNested (reply : C → R → Prop) (starts : C → Prop) (body : ι → Prog C R α) (depth : ℕ) :
    List C → List C → Prop :=
  ReflTransGen fun l l' => ∃ i tr a, (body i).Exec (nested reply starts body depth) l tr a l'

variable {reply : C → R → Prop} {starts : C → Prop} {body : ι → Prog C R α}

theorem nested_reply {depth : ℕ} {log log' : List C} {c : C} {r : R}
    (h : nested reply starts body depth log c r log') : reply c r := by
  cases depth with
  | zero => exact h.1
  | succ depth => exact h.1

/-- A command is answered in any depth by a mere answer. -/
theorem nested_answer {c : C} {r : R} (h : reply c r) (depth : ℕ) (log : List C) :
    nested reply starts body depth log c r (log ++ [c]) := by
  cases depth with
  | zero => exact ⟨h, rfl⟩
  | succ depth => exact ⟨h, .refl⟩

section

variable {β : Type} [DecidableEq β] (see : C → Option (Bracket β))

/-- The brackets left open by the commands so far. -/
def openIn (log : List C) : Option (List β) := unmatched [] (log.filterMap see)

theorem openIn_append (log l : List C) :
    openIn see (log ++ l) = (openIn see log).bind fun st => unmatched st (l.filterMap see) := by
  rw [openIn, List.filterMap_append, unmatched_append, openIn]

theorem foldl_openIn (log l : List C) :
    l.foldl (fun st c => st.bind fun st => unmatched st ([c].filterMap see)) (openIn see log) =
      openIn see (log ++ l) := by
  induction l generalizing log with
  | nil => simp
  | cons c l ih =>
    rw [List.foldl_cons, ← openIn_append, ih, List.append_assoc, List.singleton_append]

/-- A run with properly nested commands of its own, in an environment in which a command
leaves open what it opens itself, leaves nothing open. -/
theorem openIn_exec {env : List C → C → R → List C → Prop}
    (henv : ∀ l c r l', env l c r l' → openIn see l' = openIn see (l ++ [c]))
    {p : Prog C R α} {log log' : List C} {tr : Trace C R} {a : α}
    (h : p.Exec env log tr a log')
    (hown : ProperlyNested ((tr.map Prod.fst).filterMap see)) :
    openIn see log' = openIn see log := by
  have hobs := h.observe (openIn see)
    (fun st c => st.bind fun st => unmatched st ([c].filterMap see))
    (fun l c r l' hl => by rw [henv l c r l' hl, openIn_append])
  rw [hobs, foldl_openIn, openIn_append]
  cases openIn see log with
  | none => rfl
  | some st => exact hown.keeps st

/-- Programs whose own commands are properly nested in every run leave nothing open, however
deep they are nested in each other. -/
theorem nested_openIn (hbody : ∀ (i : ι) depth log tr a log',
      (body i).Exec (nested reply starts body depth) log tr a log' →
      ProperlyNested ((tr.map Prod.fst).filterMap see)) {depth : ℕ} {log log' : List C} {c : C}
    {r : R} (h : nested reply starts body depth log c r log') :
    openIn see log' = openIn see (log ++ [c]) := by
  induction depth generalizing log c r log' with
  | zero => rw [h.2]
  | succ depth ih =>
    obtain ⟨-, hruns⟩ := h
    induction hruns with
    | refl => rfl
    | tail _ hlast hfirst =>
      obtain ⟨-, i, tr, a, hrun⟩ := hlast
      rw [openIn_exec see (fun _ _ _ _ hl => ih hl) hrun (hbody i depth _ tr a _ hrun), hfirst]

theorem RunsNested.properlyNested (hbody : ∀ (i : ι) depth log tr a log',
      (body i).Exec (nested reply starts body depth) log tr a log' →
      ProperlyNested ((tr.map Prod.fst).filterMap see)) {depth : ℕ} {log : List C}
    (h : RunsNested reply starts body depth [] log) : ProperlyNested (log.filterMap see) := by
  suffices hkeep : openIn see log = openIn see [] from hkeep
  induction h with
  | refl => rfl
  | tail _ hlast ih =>
    obtain ⟨i, tr, a, hrun⟩ := hlast
    rw [openIn_exec see (fun _ _ _ _ hl => nested_openIn see hbody hl) hrun
      (hbody i depth _ tr a _ hrun), ih]

end

end NativeLib.Interaction
