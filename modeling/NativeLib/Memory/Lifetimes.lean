import NativeLib.Collections.Positions

/-! Lifetimes of objects. A command uses objects and deletes at most one. A list of commands
respects the lifetimes when nothing is deleted twice, and nothing used after it was
deleted. -/

namespace NativeLib.Memory

open Collections

variable {C O : Type}

/-- What each command does to the objects. -/
structure Footprint (C O : Type) where
  uses : C → List O
  deletes : C → Option O

namespace Footprint

variable (f : Footprint C O) {dead : List O} {l l' : List C}

/-- The objects that the commands delete, in order. -/
def deleted (l : List C) : List O := l.filterMap f.deletes

@[simp] theorem deleted_nil : f.deleted [] = [] := rfl

@[simp] theorem deleted_append : f.deleted (l ++ l') = f.deleted l ++ f.deleted l' :=
  List.filterMap_append

/-- After the objects of `dead` were deleted: no object is deleted a second time, and none is
used after it was deleted. -/
structure RespectsAfter (dead : List O) (l : List C) : Prop where
  once : (dead ++ f.deleted l).Nodup
  unused : AtEach (fun before c => ∀ o ∈ f.uses c, o ∉ dead ++ f.deleted before) l

def Respects (l : List C) : Prop := f.RespectsAfter [] l

theorem respectsAfter_append :
    f.RespectsAfter dead (l ++ l') ↔
      f.RespectsAfter dead l ∧ f.RespectsAfter (dead ++ f.deleted l) l' := by
  refine ⟨?_, ?_⟩
  · rintro ⟨honce, hunused⟩
    rw [deleted_append, ← List.append_assoc] at honce
    simp only [atEach_append, deleted_append, ← List.append_assoc] at hunused
    exact ⟨⟨(List.nodup_append.mp honce).1, hunused.1⟩, ⟨honce, hunused.2⟩⟩
  · rintro ⟨h, h'⟩
    refine ⟨?_, ?_⟩
    · rw [deleted_append, ← List.append_assoc]
      exact h'.once
    · simp only [atEach_append, deleted_append, ← List.append_assoc]
      exact ⟨h.unused, h'.unused⟩

theorem respectsAfter_nil (hdead : dead.Nodup) : f.RespectsAfter dead [] :=
  ⟨by simpa using hdead, atEach_nil _⟩

/-- The first command uses nothing that is dead. -/
theorem RespectsAfter.head {f : Footprint C O} {c : C} (h : f.RespectsAfter dead (c :: l)) :
    ∀ o ∈ f.uses c, o ∉ dead := by
  have hfirst := (atEach_cons.mp h.unused).1
  rwa [deleted_nil, List.append_nil] at hfirst

/-- Where nothing is deleted, everything may be used. -/
theorem respects_of_deleted_nil (h : f.deleted l = []) : f.Respects l := by
  refine ⟨by simp [h], ?_⟩
  rintro pre c post rfl o -
  rw [deleted_append, List.append_eq_nil_iff] at h
  simp [h.1]

end Footprint

end NativeLib.Memory
