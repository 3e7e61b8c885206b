import Mathlib.Logic.Function.Basic
import Mathlib.Tactic.Common

/-! Files and the paths that name them. Several paths may name one file. -/

namespace NativeLib.Files

/-- What every path names, what is in the files, and which paths may be opened; a path that names
no file may be opened for writing if a file can be created there. `room` is how many bytes get
through before a read or a write fails. -/
structure FileSystem (P : Type) where
  file : P → Option ℕ
  content : ℕ → List UInt8
  mayRead : P → Bool
  mayWrite : P → Bool
  next : ℕ
  room : ℕ
  file_lt : ∀ p f, file p = some f → f < next

namespace FileSystem

variable {P : Type} (fs : FileSystem P)

/-- What is in the file that a path names. -/
def read (p : P) : Option (List UInt8) := (fs.file p).map fs.content

/-- Open for reading. -/
def openRead (p : P) : Option ℕ := if fs.mayRead p then fs.file p else none

def store (f : ℕ) (data : List UInt8) : FileSystem P :=
  { fs with content := Function.update fs.content f data }

def append (f : ℕ) (data : List UInt8) : FileSystem P := fs.store f (fs.content f ++ data)

section

variable {fs} {p : P} {f : ℕ} {data : List UInt8}

theorem read_store :
    (fs.store f data).read p = if fs.file p = some f then some data else fs.read p := by
  change (fs.file p).map (Function.update fs.content f data) = _
  rw [read]
  cases hp : fs.file p with
  | none => simp
  | some g =>
    by_cases hg : g = f
    · simp [hg]
    · simp [hg]

theorem content_store : (fs.store f data).content f = data := Function.update_self ..

theorem read_append (hp : fs.file p = some f) (data : List UInt8) :
    (fs.append f data).read p = some (fs.content f ++ data) := by
  rw [append, read_store, if_pos hp]

theorem openRead_file (h : fs.openRead p = some f) : fs.file p = some f := by
  rw [openRead] at h
  split at h
  · exact h
  · simp at h

/-- Who may open what and how much gets through is the same. -/
structure SameRights (fs fs' : FileSystem P) : Prop where
  mayRead : fs'.mayRead = fs.mayRead
  mayWrite : fs'.mayWrite = fs.mayWrite
  room : fs'.room = fs.room

theorem SameRights.trans {fs₁ fs₂ fs₃ : FileSystem P} (h : fs₁.SameRights fs₂)
    (h' : fs₂.SameRights fs₃) : fs₁.SameRights fs₃ :=
  ⟨h'.mayRead.trans h.mayRead, h'.mayWrite.trans h.mayWrite, h'.room.trans h.room⟩

theorem sameRights_append (f : ℕ) (data : List UInt8) : fs.SameRights (fs.append f data) :=
  ⟨rfl, rfl, rfl⟩

end

variable [DecidableEq P]

/-- A new file, with nothing in it. -/
def create (p : P) : FileSystem P :=
  { fs with
    file := Function.update fs.file p (some fs.next)
    content := Function.update fs.content fs.next []
    next := fs.next + 1
    file_lt := by
      intro q f h
      rw [Function.update_apply] at h
      split at h
      · obtain rfl := Option.some.inj h
        exact Nat.lt_succ_self _
      · exact Nat.lt_succ_of_lt (fs.file_lt q f h) }

/-- Open for writing: what was in the file is gone, and a file that was not there is. -/
def openWrite (p : P) : Option ℕ × FileSystem P :=
  if fs.mayWrite p then
    match fs.file p with
    | some f => (some f, fs.store f [])
    | none => (some fs.next, fs.create p)
  else (none, fs)

/-- Open to add at the end: what was in the file stays. -/
def openAppend (p : P) : Option ℕ × FileSystem P :=
  if fs.mayWrite p then
    match fs.file p with
    | some f => (some f, fs)
    | none => (some fs.next, fs.create p)
  else (none, fs)

variable {fs} {p q : P} {f g : ℕ}

theorem openWrite_denied (h : ¬ fs.mayWrite p = true) : fs.openWrite p = (none, fs) := if_neg h

theorem openWrite_file (h : fs.mayWrite p = true) (hp : fs.file p = some f) :
    fs.openWrite p = (some f, fs.store f []) := by
  rw [openWrite, if_pos h, hp]

theorem openWrite_new (h : fs.mayWrite p = true) (hp : fs.file p = none) :
    fs.openWrite p = (some fs.next, fs.create p) := by
  rw [openWrite, if_pos h, hp]

/-- All that opening for writing can do. -/
theorem openWrite_cases (fs : FileSystem P) (p : P) :
    (¬ fs.mayWrite p = true ∧ fs.openWrite p = (none, fs)) ∨
    (fs.mayWrite p = true ∧ fs.file p = none ∧ fs.openWrite p = (some fs.next, fs.create p)) ∨
    ∃ f, fs.mayWrite p = true ∧ fs.file p = some f ∧
      fs.openWrite p = (some f, fs.store f []) := by
  by_cases h : fs.mayWrite p = true
  · cases hp : fs.file p with
    | none => exact .inr (.inl ⟨h, rfl, openWrite_new h hp⟩)
    | some f => exact .inr (.inr ⟨f, h, rfl, openWrite_file h hp⟩)
  · exact .inl ⟨h, openWrite_denied h⟩

/-- A file that is open for writing is empty, and the path names it. -/
theorem openWrite_empty (h : fs.mayWrite p = true) :
    ∃ f, (fs.openWrite p).1 = some f ∧ (fs.openWrite p).2.file p = some f ∧
      (fs.openWrite p).2.content f = [] := by
  cases hp : fs.file p with
  | none =>
    rw [openWrite_new h hp]
    exact ⟨fs.next, rfl, Function.update_self .., Function.update_self ..⟩
  | some f =>
    rw [openWrite_file h hp]
    exact ⟨f, rfl, hp, Function.update_self ..⟩

/-- A file that is open to be added to holds what it held. -/
theorem openAppend_keeps (h : fs.mayWrite p = true) :
    ∃ f, (fs.openAppend p).1 = some f ∧ (fs.openAppend p).2.file p = some f ∧
      (fs.openAppend p).2.content f = (fs.read p).getD [] := by
  rw [openAppend, if_pos h, read]
  cases hp : fs.file p with
  | none => exact ⟨fs.next, rfl, Function.update_self .., Function.update_self ..⟩
  | some f => exact ⟨f, rfl, hp, rfl⟩

theorem sameRights_openWrite (p : P) : fs.SameRights (fs.openWrite p).2 := by
  rcases fs.openWrite_cases p with ⟨-, hrun⟩ | ⟨-, -, hrun⟩ | ⟨f, -, -, hrun⟩
  all_goals
    rw [hrun]
    exact ⟨rfl, rfl, rfl⟩

theorem sameRights_openAppend (p : P) : fs.SameRights (fs.openAppend p).2 := by
  rw [openAppend]
  split
  · split <;> exact ⟨rfl, rfl, rfl⟩
  · exact ⟨rfl, rfl, rfl⟩

theorem room_openWrite (p : P) : (fs.openWrite p).2.room = fs.room :=
  (sameRights_openWrite p).room

/-- What was in another file is still in it. -/
theorem content_openWrite (hq : fs.file q = some g) (hne : fs.file p ≠ some g) :
    (fs.openWrite p).2.content g = fs.content g := by
  rcases fs.openWrite_cases p with ⟨-, hrun⟩ | ⟨-, -, hrun⟩ | ⟨f, -, hp, hrun⟩
  · rw [hrun]
  · rw [hrun]
    exact Function.update_of_ne (Nat.ne_of_lt (fs.file_lt q g hq)) ..
  · rw [hrun]
    refine Function.update_of_ne ?_ ..
    rintro rfl
    exact hne hp

/-- Opening for writing changes nothing exactly if it fails or the file is there and empty. -/
theorem openWrite_unchanged_iff : (∀ q, (fs.openWrite p).2.read q = fs.read q) ↔
    (fs.mayWrite p = true → fs.read p = some []) := by
  rcases fs.openWrite_cases p with ⟨h, hrun⟩ | ⟨h, hp, hrun⟩ | ⟨f, h, hp, hrun⟩
  · rw [hrun]
    exact iff_of_true (fun _ => rfl) fun hw => absurd hw h
  · rw [hrun]
    have hnone : fs.read p = none := by rw [read, hp]; rfl
    have hnew : (fs.create p).read p = some [] := by simp [read, create]
    refine iff_of_false (fun hall => ?_) fun hempty => ?_
    · rw [hall p, hnone] at hnew
      simp at hnew
    · rw [hnone] at hempty
      simpa using hempty h
  · rw [hrun]
    refine ⟨fun hall _ => ?_, fun hempty q => ?_⟩
    · rw [← hall p, read_store, if_pos hp]
    · rw [read_store]
      split
      · next hq =>
        rw [← hempty h, read, read, hp, hq]
      · rfl

end FileSystem

end NativeLib.Files
