import Mathlib.Data.List.TakeDrop
import NativeLib.Files.FileSystem

/-! `utils/fileUtils.cpp`: `copyFile`. The destination is opened, and so emptied, before it is
known whether there is a source. -/

namespace NativeLib.Utils

open Files

variable {P : Type} [DecidableEq P]

/-- `fileUtils::copyFile`. -/
def copyFile (fs : FileSystem P) (sourcePath destinationPath : P) : Bool × FileSystem P :=
  let sourceFile := fs.openRead sourcePath
  let (destinationFile, fs) := fs.openWrite destinationPath
  match sourceFile with
  | none => (false, fs)
  | some source =>
    match destinationFile with
    | none => (false, fs)
    | some destination => (true, fs.append destination ((fs.content source).take fs.room))

/-- Either the destination holds what the source held, or nothing has changed. -/
def FaithfulOrHarmless (fs : FileSystem P) (sourcePath destinationPath : P) : Prop :=
  if (copyFile fs sourcePath destinationPath).1 then
    (copyFile fs sourcePath destinationPath).2.read destinationPath = fs.read sourcePath
  else ∀ p, (copyFile fs sourcePath destinationPath).2.read p = fs.read p

variable {fs : FileSystem P} {src dst : P} {s : ℕ}

theorem copyFile_no_source (h : fs.openRead src = none) :
    copyFile fs src dst = (false, (fs.openWrite dst).2) := by
  rw [copyFile, h]

theorem copyFile_no_destination (hdst : ¬ fs.mayWrite dst = true) :
    copyFile fs src dst = (false, fs) := by
  rw [copyFile, FileSystem.openWrite_denied hdst]
  cases fs.openRead src <;> rfl

theorem copyFile_copies (h : fs.openRead src = some s) (hdst : fs.mayWrite dst = true) :
    (copyFile fs src dst).1 = true ∧ (copyFile fs src dst).2.read dst =
      some (((fs.openWrite dst).2.content s).take (fs.openWrite dst).2.room) := by
  obtain ⟨d, hopen, hfile, hempty⟩ := FileSystem.openWrite_empty hdst
  have hcopy : copyFile fs src dst = (true, (fs.openWrite dst).2.append d
      (((fs.openWrite dst).2.content s).take (fs.openWrite dst).2.room)) := by
    rw [copyFile, h]
    simp only [hopen]
  rw [hcopy]
  refine ⟨rfl, ?_⟩
  rw [FileSystem.append, FileSystem.read_store, if_pos hfile, hempty, List.nil_append]

/-- Copying is faithful or harmless exactly if the destination cannot be opened, or else: without
a source the destination is there and empty, and with one it is another file and all bytes get
through, or the source is empty. -/
theorem copyFile_faithful_iff (fs : FileSystem P) (src dst : P) :
    FaithfulOrHarmless fs src dst ↔ (fs.mayWrite dst = true →
      match fs.openRead src with
      | none => fs.read dst = some []
      | some s => if fs.file dst = some s then fs.content s = []
          else (fs.content s).length ≤ fs.room) := by
  cases hsrc : fs.openRead src with
  | none =>
    rw [FaithfulOrHarmless, copyFile_no_source hsrc]
    exact FileSystem.openWrite_unchanged_iff
  | some s =>
    by_cases hdst : fs.mayWrite dst = true
    swap
    · rw [FaithfulOrHarmless, copyFile_no_destination hdst]
      exact iff_of_true (fun _ => rfl) fun h => absurd h hdst
    obtain ⟨hdone, hread⟩ := copyFile_copies hsrc hdst
    have hfile := FileSystem.openRead_file hsrc
    have hbefore : fs.read src = some (fs.content s) := by
      rw [FileSystem.read, hfile]
      rfl
    rw [FaithfulOrHarmless, hdone, if_pos rfl, hread, hbefore, Option.some_inj,
      FileSystem.room_openWrite]
    simp only [hdst, true_imp_iff]
    by_cases hsame : fs.file dst = some s
    · rw [if_pos hsame, FileSystem.openWrite_file hdst hsame, FileSystem.content_store,
        List.take_nil]
      exact eq_comm
    · rw [if_neg hsame, FileSystem.content_openWrite hfile hsame]
      exact List.take_eq_self_iff _

/-- A destination with something in it, and no source. -/
def noSource : FileSystem Bool where
  file := fun p => if p then some 0 else none
  content := fun _ => [1, 2, 3]
  mayRead := fun _ => true
  mayWrite := fun _ => true
  next := 1
  room := 100
  file_lt := by decide +revert

/-- The destination is emptied, although there is nothing to copy. -/
theorem copyFile_empties : ¬ FaithfulOrHarmless noSource false true := by
  have hfailed : (copyFile noSource false true).1 = false := by decide
  rw [FaithfulOrHarmless, hfailed]
  intro h
  exact absurd (h true) (by decide)

end NativeLib.Utils
