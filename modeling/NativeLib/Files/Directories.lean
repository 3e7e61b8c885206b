import Mathlib.Data.List.Infix
import NativeLib.Files.FileSystem
import NativeLib.Interaction.Prog

/-! Directories and files under paths that are compared up to repeated and trailing slashes, and
the calls that work on them. -/

namespace NativeLib.Files

open Interaction

/-- A path as the names in it. -/
abbrev DirPath := List (List Char)

/-- The names between the slashes. -/
def components (s : List Char) : DirPath := (s.splitOn '/').filter (· ≠ [])

def MAXPATHLEN : ℕ := 4096

/-- A path without its last name and the slashes around it. -/
def directoryPart (path : List Char) : List Char :=
  (((path.reverse.dropWhile (· = '/')).dropWhile (· ≠ '/')).dropWhile (· = '/')).reverse

/-- `dirname`. What is longer than a path can be has no result. -/
def dirname (path : List Char) : Option (List Char) :=
  let dir :=
    if directoryPart path ≠ [] then directoryPart path
    else if path.head? = some '/' then ['/'] else ['.']
  if dir.length + 1 ≤ MAXPATHLEN then some dir else none

/-- The files, the directories and the working directory. -/
structure Disk where
  files : FileSystem DirPath
  dirs : List DirPath
  cwd : List Char
  root_mem : [] ∈ dirs
  cwd_abs : cwd.head? = some '/'
  nul_notMem_cwd : '\x00' ∉ cwd

namespace Disk

variable (disk : Disk)

/-- Where a path starts from. -/
def base (path : List Char) : DirPath :=
  if path.head? = some '/' then [] else components disk.cwd

/-- What a path stands for. -/
def resolve (path : List Char) : DirPath := disk.base path ++ components path

/-- There is a directory or a file. -/
def There (p : DirPath) : Prop := p ∈ disk.dirs ∨ (disk.files.file p).isSome = true

instance (p : DirPath) : Decidable (disk.There p) := inferInstanceAs (Decidable (_ ∨ _))

def addDirs (made : List DirPath) : Disk :=
  { disk with dirs := disk.dirs ++ made, root_mem := List.mem_append_left _ disk.root_mem }

/-- The paths of a list that are not there, each once, in order. -/
def missing (disk : Disk) : List DirPath → List DirPath
  | [] => []
  | p :: ps => if disk.There p then disk.missing ps else p :: (disk.addDirs [p]).missing ps

end Disk

inductive DiskCall where
  | getcwd (size : ℕ)
  | access (path : List Char)
  | mkdir (path : List Char)
  | openRead (path : List Char)
  | openTrunc (path : List Char)
  | openAppend (path : List Char)
  | write (f : ℕ) (data : List UInt8)
  | read (f : ℕ)
  deriving DecidableEq, Repr

inductive DiskAnswer where
  | ok (b : Bool)
  | name (s : Option (List Char))
  | file (f : Option ℕ)
  | data (bytes : List UInt8)
  deriving DecidableEq, Repr

/-- What the calls do. A missing directory is created, or nothing happens. -/
inductive DiskStep (disk : Disk) : DiskCall → DiskAnswer → Disk → Prop where
  | getcwd (size : ℕ) : DiskStep disk (.getcwd size)
      (.name (if disk.cwd.length + 1 ≤ size then some disk.cwd else none)) disk
  | access (path : List Char) :
      DiskStep disk (.access path) (.ok (disk.There (disk.resolve path))) disk
  | made (path : List Char) (h : ¬ disk.There (disk.resolve path)) :
      DiskStep disk (.mkdir path) (.ok true) (disk.addDirs [disk.resolve path])
  | refused (path : List Char) : DiskStep disk (.mkdir path) (.ok false) disk
  | openRead (path : List Char) :
      DiskStep disk (.openRead path) (.file (disk.files.openRead (disk.resolve path))) disk
  | openTrunc (path : List Char) :
      DiskStep disk (.openTrunc path) (.file (disk.files.openWrite (disk.resolve path)).1)
        { disk with files := (disk.files.openWrite (disk.resolve path)).2 }
  | openAppend (path : List Char) :
      DiskStep disk (.openAppend path) (.file (disk.files.openAppend (disk.resolve path)).1)
        { disk with files := (disk.files.openAppend (disk.resolve path)).2 }
  | write (f : ℕ) (data : List UInt8) :
      DiskStep disk (.write f data) (.ok (data.length ≤ disk.files.room))
        { disk with files := disk.files.append f (data.take disk.files.room) }
  | read (f : ℕ) :
      DiskStep disk (.read f) (.data ((disk.files.content f).take disk.files.room)) disk

/-- What stands before each slash of `rest`, with `done` before it. -/
def cuts (done : List Char) : List Char → List (List Char)
  | [] => []
  | c :: rest => if c = '/' then done :: cuts (done ++ [c]) rest else cuts (done ++ [c]) rest

/-! What an answer says to a program that expects one of its kind. -/

def DiskAnswer.isOk : DiskAnswer → Bool
  | .ok b => b
  | _ => false

def DiskAnswer.handle : DiskAnswer → Option ℕ
  | .file f => f
  | _ => none

def DiskAnswer.bytes : DiskAnswer → List UInt8
  | .data bytes => bytes
  | _ => []

def DiskAnswer.string : DiskAnswer → Option (List Char)
  | .name s => s
  | _ => none

/-- `for (path : paths) if (access(path) != 0 && mkdir(path) == -1) return false;`. -/
def ensureAll : List (List Char) → Prog DiskCall DiskAnswer Bool
  | [] => pure true
  | path :: paths => do
    if (← Prog.call (.access path)).isOk then ensureAll paths
    else if (← Prog.call (.mkdir path)).isOk then ensureAll paths
    else pure false

/-- The directories that are asked for in a run, in order, and whether they are created. -/
def mkdirs (disk : Disk) (tr : Trace DiskCall DiskAnswer) : List (DirPath × Bool) :=
  tr.filterMap fun
    | (.mkdir path, .ok b) => some (disk.resolve path, b)
    | _ => none

variable {disk disk' : Disk} {path done rest s : List Char} {paths : List (List Char)} {p : DirPath}
  {ps made : List DirPath} {tr : Trace DiskCall DiskAnswer} {r : DiskAnswer} {ok : Bool}

theorem components_slash (s s' : List Char) :
    components (s ++ '/' :: s') = components s ++ components s' := by
  rw [components, List.splitOn_append_cons_self, List.filter_append]
  rfl

theorem mem_directoryPart {c : Char} (hc : c ∈ directoryPart path) : c ∈ path := by
  have hrest := (List.dropWhile_suffix _).subset (List.mem_reverse.mp hc)
  have hname := (List.dropWhile_suffix _).subset hrest
  exact List.mem_reverse.mp ((List.dropWhile_suffix _).subset hname)

theorem mem_of_mem_dirname {dir : List Char} (h : dir ∈ dirname path) {c : Char} (hc : c ∈ dir) :
    c ∈ path ∨ c = '/' ∨ c = '.' := by
  rw [dirname] at h
  by_cases hpart : directoryPart path ≠ []
  · rw [if_pos hpart] at h
    obtain ⟨-, heq⟩ := Option.ite_none_right_eq_some.mp h
    rw [← Option.some_inj.mp heq] at hc
    exact .inl (mem_directoryPart hc)
  · rw [if_neg hpart] at h
    obtain ⟨-, heq⟩ := Option.ite_none_right_eq_some.mp h
    rw [← Option.some_inj.mp heq] at hc
    split at hc
    · exact .inr (.inl (List.mem_singleton.mp hc))
    · exact .inr (.inr (List.mem_singleton.mp hc))

theorem components_prefix {s s' : List Char} (h : s ++ ['/'] <+: s') :
    components s <+: components s' := by
  obtain ⟨rest, rfl⟩ := h
  rw [List.append_assoc, List.singleton_append, components_slash]
  exact List.prefix_append _ _

theorem mem_cuts {q : List Char} :
    q ∈ cuts done rest ↔ ∃ s, q = done ++ s ∧ s ++ ['/'] <+: rest := by
  induction rest generalizing done with
  | nil => simp [cuts]
  | cons c rest ih =>
    have hlater : (∃ s, q = done ++ [c] ++ s ∧ s ++ ['/'] <+: rest) ↔
        ∃ s, q = done ++ s ∧ s ++ ['/'] <+: c :: rest ∧ s ≠ [] := by
      constructor
      · intro h
        obtain ⟨s, rfl, hs⟩ := h
        refine ⟨c :: s, by simp, ?_, List.cons_ne_nil _ _⟩
        exact List.cons_prefix_cons.mpr ⟨rfl, hs⟩
      · intro h
        obtain ⟨s, rfl, hs, hne⟩ := h
        obtain ⟨c', s, rfl⟩ := List.exists_cons_of_ne_nil hne
        obtain ⟨rfl, hrest⟩ := List.cons_prefix_cons.mp hs
        exact ⟨s, by simp, hrest⟩
    rw [cuts]
    by_cases hc : c = '/'
    · rw [if_pos hc, List.mem_cons, ih, hlater]
      constructor
      · intro h
        rcases h with rfl | ⟨s, hq, hs, -⟩
        · exact ⟨[], by simp, by simp [hc]⟩
        · exact ⟨s, hq, hs⟩
      · intro h
        obtain ⟨s, hq, hs⟩ := h
        by_cases hs0 : s = []
        · exact .inl (by simp [hq, hs0])
        · exact .inr ⟨s, hq, hs, hs0⟩
    · rw [if_neg hc, ih, hlater]
      refine exists_congr fun s => and_congr_right fun _ => and_iff_left_of_imp ?_
      rintro hs rfl
      exact hc (List.cons_prefix_cons.mp hs).1.symm

theorem cuts_pairwise (done rest : List Char) :
    (cuts done rest).Pairwise fun q q' => components q <+: components q' := by
  induction rest generalizing done with
  | nil => exact List.Pairwise.nil
  | cons c rest ih =>
    rw [cuts]
    by_cases hc : c = '/'
    · rw [if_pos hc, List.pairwise_cons]
      refine ⟨?_, ih _⟩
      intro q hq
      obtain ⟨s, rfl, -⟩ := mem_cuts.mp hq
      rw [hc]
      exact components_prefix (List.prefix_append _ _)
    · rw [if_neg hc]
      exact ih _

theorem DiskStep.exists_answer (disk : Disk) (c : DiskCall) :
    ∃ r disk', DiskStep disk c r disk' := by
  cases c with
  | getcwd size => exact ⟨_, _, .getcwd size⟩
  | access path => exact ⟨_, _, .access path⟩
  | mkdir path => exact ⟨_, _, .refused path⟩
  | openRead path => exact ⟨_, _, .openRead path⟩
  | openTrunc path => exact ⟨_, _, .openTrunc path⟩
  | openAppend path => exact ⟨_, _, .openAppend path⟩
  | write f data => exact ⟨_, _, .write f data⟩
  | read f => exact ⟨_, _, .read f⟩

/-- Every program on the disk runs to its end. -/
theorem disk_runs {α : Type} (p : Prog DiskCall DiskAnswer α) (disk : Disk) :
    p.Runs DiskStep disk := .of_answers DiskStep.exists_answer p disk

namespace Disk

@[simp] theorem addDirs_nil (disk : Disk) : disk.addDirs [] = disk := by
  obtain ⟨files, dirs, cwd, hroot, habs, hnul⟩ := disk
  simp only [addDirs, List.append_nil]

theorem addDirs_addDirs (disk : Disk) (ps ps' : List DirPath) :
    (disk.addDirs ps).addDirs ps' = disk.addDirs (ps ++ ps') := by
  simp only [addDirs, List.append_assoc]

theorem resolve_congr (h : disk'.cwd = disk.cwd) : disk'.resolve = disk.resolve := by
  funext path
  rw [resolve, resolve, base, base, h]

theorem there_addDirs : (disk.addDirs ps).There p ↔ disk.There p ∨ p ∈ ps := by
  simp only [There, addDirs, List.mem_append, or_right_comm]

theorem missing_there (h : disk.There p) (ps : List DirPath) :
    disk.missing (p :: ps) = disk.missing ps := if_pos h

theorem missing_not_there (h : ¬ disk.There p) (ps : List DirPath) :
    disk.missing (p :: ps) = p :: (disk.addDirs [p]).missing ps := if_neg h

theorem mem_missing : p ∈ disk.missing ps ↔ p ∈ ps ∧ ¬ disk.There p := by
  induction ps generalizing disk with
  | nil => simp [missing]
  | cons q ps ih =>
    by_cases hq : disk.There q
    · rw [missing_there hq, ih, List.mem_cons]
      refine and_congr_left fun hp => (or_iff_right ?_).symm
      rintro rfl
      exact hp hq
    · rw [missing_not_there hq, List.mem_cons, ih, there_addDirs, List.mem_singleton,
        List.mem_cons]
      by_cases hpq : p = q
      · simp [hpq, hq]
      · simp [hpq]

/-- Where every path of a list goes on from the one before it, the missing ones grow longer. -/
theorem missing_pairwise (h : ps.Pairwise (· <+: ·)) :
    (disk.missing ps).Pairwise (·.length < ·.length) := by
  induction ps generalizing disk with
  | nil => exact List.Pairwise.nil
  | cons q ps ih =>
    rw [List.pairwise_cons] at h
    by_cases hq : disk.There q
    · rw [missing_there hq]
      exact ih h.2
    · rw [missing_not_there hq, List.pairwise_cons]
      refine ⟨?_, ih h.2⟩
      intro p hp
      obtain ⟨hmem, hnot⟩ := mem_missing.mp hp
      have hgoesOn := h.1 p hmem
      refine Nat.lt_of_le_of_ne hgoesOn.length_le ?_
      intro hlen
      apply hnot
      rw [there_addDirs, List.mem_singleton]
      exact .inr (hgoesOn.eq_of_length hlen).symm

end Disk

theorem ensureAll_bind {β : Type} (path : List Char) (paths : List (List Char))
    (f : Bool → Prog DiskCall DiskAnswer β) : ensureAll (path :: paths) >>= f = (do
      if (← Prog.call (.access path)).isOk then ensureAll paths >>= f
      else if (← Prog.call (.mkdir path)).isOk then ensureAll paths >>= f
      else f false) := by
  simp only [ensureAll, Prog.call_bind, Prog.ask_bind]
  congr 1
  funext there
  by_cases hthere : there.isOk = true
  · rw [if_pos hthere, if_pos hthere]
  · rw [if_neg hthere, if_neg hthere, Prog.ask_bind]
    congr 1
    funext made
    by_cases hmade : made.isOk = true
    · rw [if_pos hmade, if_pos hmade]
    · rw [if_neg hmade, if_neg hmade]
      rfl

/-- What becomes of a path: it is there, is created or is refused. -/
theorem ensureAll_cons (h : (ensureAll (path :: paths)).Exec DiskStep disk tr ok disk') :
    (disk.There (disk.resolve path) ∧ ∃ tr', tr = (.access path, .ok true) :: tr' ∧
      (ensureAll paths).Exec DiskStep disk tr' ok disk') ∨
    (¬ disk.There (disk.resolve path) ∧ ∃ tr',
      tr = (.access path, .ok false) :: (.mkdir path, .ok true) :: tr' ∧
      (ensureAll paths).Exec DiskStep (disk.addDirs [disk.resolve path]) tr' ok disk') ∨
    (¬ disk.There (disk.resolve path) ∧
      tr = [(.access path, .ok false), (.mkdir path, .ok false)] ∧ ok = false ∧ disk' = disk) := by
  obtain ⟨_, _, tr', rfl, hstep, h⟩ := Prog.exec_call_bind.mp h
  cases hstep
  by_cases hthere : disk.There (disk.resolve path)
  · rw [decide_eq_true hthere] at h ⊢
    exact .inl ⟨hthere, tr', rfl, h⟩
  · rw [decide_eq_false hthere] at h ⊢
    obtain ⟨_, _, tr', rfl, hstep, h⟩ := Prog.exec_call_bind.mp h
    cases hstep with
    | made => exact .inr (.inl ⟨hthere, tr', rfl, h⟩)
    | refused =>
      obtain ⟨rfl, rfl, rfl⟩ := h
      exact .inr (.inr ⟨hthere, rfl, rfl, rfl⟩)

@[simp] theorem mkdirs_access (b : Bool) :
    mkdirs disk ((.access path, .ok b) :: tr) = mkdirs disk tr := rfl

@[simp] theorem mkdirs_mkdir (b : Bool) :
    mkdirs disk ((.mkdir path, .ok b) :: tr) = (disk.resolve path, b) :: mkdirs disk tr := rfl

/-- Each directory is asked for when its turn has come: the missing ones one after the other, all of
them without a refusal, and otherwise up to the one that is refused. -/
theorem ensureAll_exec (h : (ensureAll paths).Exec DiskStep disk tr ok disk') :
    ∃ made, disk' = disk.addDirs made ∧
      (ok = true → made = disk.missing (paths.map disk.resolve) ∧
        mkdirs disk tr = made.map (·, true)) ∧
      (ok = false → ∃ next, made ++ [next] <+: disk.missing (paths.map disk.resolve) ∧
        mkdirs disk tr = made.map (·, true) ++ [(next, false)]) ∧
      (ok = true ↔ ∀ path, (.mkdir path, .ok false) ∉ tr) := by
  induction paths generalizing disk tr with
  | nil =>
    obtain ⟨rfl, rfl, rfl⟩ := h
    exact ⟨[], (disk'.addDirs_nil).symm, fun _ => ⟨rfl, rfl⟩, by simp, by simp⟩
  | cons path paths ih =>
    rw [List.map_cons]
    rcases ensureAll_cons h with ⟨hthere, tr', rfl, hrest⟩ | ⟨hnot, tr', rfl, hrest⟩ |
      ⟨hnot, rfl, rfl, rfl⟩
    · obtain ⟨made, hdisk, hall, hrefused, hok⟩ := ih hrest
      rw [Disk.missing_there hthere]
      exact ⟨made, hdisk, hall, hrefused, by simpa using hok⟩
    · obtain ⟨made, hdisk, hall, hrefused, hok⟩ := ih hrest
      rw [Disk.missing_not_there hnot, mkdirs_access, mkdirs_mkdir]
      refine ⟨disk.resolve path :: made, ?_, fun htrue => ?_, fun hfalse => ?_,
        by simpa using hok⟩
      · rw [hdisk, Disk.addDirs_addDirs]
        rfl
      · obtain ⟨hmade, htr⟩ := hall htrue
        exact ⟨congrArg _ hmade, congrArg _ htr⟩
      · obtain ⟨next, hgoesOn, htr⟩ := hrefused hfalse
        exact ⟨next, List.cons_prefix_cons.mpr ⟨rfl, hgoesOn⟩, congrArg _ htr⟩
    · rw [Disk.missing_not_there hnot]
      refine ⟨[], (disk'.addDirs_nil).symm, by simp, fun _ => ?_, by simp⟩
      exact ⟨disk'.resolve path, List.cons_prefix_cons.mpr ⟨rfl, List.nil_prefix⟩, rfl⟩

/-- Where nothing is missing, nothing is created. -/
theorem ensureAll_exec_there (hthere : ∀ path ∈ paths, disk.There (disk.resolve path))
    (h : (ensureAll paths).Exec DiskStep disk tr ok disk') :
    ok = true ∧ disk' = disk ∧ ∀ path r, (.mkdir path, r) ∉ tr := by
  induction paths generalizing tr with
  | nil =>
    obtain ⟨rfl, rfl, rfl⟩ := h
    simp
  | cons path paths ih =>
    rw [List.forall_mem_cons] at hthere
    rcases ensureAll_cons h with ⟨-, tr', rfl, hrest⟩ | ⟨hnot, -⟩ | ⟨hnot, -⟩
    · obtain ⟨hok, hdisk, htr⟩ := ih hthere.2 hrest
      exact ⟨hok, hdisk, by simpa using htr⟩
    · exact absurd hthere.1 hnot
    · exact absurd hthere.1 hnot

end NativeLib.Files
