import NativeLib.Utils.MakeDir

/-! `utils/fileUtils.cpp`: `writeText` and `readText(string)`. The writer takes bytes, the reader
takes lines and leaves out what ends them. -/

namespace NativeLib.Utils

open Files Interaction
open Tracer (NUL cStr text nul_notMem_text)

/-- `'\n'`. -/
def NEWLINE : UInt8 := 10

/-- `getline`: the next line, without its end, and what is left. -/
def getline (content : List UInt8) : Option (List UInt8 × List UInt8) :=
  if content = [] then none
  else some (content.takeWhile (· ≠ NEWLINE), (content.dropWhile (· ≠ NEWLINE)).tail)

theorem getline_lt {content lineStr rest : List UInt8}
    (h : getline content = some (lineStr, rest)) : rest.length < content.length := by
  rw [getline] at h
  obtain ⟨hne, heq⟩ := Option.ite_none_left_eq_some.mp h
  obtain ⟨-, rfl⟩ := Prod.mk.inj (Option.some_inj.mp heq)
  have hpos := List.length_pos_iff.mpr hne
  have hdrop := (List.dropWhile_suffix (· ≠ NEWLINE) (l := content)).length_le
  rw [List.length_tail]
  omega

/-- The loop of `readText(string)`. -/
def readLines (content result : List UInt8) : List UInt8 :=
  match h : getline content with
  | none => result
  | some (lineStr, rest) =>
    have := getline_lt h
    readLines rest (result ++ lineStr)
termination_by content.length

/-- `fileUtils::readText(string)`. -/
def readText (file : List Char) : Prog DiskCall DiskAnswer (List UInt8) := do
  let infile ← Prog.call (.openRead (text (cStr file)))
  match infile.handle with
  | none => pure []
  | some f => do
    let content ← Prog.call (.read f)
    pure (readLines content.bytes [])

/-- `makeDir(dirname(path))`. A path without a result of `dirname` is a null pointer. -/
def makeDirname (path : List Char) : Prog DiskCall DiskAnswer (Option ℤ) :=
  match dirname path with
  | none => pure none
  | some dir => makeDir dir

/-- `fileUtils::writeText`, `none` if `makeDir` stores outside its buffer. -/
def writeText (file : List Char) (str : List UInt8) (isAppend : Bool) :
    Prog DiskCall DiskAnswer (Option Unit) := do
  match ← makeDirname (text (cStr file)) with
  | none => pure none
  | some _ =>
    let os ← Prog.call
      (if isAppend then .openAppend (text (cStr file)) else .openTrunc (text (cStr file)))
    match os.handle with
    | none => pure (some ())
    | some f => do
      let _ ← Prog.call (.write f str)
      pure (some ())

/-- A text is written and read, and another one is added and both are read. -/
def writeAndRead (file : List Char) (s t : List UInt8) :
    Prog DiskCall DiskAnswer (Option (List UInt8 × List UInt8)) := do
  match ← writeText file s false with
  | none => pure none
  | some _ =>
    let first ← readText file
    match ← writeText file t true with
    | none => pure none
    | some _ =>
      let second ← readText file
      pure (some (first, second))

/-- `makeDir` gets along with the directory part. -/
def DirFits (cwd path : List Char) : Prop := ∃ dir ∈ dirname path, PathFits cwd dir

/-- The path can be opened for writing, and so many bytes get through. -/
def CanWrite (disk : Disk) (path : List Char) (n : ℕ) : Prop :=
  disk.files.mayWrite (disk.resolve path) = true ∧ n ≤ disk.files.room

variable {disk disk' : Disk} {file path : List Char} {s t content str result : List UInt8}
  {isAppend : Bool} {tr : Trace DiskCall DiskAnswer} {r : Option Unit}

theorem getline_filter {lineStr rest : List UInt8}
    (h : getline content = some (lineStr, rest)) :
    content.filter (· ≠ NEWLINE) = lineStr ++ rest.filter (· ≠ NEWLINE) := by
  rw [getline] at h
  obtain ⟨-, heq⟩ := Option.ite_none_left_eq_some.mp h
  obtain ⟨rfl, rfl⟩ := Prod.mk.inj (Option.some_inj.mp heq)
  have hline : (content.takeWhile (· ≠ NEWLINE)).filter (· ≠ NEWLINE) =
      content.takeWhile (· ≠ NEWLINE) := by
    rw [List.filter_eq_self]
    intro c hc
    exact List.mem_takeWhile_imp (p := fun c => decide (c ≠ NEWLINE)) hc
  have hrest : (content.dropWhile (· ≠ NEWLINE)).filter (· ≠ NEWLINE) =
      (content.dropWhile (· ≠ NEWLINE)).tail.filter (· ≠ NEWLINE) := by
    cases hdrop : content.dropWhile (· ≠ NEWLINE) with
    | nil => rfl
    | cons c rest =>
      have hc := List.head?_dropWhile_not (· ≠ NEWLINE) content
      rw [hdrop, List.head?_cons] at hc
      rw [List.filter_cons, List.tail_cons, if_neg]
      simpa using hc
  calc content.filter (· ≠ NEWLINE)
      = (content.takeWhile (· ≠ NEWLINE) ++ content.dropWhile (· ≠ NEWLINE)).filter
          (· ≠ NEWLINE) := by rw [List.takeWhile_append_dropWhile]
    _ = content.takeWhile (· ≠ NEWLINE) ++
          (content.dropWhile (· ≠ NEWLINE)).tail.filter (· ≠ NEWLINE) := by
      rw [List.filter_append, hline, hrest]

theorem readLines_eq (content result : List UInt8) :
    readLines content result = result ++ content.filter (· ≠ NEWLINE) := by
  induction content, result using readLines.induct with
  | case1 content result h =>
    have hempty : content = [] := by
      rw [getline] at h
      by_contra hne
      rw [if_neg hne] at h
      exact Option.some_ne_none _ h
    rw [readLines, hempty]
    exact (List.append_nil result).symm
  | case2 content result lineStr rest h hlt ih =>
    rw [readLines]
    split
    · next hnone => exact absurd (hnone.symm.trans h) (Option.some_ne_none _).symm
    · next lineStr' rest' hsome =>
      obtain ⟨rfl, rfl⟩ := Prod.mk.inj (Option.some_inj.mp (hsome.symm.trans h))
      rw [ih, getline_filter h, List.append_assoc]

/-- Nothing is lost exactly if no line ends. -/
theorem filter_eq_iff : s.filter (· ≠ NEWLINE) = s ↔ NEWLINE ∉ s := by
  rw [List.filter_eq_self]
  constructor
  · intro h hmem
    exact absurd (h _ hmem) (by decide)
  · intro h c hc
    refine decide_eq_true ?_
    rintro rfl
    exact h hc

theorem nul_notMem_dirname {dir : List Char} (hpath : NUL ∉ path) (h : dir ∈ dirname path) :
    NUL ∉ dir := by
  intro hmem
  rcases mem_of_mem_dirname h hmem with hin | hslash | hdot
  · exact hpath hin
  · exact absurd hslash (by decide)
  · exact absurd hdot (by decide)

/-- Only directories are created on the way. -/
theorem makeDirname_exec {r : Option ℤ} (hpath : NUL ∉ path) (hfits : DirFits disk.cwd path)
    (h : (makeDirname path).Exec DiskStep disk tr r disk') :
    (∃ n, r = some n) ∧ ∃ made, disk' = disk.addDirs made := by
  obtain ⟨dir, hdir, hfits⟩ := hfits
  have hname : dirname path = some dir := hdir
  rw [makeDirname, hname] at h
  obtain ⟨tr', ok, -, rfl, hrun⟩ :=
    (makeDir_exec_fits (nul_notMem_dirname hpath hdir) hfits).mp h
  obtain ⟨made, rfl, -⟩ := ensureAll_exec hrun
  exact ⟨⟨_, rfl⟩, made, rfl⟩

theorem makeDirname_exec_not_fits {r : Option ℤ} (hpath : NUL ∉ path)
    (hfits : ¬ DirFits disk.cwd path)
    (h : (makeDirname path).Exec DiskStep disk tr r disk') : r = none := by
  rw [makeDirname] at h
  cases hdir : dirname path with
  | none =>
    rw [hdir] at h
    exact h.2.1
  | some dir =>
    rw [hdir] at h
    refine makeDir_exec_not_fits (nul_notMem_dirname hpath hdir) ?_ h
    exact fun hdirFits => hfits ⟨dir, hdir, hdirFits⟩

/-- What a text that has been written leaves. -/
structure Written (path : List Char) (str : List UInt8) (isAppend : Bool) (disk disk' : Disk) :
    Prop where
  rights : disk.files.SameRights disk'.files
  cwd : disk'.cwd = disk.cwd
  read : disk'.files.read (disk.resolve path) =
    some ((if isAppend then (disk.files.read (disk.resolve path)).getD [] else []) ++ str)

/-- A file that may be written is opened, with what it keeps. -/
theorem step_openFor {answer : DiskAnswer} (isAppend : Bool)
    (hw : disk.files.mayWrite (disk.resolve path) = true)
    (h : DiskStep disk (if isAppend then .openAppend path else .openTrunc path) answer disk') :
    ∃ f files, answer = .file (some f) ∧ disk' = { disk with files } ∧
      disk.files.SameRights files ∧ files.file (disk.resolve path) = some f ∧
      files.content f =
        if isAppend then (disk.files.read (disk.resolve path)).getD [] else [] := by
  cases isAppend with
  | true =>
    obtain ⟨f, hopen, hfile, hcontent⟩ := FileSystem.openAppend_keeps hw
    cases h
    exact ⟨f, _, by rw [hopen], rfl, FileSystem.sameRights_openAppend _, hfile, hcontent⟩
  | false =>
    obtain ⟨f, hopen, hfile, hcontent⟩ := FileSystem.openWrite_empty hw
    cases h
    exact ⟨f, _, by rw [hopen], rfl, FileSystem.sameRights_openWrite _, hfile, hcontent⟩

theorem writeText_exec (hfits : DirFits disk.cwd (text (cStr file)))
    (hw : CanWrite disk (text (cStr file)) str.length)
    (h : (writeText file str isAppend).Exec DiskStep disk tr r disk') :
    r = some () ∧ Written (text (cStr file)) str isAppend disk disk' := by
  rw [writeText] at h
  generalize hpath : text (cStr file) = path at h hfits hw ⊢
  have hnul : NUL ∉ path := hpath ▸ nul_notMem_text (cStr file)
  obtain ⟨_, _, _, _, -, hdir, h⟩ := Prog.exec_bind.mp h
  obtain ⟨⟨n, rfl⟩, made, rfl⟩ := makeDirname_exec hnul hfits hdir
  obtain ⟨_, _, _, -, hopen, h⟩ := Prog.exec_call_bind.mp h
  have hw' : (disk.addDirs made).files.mayWrite ((disk.addDirs made).resolve path) = true := hw.1
  obtain ⟨f, files, rfl, rfl, hrights, hfile, hcontent⟩ := step_openFor isAppend hw' hopen
  obtain ⟨_, _, _, -, hwrite, h⟩ := Prog.exec_call_bind.mp h
  cases hwrite
  obtain ⟨-, rfl, rfl⟩ := h
  have hroom : str.length ≤ files.room := by
    rw [hrights.room]
    exact hw.2
  refine ⟨rfl, hrights.trans (FileSystem.sameRights_append f _), rfl, ?_⟩
  rw [List.take_of_length_le hroom]
  exact (FileSystem.read_append hfile str).trans (congrArg (fun c => some (c ++ str)) hcontent)

theorem readText_exec {bytes : List UInt8}
    (h : (readText file).Exec DiskStep disk tr bytes disk') : disk' = disk ∧ bytes =
      if disk.files.mayRead (disk.resolve (text (cStr file))) = true then
        (((disk.files.read (disk.resolve (text (cStr file)))).getD []).take
          disk.files.room).filter (· ≠ NEWLINE)
      else [] := by
  obtain ⟨_, _, _, -, hopen, h⟩ := Prog.exec_call_bind.mp h
  generalize text (cStr file) = path at hopen ⊢
  cases hopen
  by_cases hread : disk.files.mayRead (disk.resolve path) = true
  · rw [FileSystem.openRead, if_pos hread, DiskAnswer.handle] at h
    rw [if_pos hread, FileSystem.read]
    cases hfile : disk.files.file (disk.resolve path) with
    | none =>
      rw [hfile] at h
      obtain ⟨-, rfl, rfl⟩ := h
      simp
    | some f =>
      rw [hfile] at h
      obtain ⟨_, _, _, -, hcontent, h⟩ := Prog.exec_call_bind.mp h
      cases hcontent
      obtain ⟨-, rfl, rfl⟩ := h
      exact ⟨rfl, readLines_eq _ _⟩
  · rw [FileSystem.openRead, if_neg hread, DiskAnswer.handle] at h
    rw [if_neg hread]
    exact ⟨h.2.2, h.2.1⟩

/-- What a text that has been written is read as. -/
def readBack (disk : Disk) (path : List Char) (str : List UInt8) : List UInt8 :=
  if disk.files.mayRead (disk.resolve path) = true then str.filter (· ≠ NEWLINE) else []

theorem Written.readText {bytes content : List UInt8} {disk₀ : Disk}
    (h : Written (text (cStr file)) str isAppend disk disk') (hcwd : disk.cwd = disk₀.cwd)
    (hrights : disk₀.files.SameRights disk.files)
    (hcontent : (if isAppend then (disk.files.read (disk.resolve (text (cStr file)))).getD []
      else []) ++ str = content) (hroom : content.length ≤ disk₀.files.room) {disk'' : Disk}
    (hrun : (readText file).Exec DiskStep disk' tr bytes disk'') :
    disk'' = disk' ∧ bytes = readBack disk₀ (text (cStr file)) content := by
  obtain ⟨rfl, rfl⟩ := readText_exec hrun
  have hall := hrights.trans h.rights
  refine ⟨rfl, ?_⟩
  rw [Disk.resolve_congr h.cwd, h.read, hcontent, Option.getD_some, hall.mayRead, hall.room,
    List.take_of_length_le hroom, Disk.resolve_congr hcwd, readBack]

theorem writeAndRead_exec {r : Option (List UInt8 × List UInt8)}
    (hfits : DirFits disk.cwd (text (cStr file)))
    (hw : CanWrite disk (text (cStr file)) (s ++ t).length)
    (h : (writeAndRead file s t).Exec DiskStep disk tr r disk') :
    r = some (readBack disk (text (cStr file)) s, readBack disk (text (cStr file)) (s ++ t)) := by
  have hlen := hw.2
  rw [List.length_append] at hlen
  obtain ⟨_, _, _, _, -, hwrite, h⟩ := Prog.exec_bind.mp h
  obtain ⟨rfl, hs⟩ := writeText_exec hfits ⟨hw.1, by omega⟩ hwrite
  obtain ⟨first, disk₁, _, _, -, hread, h⟩ := Prog.exec_bind.mp h
  obtain ⟨rfl, rfl⟩ := hs.readText rfl ⟨rfl, rfl, rfl⟩ (List.nil_append s) (by omega) hread
  obtain ⟨_, _, _, _, -, hwrite₂, h⟩ := Prog.exec_bind.mp h
  have hw₂ : CanWrite disk₁ (text (cStr file)) t.length := by
    refine ⟨?_, ?_⟩
    · rw [hs.rights.mayWrite, Disk.resolve_congr hs.cwd]
      exact hw.1
    · rw [hs.rights.room]
      omega
  obtain ⟨rfl, ht⟩ := writeText_exec (hs.cwd ▸ hfits) hw₂ hwrite₂
  obtain ⟨second, _, _, _, -, hread₂, h⟩ := Prog.exec_bind.mp h
  have hcontent : (if true = true then (disk₁.files.read (disk₁.resolve (text (cStr file)))).getD []
      else []) ++ t = s ++ t := by
    rw [if_pos rfl, Disk.resolve_congr hs.cwd, hs.read]
    rfl
  obtain ⟨rfl, rfl⟩ := ht.readText hs.cwd hs.rights hcontent hw.2 hread₂
  exact h.2.1

theorem writeAndRead_exec_not_fits {r : Option (List UInt8 × List UInt8)}
    (hfits : ¬ DirFits disk.cwd (text (cStr file)))
    (h : (writeAndRead file s t).Exec DiskStep disk tr r disk') : r = none := by
  obtain ⟨written, _, _, _, -, hwrite, h⟩ := Prog.exec_bind.mp h
  obtain ⟨made, _, _, _, -, hdir, hwrite⟩ := Prog.exec_bind.mp hwrite
  obtain rfl := makeDirname_exec_not_fits (nul_notMem_text (cStr file)) hfits hdir
  obtain ⟨-, rfl, -⟩ := hwrite
  exact h.2.1

theorem readBack_eq_iff (path : List Char) : readBack disk path s = s ↔
    (disk.files.mayRead (disk.resolve path) = true ∧ NEWLINE ∉ s) ∨ s = [] := by
  rw [readBack]
  by_cases hread : disk.files.mayRead (disk.resolve path) = true
  · rw [if_pos hread, filter_eq_iff]
    constructor
    · exact fun h => .inl ⟨hread, h⟩
    · intro h
      rcases h with h | rfl
      · exact h.2
      · exact List.not_mem_nil
  · rw [if_neg hread, eq_comm]
    simp [hread]

theorem writeAndRead_same (hfits : DirFits disk.cwd (text (cStr file)))
    (hw : CanWrite disk (text (cStr file)) (s ++ t).length) :
    (∀ tr r disk', (writeAndRead file s t).Exec DiskStep disk tr r disk' →
      r = some (s, s ++ t)) ↔ readBack disk (text (cStr file)) s = s ∧
        readBack disk (text (cStr file)) (s ++ t) = s ++ t := by
  rw [← Prod.mk.injEq, ← Option.some_inj]
  constructor
  · intro h
    obtain ⟨tr, r, disk', hrun⟩ := disk_runs (writeAndRead file s t) disk
    exact (writeAndRead_exec hfits hw hrun).symm.trans (h tr r disk' hrun)
  · intro h tr r disk' hrun
    rw [writeAndRead_exec hfits hw hrun, h]

theorem writeAndRead_leaves (hfits : ¬ DirFits disk.cwd (text (cStr file))) :
    ¬ ∀ tr r disk', (writeAndRead file s t).Exec DiskStep disk tr r disk' →
      r = some (s, s ++ t) := by
  intro h
  obtain ⟨tr, r, disk', hrun⟩ := disk_runs (writeAndRead file s t) disk
  have hsome := h tr r disk' hrun
  rw [writeAndRead_exec_not_fits hfits hrun] at hsome
  exact Option.some_ne_none _ hsome.symm

/-- What has been written is read again exactly if no line ends in it, the directory part fits
the buffer of `makeDir` and the file may be read, or is empty. -/
theorem writeAndRead_iff (hw : CanWrite disk (text (cStr file)) (s ++ t).length) :
    (∀ tr r disk', (writeAndRead file s t).Exec DiskStep disk tr r disk' →
      r = some (s, s ++ t)) ↔
      DirFits disk.cwd (text (cStr file)) ∧ NEWLINE ∉ s ∧ NEWLINE ∉ t ∧
        (disk.files.mayRead (disk.resolve (text (cStr file))) = true ∨ s = [] ∧ t = []) := by
  by_cases hfits : DirFits disk.cwd (text (cStr file))
  swap
  · exact iff_of_false (writeAndRead_leaves hfits) fun h => hfits h.1
  rw [writeAndRead_same hfits hw, readBack_eq_iff, readBack_eq_iff, List.mem_append, not_or,
    List.append_eq_nil_iff]
  constructor
  · intro h
    rcases h.2 with ⟨hread, hs, ht⟩ | ⟨rfl, rfl⟩
    · exact ⟨hfits, hs, ht, .inl hread⟩
    · exact ⟨hfits, List.not_mem_nil, List.not_mem_nil, .inr ⟨rfl, rfl⟩⟩
  · intro h
    obtain ⟨-, hs, ht, hread | ⟨rfl, rfl⟩⟩ := h
    · exact ⟨.inl ⟨hread, hs⟩, .inl ⟨hread, hs, ht⟩⟩
    · exact ⟨.inr rfl, .inr ⟨rfl, rfl⟩⟩

theorem writeAndRead_iff_letters :
    (∀ tr r disk', (writeAndRead ['/', 'f'] [97] [98]).Exec DiskStep bareDisk tr r disk' →
      r = some ([97], [97, 98])) ↔
      DirFits bareDisk.cwd (text (cStr ['/', 'f'])) ∧ NEWLINE ∉ [97] ∧ NEWLINE ∉ [98] ∧
        (bareDisk.files.mayRead (bareDisk.resolve (text (cStr ['/', 'f']))) = true ∨
          ([97] : List UInt8) = [] ∧ ([98] : List UInt8) = []) := by
  have hw : CanWrite bareDisk (text (cStr ['/', 'f'])) ([97] ++ [98] : List UInt8).length :=
    ⟨rfl, by decide⟩
  exact writeAndRead_iff hw

/-- A text that is an empty line is read as nothing. -/
theorem writeAndRead_loses : ¬ ∀ (disk : Disk) (file : List Char) (s t : List UInt8),
    CanWrite disk (text (cStr file)) (s ++ t).length → ∀ tr r disk',
      (writeAndRead file s t).Exec DiskStep disk tr r disk' → r = some (s, s ++ t) := by
  intro h
  have hw : CanWrite bareDisk (text (cStr ['/', 'f'])) ([NEWLINE] ++ []).length :=
    ⟨rfl, by decide⟩
  have hfits : DirFits bareDisk.cwd (text (cStr ['/', 'f'])) := ⟨['/'], by decide, by decide⟩
  have hsame := (writeAndRead_same hfits hw).mp (h bareDisk ['/', 'f'] [NEWLINE] [] hw)
  exact absurd hsame.1 (by decide)

end NativeLib.Utils
