import NativeLib.Files.Directories
import NativeLib.Utils.StreamReaders

/-! `utils/fileUtils.cpp`: `makeDir`. The path is put together in a buffer of 128 bytes, cut at
each slash for a moment and restored. -/

namespace NativeLib.Utils

open Files Interaction
open Tracer (NUL cStr text text_append)

/-- Store from a place on; outside the buffer there is no result. -/
def storeAt (buf : List Char) (start : ℕ) (s : List Char) : Option (List Char) :=
  if start + s.length ≤ buf.length then some (buf.take start ++ overwrite (buf.drop start) s)
  else none

def strcpy (buf s : List Char) : Option (List Char) := storeAt buf 0 (cStr s)

def strcat (buf s : List Char) : Option (List Char) := storeAt buf (text buf).length (cStr s)

/-- `if (path[pathLen] != '/') strcat(currentPath, "/");`. -/
def appendSlash (currentPath path : List Char) : Option (List Char) :=
  if (cStr path)[path.length]? ≠ some '/' then strcat currentPath ['/'] else some currentPath

/-- A relative path behind what `getcwd` answers, and where the comparison begins. Where
`getcwd` fails, the buffer is empty. -/
def relativePath (cwd : Option (List Char)) (path : List Char) : Option (List Char × ℕ) := do
  let currentPath := List.replicate 128 NUL
  let currentPath ← cwd.elim (some currentPath) (strcpy currentPath)
  let currentPath ← strcat currentPath ['/']
  let beginCmpPath := (text currentPath).length
  let currentPath ← strcat currentPath path
  let currentPath ← appendSlash currentPath path
  some (currentPath, beginCmpPath)

/-- An absolute path. -/
def absolutePath (path : List Char) : Option (List Char × ℕ) := do
  let currentPath ← strcpy (List.replicate 128 NUL) path
  let currentPath ← appendSlash currentPath path
  some (currentPath, 1)

/-- The loop of `makeDir`, from `i` on. -/
def makeDirLoop : List Char → ℕ → ℕ → Prog DiskCall DiskAnswer (Option ℤ)
  | _, _, 0 => pure (some 0)
  | currentPath, i, n + 1 =>
    if currentPath[i]? = some '/' then
      match storeAt currentPath i [NUL] with
      | none => pure none
      | some cut =>
        let goOn := match storeAt cut i ['/'] with
          | none => pure none
          | some currentPath => makeDirLoop currentPath (i + 1) n
        do
        if (← Prog.call (.access (text cut))).isOk then goOn
        else if (← Prog.call (.mkdir (text cut))).isOk then goOn
        else pure (some (-1))
    else makeDirLoop currentPath (i + 1) n

/-- The loop, if the path has been put together. -/
def makeDirs : Option (List Char × ℕ) → Prog DiskCall DiskAnswer (Option ℤ)
  | none => pure none
  | some (currentPath, beginCmpPath) =>
    makeDirLoop currentPath beginCmpPath ((text currentPath).length - beginCmpPath)

/-- `fileUtils::makeDir`, `none` if it stores outside the buffer. -/
def makeDir (path : List Char) : Prog DiskCall DiskAnswer (Option ℤ) :=
  if path.head? ≠ some '/' then do
    let cwd ← Prog.call (.getcwd 128)
    makeDirs (relativePath cwd.string path)
  else makeDirs (absolutePath path)

/-- The path with what is put around it fits the buffer. -/
def PathFits (cwd path : List Char) : Prop :=
  if path.head? = some '/' then path.length + 2 ≤ 128
  else (if cwd.length + 1 ≤ 128 then cwd.length else 0) + path.length + 3 ≤ 128

/-- So does the path with the working directory before it. -/
def WholeFits (cwd path : List Char) : Prop :=
  if path.head? = some '/' then path.length + 2 ≤ 128 else cwd.length + path.length + 3 ≤ 128

instance (cwd path : List Char) : Decidable (WholeFits cwd path) :=
  inferInstanceAs (Decidable (ite _ _ _))

/-- The paths named by `path` and by its prefixes that end at a slash. -/
def Along (disk : Disk) (path : List Char) (p : DirPath) : Prop :=
  ∃ s, s ++ ['/'] <+: path ++ ['/'] ∧ p = disk.base path ++ components s

/-- What a run of `makeDir` does: it asks for the missing directories and no others, from the
shortest on, until all are created or the next one of them is refused, and nothing else changes. -/
structure MakesMissing (path : List Char) (disk : Disk) (tr : Trace DiskCall DiskAnswer)
    (r : Option ℤ) (disk' : Disk) : Prop where
  result : r = some 0 ∨ r = some (-1)
  zero_iff : r = some 0 ↔ ∀ path, (.mkdir path, .ok false) ∉ tr
  created : ∃ missing made, (∀ p, p ∈ missing ↔ Along disk path p ∧ ¬ disk.There p) ∧
    missing.Pairwise (·.length < ·.length) ∧ made <+: missing ∧ disk' = disk.addDirs made ∧
      (r = some 0 → made = missing ∧ mkdirs disk tr = made.map (·, true)) ∧
      (r = some (-1) → ∃ next, made ++ [next] <+: missing ∧
        mkdirs disk tr = made.map (·, true) ++ [(next, false)])
  there : r = some 0 → ∀ p, Along disk path p → disk'.There p
  again : r = some 0 → ∀ tr' r' disk'', (makeDir path).Exec DiskStep disk' tr' r' disk'' →
    r' = some 0 ∧ disk'' = disk' ∧ ∀ path r, (.mkdir path, r) ∉ tr'

instance (cwd path : List Char) : Decidable (PathFits cwd path) :=
  inferInstanceAs (Decidable (ite _ _ _))

/-- The directories that `makeDir` looks at, as they stand in the buffer. -/
def checked (cwd path : List Char) : List (List Char) :=
  if path.head? = some '/' then cuts ['/'] (path.tail ++ ['/'])
  else cuts ((if cwd.length + 1 ≤ 128 then cwd else []) ++ ['/']) (path ++ ['/'])

/-- What `makeDir` comes down to: the directories one after the other, if the path fits. -/
def makeChecked (cwd path : List Char) : Prog DiskCall DiskAnswer (Option ℤ) :=
  if PathFits cwd path then
    ensureAll (checked cwd path) >>= fun ok => pure (some (if ok then 0 else -1))
  else pure none

/-- What `makeDir` asks before. -/
def asked (cwd path : List Char) : Trace DiskCall DiskAnswer :=
  if path.head? = some '/' then []
  else [(.getcwd 128, .name (if cwd.length + 1 ≤ 128 then some cwd else none))]

variable {s s' buf path cwd done rest : List Char} {size : ℕ} {disk disk' : Disk}
  {tr : Trace DiskCall DiskAnswer} {r : Option ℤ}

theorem storeAt_append (s s' buf : List Char) : storeAt (s ++ buf) s.length s' =
    if s'.length ≤ buf.length then some (s ++ overwrite buf s') else none := by
  rw [storeAt, List.take_left, List.drop_left, List.length_append]
  exact if_congr (Nat.add_le_add_iff_left) rfl rfl

theorem strcat_filled (hs : NUL ∉ s) (hlen : s.length < size) (s' : List Char) :
    strcat (filled size s) s' =
      if s.length + s'.length + 1 ≤ size then some (filled size (s ++ s')) else none := by
  have hiff : (cStr s').length ≤ (List.replicate (size - s.length) NUL).length ↔
      s.length + s'.length + 1 ≤ size := by
    rw [cStr, List.length_append, List.length_singleton, List.length_replicate]
    omega
  rw [strcat, text_filled hs hlen, filled, storeAt_append]
  by_cases hfit : s.length + s'.length + 1 ≤ size
  · have hpad : size - (s ++ s').length = size - s.length - (s' ++ [NUL]).length + 1 := by
      rw [List.length_append, List.length_append, List.length_singleton]
      omega
    rw [if_pos (hiff.mpr hfit), if_pos hfit, overwrite, cStr, List.drop_replicate, filled, hpad,
      List.replicate_succ, List.append_assoc, List.append_assoc]
    rfl
  · rw [if_neg fun h => hfit (hiff.mp h), if_neg hfit]

theorem strcpy_zeros (hsize : 0 < size) (s : List Char) :
    strcpy (List.replicate size NUL) s =
      if s.length + 1 ≤ size then some (filled size s) else none := by
  have h := strcat_filled List.not_mem_nil hsize s
  rw [List.length_nil, Nat.zero_add, List.nil_append, strcat,
    text_filled List.not_mem_nil hsize] at h
  exact h

theorem appendSlash_eq (currentPath path : List Char) :
    appendSlash currentPath path = strcat currentPath ['/'] := by
  rw [appendSlash, if_pos]
  simp [cStr, NUL]

/-- The loop asks for what stands before each slash. -/
theorem makeDirLoop_eq (hnul : NUL ∉ done ++ rest) (hlen : (done ++ rest).length < 128) :
    makeDirLoop (filled 128 (done ++ rest)) done.length rest.length =
      ensureAll (cuts done rest) >>= fun ok => pure (some (if ok then 0 else -1)) := by
  -- `done` is what stands before `i`, `rest` what the loop has still to look at
  induction rest generalizing done with
  | nil => rfl
  | cons c rest ih =>
    have hnext : done ++ c :: rest = done ++ [c] ++ rest := by simp
    have hih := @ih (done ++ [c]) (by rwa [← hnext]) (by rwa [← hnext])
    rw [← hnext, List.length_append, List.length_singleton] at hih
    have hget : (filled 128 (done ++ c :: rest))[done.length]? = some c := by simp [filled]
    rw [List.length_cons, makeDirLoop, hget, cuts]
    by_cases hc : c = '/'
    · subst hc
      -- while the buffer is cut, it holds `done`; then it is what it was
      have hcut : storeAt (filled 128 (done ++ '/' :: rest)) done.length [NUL] =
          some (done ++
            NUL :: (rest ++ List.replicate (128 - (done ++ '/' :: rest).length) NUL)) := by
        rw [filled, List.append_assoc, List.cons_append, storeAt_append]
        rfl
      have hrestore : storeAt (done ++ NUL :: (rest ++
          List.replicate (128 - (done ++ '/' :: rest).length) NUL)) done.length ['/'] =
            some (filled 128 (done ++ '/' :: rest)) := by
        rw [filled, List.append_assoc, List.cons_append, storeAt_append]
        rfl
      have hdone : NUL ∉ done := fun h => hnul (List.mem_append_left _ h)
      rw [if_pos rfl, if_pos rfl, hcut]
      dsimp only
      rw [hrestore, text_append hdone]
      dsimp only
      rw [hih, ensureAll_bind]
      rfl
    · rw [if_neg (fun h => hc (Option.some_inj.mp h)), if_neg hc, hih]

theorem makeDirs_eq (hnul : NUL ∉ done ++ rest) (hlen : (done ++ rest).length < 128) :
    makeDirs (some (filled 128 (done ++ rest), done.length)) =
      ensureAll (cuts done rest) >>= fun ok => pure (some (if ok then 0 else -1)) := by
  rw [makeDirs, text_filled hnul hlen, List.length_append, Nat.add_sub_cancel_left]
  exact makeDirLoop_eq hnul hlen

theorem absolutePath_eq (hpath : NUL ∉ path) : absolutePath path =
    if path.length + 2 ≤ 128 then some (filled 128 (path ++ ['/']), 1) else none := by
  rw [absolutePath, strcpy_zeros (by decide)]
  by_cases hfit : path.length + 1 ≤ 128
  · rw [if_pos hfit, Option.bind_eq_bind, Option.bind_some, appendSlash_eq,
      strcat_filled hpath hfit, List.length_singleton]
    split <;> rfl
  · rw [if_neg hfit, if_neg (by omega)]
    rfl

/-- What `getcwd` leaves in the buffer. -/
theorem relativePath_start (cwd : Option (List Char)) (hcwd : ∀ s ∈ cwd, s.length + 1 ≤ 128) :
    cwd.elim (some (List.replicate 128 NUL)) (strcpy (List.replicate 128 NUL)) =
      some (filled 128 (cwd.getD [])) := by
  cases cwd with
  | none => rfl
  | some s => rw [Option.elim_some, strcpy_zeros (by decide), if_pos (hcwd s rfl), Option.getD_some]

theorem relativePath_eq (cwd : Option (List Char)) (hcwd : ∀ s ∈ cwd, s.length + 1 ≤ 128)
    (hnul : NUL ∉ cwd.getD []) (hpath : NUL ∉ path) : relativePath cwd path =
      if (cwd.getD []).length + path.length + 3 ≤ 128 then
        some (filled 128 (cwd.getD [] ++ ['/'] ++ (path ++ ['/'])), (cwd.getD [] ++ ['/']).length)
      else none := by
  have hstart : (cwd.getD []).length < 128 := by
    cases cwd with
    | none => decide
    | some s => exact hcwd s rfl
  rw [relativePath, relativePath_start cwd hcwd]
  generalize cwd.getD [] = start at hnul hstart
  have hslash : NUL ∉ start ++ ['/'] := by
    rw [List.mem_append, not_or]
    exact ⟨hnul, by decide⟩
  have hwhole : NUL ∉ start ++ ['/'] ++ path := by
    rw [List.mem_append, not_or]
    exact ⟨hslash, hpath⟩
  simp only [Option.bind_eq_bind, Option.bind_some, strcat_filled hnul hstart,
    List.length_singleton]
  by_cases hfirst : start.length + 1 + 1 ≤ 128
  · have hlen : (start ++ ['/']).length < 128 := by
      rw [List.length_append, List.length_singleton]
      exact hfirst
    rw [if_pos hfirst, Option.bind_some, text_filled hslash hlen, strcat_filled hslash hlen]
    by_cases hsecond : (start ++ ['/']).length + path.length + 1 ≤ 128
    · have hlen' : (start ++ ['/'] ++ path).length < 128 := by
        rw [List.length_append]
        exact hsecond
      have hiff : (start ++ ['/'] ++ path).length + ['/'].length + 1 ≤ 128 ↔
          start.length + path.length + 3 ≤ 128 := by
        rw [List.length_append, List.length_append, List.length_singleton]
        omega
      rw [if_pos hsecond, Option.bind_some, appendSlash_eq, strcat_filled hwhole hlen',
        List.append_assoc (start ++ ['/'])]
      by_cases hfit : start.length + path.length + 3 ≤ 128
      · rw [if_pos (hiff.mpr hfit), if_pos hfit]
        rfl
      · rw [if_neg fun h => hfit (hiff.mp h), if_neg hfit]
        rfl
    · rw [List.length_append, List.length_singleton] at hsecond
      rw [if_neg (by rw [List.length_append, List.length_singleton]; exact hsecond),
        if_neg (by omega)]
      rfl
  · rw [if_neg hfirst, if_neg (by omega)]
    rfl

theorem pathFits_absolute (habs : path.head? = some '/') :
    PathFits cwd path ↔ path.length + 2 ≤ 128 := by
  rw [PathFits, if_pos habs]

theorem pathFits_relative (hrel : path.head? ≠ some '/') : PathFits cwd path ↔
    ((if cwd.length + 1 ≤ 128 then some cwd else none).getD []).length + path.length + 3 ≤ 128 := by
  rw [PathFits, if_neg hrel]
  split <;> rfl

theorem nul_notMem_slash (h : NUL ∉ s) : NUL ∉ s ++ ['/'] := by
  rw [List.mem_append, not_or]
  exact ⟨h, by decide⟩

theorem makeDirs_absolutePath (hpath : NUL ∉ path) (habs : path.head? = some '/')
    (cwd : List Char) : makeDirs (absolutePath path) = makeChecked cwd path := by
  rw [absolutePath_eq hpath, makeChecked, checked, if_pos habs]
  by_cases hfit : path.length + 2 ≤ 128
  · have hsplit : path ++ ['/'] = ['/'] ++ (path.tail ++ ['/']) := by
      rw [← List.append_assoc, List.singleton_append, List.cons_head?_tail habs]
    rw [if_pos hfit, if_pos ((pathFits_absolute habs).mpr hfit), hsplit]
    refine makeDirs_eq ?_ ?_
    · rw [← hsplit]
      exact nul_notMem_slash hpath
    · rw [← hsplit, List.length_append]
      exact hfit
  · rw [if_neg hfit, if_neg fun h => hfit ((pathFits_absolute habs).mp h)]
    rfl

theorem makeDirs_relativePath (hpath : NUL ∉ path) (hcwd : NUL ∉ cwd)
    (hrel : path.head? ≠ some '/') :
    makeDirs (relativePath (if cwd.length + 1 ≤ 128 then some cwd else none) path) =
      makeChecked cwd path := by
  have hanswer : ∀ s ∈ (if cwd.length + 1 ≤ 128 then some cwd else none : Option (List Char)),
      s.length + 1 ≤ 128 := by
    intro s hs
    split at hs
    · next hlen => rwa [← Option.some_inj.mp hs]
    · exact absurd hs (Option.not_mem_none s)
  have hstart : (if cwd.length + 1 ≤ 128 then cwd else []) =
      (if cwd.length + 1 ≤ 128 then some cwd else none).getD [] := by
    split <;> rfl
  have hnul : NUL ∉ (if cwd.length + 1 ≤ 128 then some cwd else none).getD [] := by
    split
    · exact hcwd
    · exact List.not_mem_nil
  rw [relativePath_eq _ hanswer hnul hpath, makeChecked, checked, if_neg hrel, hstart]
  by_cases hfit : PathFits cwd path
  · have hlen := (pathFits_relative hrel).mp hfit
    rw [if_pos hfit, if_pos hlen]
    refine makeDirs_eq ?_ ?_
    · rw [← List.append_assoc]
      refine nul_notMem_slash ?_
      rw [List.mem_append, not_or]
      exact ⟨nul_notMem_slash hnul, hpath⟩
    · simp only [List.length_append, List.length_singleton]
      omega
  · rw [if_neg hfit, if_neg fun h => hfit ((pathFits_relative hrel).mpr h)]
    rfl

/-- The buffer apart, `makeDir` is `makeChecked`. -/
theorem makeDir_exec_iff (hpath : NUL ∉ path) :
    (makeDir path).Exec DiskStep disk tr r disk' ↔
      ∃ tr', tr = asked disk.cwd path ++ tr' ∧
        (makeChecked disk.cwd path).Exec DiskStep disk tr' r disk' := by
  rw [makeDir, asked]
  by_cases habs : path.head? = some '/'
  · rw [if_neg (not_not.mpr habs), if_pos habs, makeDirs_absolutePath hpath habs disk.cwd]
    simp
  · have hrel := makeDirs_relativePath hpath disk.nul_notMem_cwd habs
    rw [if_pos habs, if_neg habs, Prog.exec_call_bind]
    constructor
    · intro h
      obtain ⟨_, _, tr', rfl, hstep, h⟩ := h
      cases hstep
      rw [DiskAnswer.string, hrel] at h
      exact ⟨tr', rfl, h⟩
    · intro h
      obtain ⟨tr', rfl, h⟩ := h
      refine ⟨_, _, tr', rfl, .getcwd 128, ?_⟩
      rwa [DiskAnswer.string, hrel]

/-- Where the path does not fit, every run stores outside the buffer. -/
theorem makeDir_exec_not_fits (hpath : NUL ∉ path) (hfits : ¬ PathFits disk.cwd path)
    (h : (makeDir path).Exec DiskStep disk tr r disk') : r = none := by
  obtain ⟨_, _, hchecked⟩ := (makeDir_exec_iff hpath).mp h
  rw [makeChecked, if_neg hfits] at hchecked
  exact hchecked.2.1

/-- Where it fits, a run visits one directory after the other. -/
theorem makeDir_exec_fits (hpath : NUL ∉ path) (hfits : PathFits disk.cwd path) :
    (makeDir path).Exec DiskStep disk tr r disk' ↔
      ∃ tr' ok, tr = asked disk.cwd path ++ tr' ∧ r = some (if ok then 0 else -1) ∧
        (ensureAll (checked disk.cwd path)).Exec DiskStep disk tr' ok disk' := by
  rw [makeDir_exec_iff hpath, makeChecked, if_pos hfits]
  constructor
  · intro h
    obtain ⟨_, rfl, h⟩ := h
    obtain ⟨ok, _, tr', _, rfl, h, rfl, rfl, rfl⟩ := Prog.exec_bind.mp h
    exact ⟨tr', ok, by rw [List.append_nil], rfl, h⟩
  · intro h
    obtain ⟨tr', ok, rfl, rfl, h⟩ := h
    refine ⟨tr', rfl, Prog.exec_bind.mpr ⟨ok, disk', tr', [], ?_, h, rfl, rfl, rfl⟩⟩
    exact (List.append_nil tr').symm

theorem makeDir_leaves (hpath : NUL ∉ path) (hfits : ¬ PathFits disk.cwd path) :
    ¬ ∀ tr r disk', (makeDir path).Exec DiskStep disk tr r disk' → r ≠ none := by
  intro h
  obtain ⟨tr, r, disk', hrun⟩ := disk_runs (makeDir path) disk
  exact h tr r disk' hrun (makeDir_exec_not_fits hpath hfits hrun)

/-- Every store is inside the buffer exactly if the path fits. -/
theorem makeDir_inside_iff (hpath : NUL ∉ path) (disk : Disk) :
    (∀ tr r disk', (makeDir path).Exec DiskStep disk tr r disk' → r ≠ none) ↔
      PathFits disk.cwd path := by
  by_cases hfits : PathFits disk.cwd path
  · refine iff_of_true ?_ hfits
    intro tr r disk' h
    obtain ⟨_, _, -, rfl, -⟩ := (makeDir_exec_fits hpath hfits).mp h
    exact Option.some_ne_none _
  · exact iff_of_false (makeDir_leaves hpath hfits) hfits

/-- The root and nothing else. -/
def bareDisk : Disk where
  files := ⟨fun _ => none, fun _ => [], fun _ => true, fun _ => true, 0, 100, by simp⟩
  dirs := [[]]
  cwd := ['/']
  root_mem := List.mem_singleton_self _
  cwd_abs := rfl
  nul_notMem_cwd := by decide

theorem makeDir_inside_iff_short :
    (∀ tr r disk', (makeDir ['a', '/', 'b']).Exec DiskStep bareDisk tr r disk' → r ≠ none) ↔
      PathFits bareDisk.cwd ['a', '/', 'b'] :=
  makeDir_inside_iff (by decide) bareDisk

/-- A slash and 126 letters. -/
theorem makeDir_overflows : ¬ ∀ (path : List Char) (disk : Disk), NUL ∉ path →
    ∀ tr r disk', (makeDir path).Exec DiskStep disk tr r disk' → r ≠ none := by
  intro h
  have hnul : NUL ∉ '/' :: List.replicate 126 'a' := by
    rw [List.mem_cons, not_or]
    exact ⟨by decide, fun hmem => absurd (List.eq_of_mem_replicate hmem) (by decide)⟩
  have hfits : ¬ PathFits bareDisk.cwd ('/' :: List.replicate 126 'a') := by
    rw [pathFits_absolute List.head?_cons, List.length_cons, List.length_replicate]
    decide
  exact makeDir_leaves hnul hfits (h _ bareDisk hnul)

theorem WholeFits.pathFits (h : WholeFits cwd path) : PathFits cwd path := by
  rw [WholeFits] at h
  rw [PathFits]
  split_ifs at h ⊢ <;> omega

theorem resolve_absolute (disk : Disk) (hs : s.head? = some '/') :
    disk.resolve s = components s := by
  rw [Disk.resolve, Disk.base, if_pos hs, List.nil_append]

/-- The directories that are looked at are those along the path; the root is there anyway. -/
theorem along_iff (hfits : WholeFits disk.cwd path) {p : DirPath} :
    Along disk path p ↔ p ∈ (checked disk.cwd path).map disk.resolve ∨
      path.head? = some '/' ∧ p = [] := by
  rw [WholeFits] at hfits
  rw [Along, checked, Disk.base]
  simp only [List.mem_map]
  by_cases habs : path.head? = some '/'
  · have hsplit : path ++ ['/'] = '/' :: (path.tail ++ ['/']) := by
      rw [← List.cons_append, List.cons_head?_tail habs]
    rw [if_pos habs, if_pos habs, hsplit]
    constructor
    · intro h
      obtain ⟨s, hs, rfl⟩ := h
      cases s with
      | nil => exact .inr ⟨habs, rfl⟩
      | cons c s =>
        obtain ⟨rfl, hrest⟩ := List.cons_prefix_cons.mp hs
        exact .inl ⟨'/' :: s, mem_cuts.mpr ⟨s, rfl, hrest⟩, resolve_absolute disk List.head?_cons⟩
    · intro h
      rcases h with ⟨a, ha, rfl⟩ | ⟨-, rfl⟩
      · obtain ⟨s, rfl, hs⟩ := mem_cuts.mp ha
        exact ⟨'/' :: s, List.cons_prefix_cons.mpr ⟨rfl, hs⟩,
          resolve_absolute disk List.head?_cons⟩
      · exact ⟨[], List.cons_prefix_cons.mpr ⟨rfl, List.nil_prefix⟩, rfl⟩
  · have hresolve : ∀ s, disk.resolve (disk.cwd ++ ['/'] ++ s) =
        components disk.cwd ++ components s := by
      intro s
      have hhead : (disk.cwd ++ ['/'] ++ s).head? = some '/' := by
        rw [List.append_assoc, List.head?_append, disk.cwd_abs]
        rfl
      rw [resolve_absolute disk hhead, List.append_assoc]
      exact components_slash _ _
    rw [if_neg habs] at hfits
    rw [if_neg habs, if_neg habs, if_pos (by omega : disk.cwd.length + 1 ≤ 128)]
    simp only [habs, false_and, or_false]
    constructor
    · intro h
      obtain ⟨s, hs, rfl⟩ := h
      exact ⟨_, mem_cuts.mpr ⟨s, rfl, hs⟩, hresolve s⟩
    · intro h
      obtain ⟨a, ha, rfl⟩ := h
      obtain ⟨s, rfl, hs⟩ := mem_cuts.mp ha
      exact ⟨s, hs, hresolve s⟩

theorem notMem_asked (cwd path : List Char) (s : List Char) (r : DiskAnswer) :
    (.mkdir s, r) ∉ asked cwd path := by
  rw [asked]
  split <;> simp

theorem mkdirs_asked (disk : Disk) (cwd path : List Char) (tr : Trace DiskCall DiskAnswer) :
    mkdirs disk (asked cwd path ++ tr) = mkdirs disk tr := by
  rw [asked]
  split <;> rfl

theorem checked_cuts (disk : Disk) (path : List Char) :
    ∃ start rest, start.head? = some '/' ∧ checked disk.cwd path = cuts start rest := by
  rw [checked]
  by_cases habs : path.head? = some '/'
  · rw [if_pos habs]
    exact ⟨['/'], _, rfl, rfl⟩
  · rw [if_neg habs]
    refine ⟨_, _, ?_, rfl⟩
    split
    · rw [List.head?_append, disk.cwd_abs]
      rfl
    · rfl

theorem checked_pairwise (disk : Disk) (path : List Char) :
    ((checked disk.cwd path).map disk.resolve).Pairwise (· <+: ·) := by
  obtain ⟨start, rest, hstart, heq⟩ := checked_cuts disk path
  have hresolve : ∀ s ∈ cuts start rest, disk.resolve s = components s := by
    intro s hs
    obtain ⟨s', rfl, -⟩ := mem_cuts.mp hs
    refine resolve_absolute disk ?_
    rw [List.head?_append, hstart]
    rfl
  rw [heq, List.map_congr_left hresolve, List.pairwise_map]
  exact cuts_pairwise start rest

theorem makeDir_makes_missing (hpath : NUL ∉ path) (hfits : WholeFits disk.cwd path) :
    (makeDir path).Runs DiskStep disk ∧ ∀ tr r disk',
      (makeDir path).Exec DiskStep disk tr r disk' → MakesMissing path disk tr r disk' := by
  refine ⟨disk_runs (makeDir path) disk, ?_⟩
  intro tr r disk' h
  obtain ⟨tr', ok, rfl, rfl, hrun⟩ := (makeDir_exec_fits hpath hfits.pathFits).mp h
  obtain ⟨made, rfl, hall, hrefused, hok⟩ := ensureAll_exec hrun
  have hzero : (some (if ok = true then 0 else -1) : Option ℤ) = some 0 ↔ ok = true := by
    cases ok <;> simp
  have hminus : (some (if ok = true then 0 else -1) : Option ℤ) = some (-1) ↔ ok = false := by
    cases ok <;> simp
  have hinitial : made <+: disk.missing ((checked disk.cwd path).map disk.resolve) := by
    cases ok with
    | true => rw [(hall rfl).1]
    | false =>
      obtain ⟨next, hgoesOn, -⟩ := hrefused rfl
      exact (List.prefix_append made [next]).trans hgoesOn
  have hmissing : ∀ p, p ∈ disk.missing ((checked disk.cwd path).map disk.resolve) ↔
      Along disk path p ∧ ¬ disk.There p := by
    intro p
    rw [Disk.mem_missing, along_iff hfits]
    refine and_congr_left fun hnot => (or_iff_left ?_).symm
    rintro ⟨-, rfl⟩
    exact hnot (.inl disk.root_mem)
  have hthere : ok = true → ∀ p, Along disk path p → (disk.addDirs made).There p := by
    intro htrue p hp
    rw [Disk.there_addDirs, (hall htrue).1, hmissing]
    by_cases h : disk.There p
    · exact .inl h
    · exact .inr ⟨hp, h⟩
  refine ⟨?_, ?_, ⟨_, made, hmissing, Disk.missing_pairwise (checked_pairwise disk path), hinitial,
    rfl, ?_, ?_⟩, fun h => hthere (hzero.mp h), ?_⟩
  · cases ok
    · exact .inr rfl
    · exact .inl rfl
  · rw [hzero, hok]
    refine forall_congr' fun s => ?_
    rw [List.mem_append, not_or]
    exact (and_iff_right (notMem_asked _ _ s _)).symm
  · rw [mkdirs_asked]
    exact fun h => hall (hzero.mp h)
  · rw [mkdirs_asked]
    exact fun h => hrefused (hminus.mp h)
  · intro h tr₂ r₂ disk₂ hagain
    have hfits₂ : PathFits (disk.addDirs made).cwd path := hfits.pathFits
    obtain ⟨tr₃, ok₂, rfl, rfl, hrun₂⟩ := (makeDir_exec_fits hpath hfits₂).mp hagain
    have hpaths : ∀ s ∈ checked disk.cwd path, (disk.addDirs made).There (disk.resolve s) := by
      intro s hs
      exact hthere (hzero.mp h) _ ((along_iff hfits).mpr (.inl (List.mem_map_of_mem hs)))
    obtain ⟨rfl, rfl, hnone⟩ := ensureAll_exec_there hpaths hrun₂
    refine ⟨rfl, rfl, fun s r => ?_⟩
    rw [List.mem_append, not_or]
    exact ⟨notMem_asked _ _ s r, hnone s r⟩

/-- Doubled slashes, from the root. -/
theorem makeDir_makes_missing_doubled :
    (makeDir "a//b".toList).Runs DiskStep bareDisk ∧ ∀ tr r disk',
      (makeDir "a//b".toList).Exec DiskStep bareDisk tr r disk' →
        MakesMissing "a//b".toList bareDisk tr r disk' :=
  makeDir_makes_missing (by decide) (by decide)

end NativeLib.Utils
