import NativeLib.ProcMaps.Fgets
import NativeLib.Tracer.MyLibc

/-! `utils/fileUtils.cpp`: the readers of descriptors and streams. They collect what they read
into a buffer as strings, so that what an earlier call left in the buffer counts where the
later one stores no terminator. -/

namespace NativeLib.Utils

open ProcMaps (PATH_MAX)
open Tracer (NUL text text_append)

/-- What is stored at the start of a buffer; what lies behind it stays. -/
def overwrite (buf piece : List Char) : List Char := piece ++ buf.drop piece.length

/-- The loop of `readText(int)`. The calls of `read` store these pieces, and then one of them
finds the end. -/
def readTextFdLoop : List (List Char) → List Char → List Char → List Char
  | [], _, result => result
  | piece :: reads, buf, result =>
    if piece.length > 0 then
      let buf := overwrite buf piece
      readTextFdLoop reads buf (result ++ text buf)
    else result

/-- `fileUtils::readText(int)`. -/
def readTextFd (reads : List (List Char)) : List Char :=
  readTextFdLoop reads (List.replicate PATH_MAX NUL) []

/-- A stream: what is still to come, whether after that a read fails or the end is found, and
the end-of-file flag. -/
structure Stream where
  rest : List Char
  fails : Bool
  eof : Bool
  deriving DecidableEq, Repr

/-- `fgets(buffer, size, f)`: what is stored before the terminator, `none` for a null result. A
line on which a read fails is lost. -/
def Stream.fgets (size : ℕ) (f : Stream) : Option (List Char) × Stream :=
  if f.eof then (none, f)
  else
    let (piece, rest) := ProcMaps.fgets (size - 1) f.rest
    if piece.length = size - 1 ∨ piece.getLast? = some '\n' then (some piece, { f with rest })
    else if f.fails then (none, { f with rest })
    else (if piece = [] then none else some piece, { f with rest, eof := true })

/-- The loop of `readText(FILE *)`. -/
def readTextFileLoop : ℕ → Stream → List Char → List Char → Option (List Char)
  | 0, _, _, _ => none
  | fuel + 1, file, buf, result =>
    match file.fgets PATH_MAX with
    | (none, _) => some result
    | (some piece, file) =>
      let buf := overwrite buf (piece ++ [NUL])
      readTextFileLoop fuel file buf (result ++ text buf)

/-- `fileUtils::readText(FILE *)`, at most `fuel` times round. -/
def readTextFile (fuel : ℕ) (file : Stream) : Option (List Char) :=
  readTextFileLoop fuel file (List.replicate PATH_MAX NUL) []

/-- The loop of `readPopenFile`. -/
def readPopenLoop : ℕ → Stream → List Char → List Char → Option (List Char)
  | 0, _, _, _ => none
  | fuel + 1, pipe, buffer, result =>
    if pipe.eof then some result
    else
      match pipe.fgets 128 with
      | (none, pipe) => readPopenLoop fuel pipe buffer result
      | (some piece, pipe) =>
        let buffer := overwrite buffer (piece ++ [NUL])
        readPopenLoop fuel pipe buffer (result ++ text buffer)

/-- `fileUtils::readPopenFile`, at most `fuel` times round. `buffer` is not initialised. -/
def readPopenFile (fuel : ℕ) (pipe : Option Stream) (buffer : List Char) : Option (List Char) :=
  match pipe with
  | none => some "Error: pipe is null".toList
  | some pipe => readPopenLoop fuel pipe buffer []

variable {s piece content : List Char}

/-- A buffer that holds a string and no more. -/
def filled (size : ℕ) (s : List Char) : List Char := s ++ List.replicate (size - s.length) NUL

/-- What the buffer holds when a piece has been read over a string. -/
def readOver (s piece : List Char) : List Char := piece ++ s.drop piece.length

theorem text_filled {size : ℕ} (hs : NUL ∉ s) (hlen : s.length < size) :
    text (filled size s) = s := by
  obtain ⟨k, hk⟩ := Nat.exists_eq_add_of_lt hlen
  have hpad : size - s.length = k + 1 := by omega
  rw [filled, hpad, List.replicate_succ, text_append hs]

theorem overwrite_filled (hpiece : piece.length ≤ PATH_MAX) :
    overwrite (filled PATH_MAX s) piece = filled PATH_MAX (readOver s piece) := by
  rw [overwrite, filled, filled, readOver, List.drop_append, List.append_assoc,
    List.drop_replicate, List.length_append, List.length_drop]
  congr 3
  omega

theorem length_readOver (s piece : List Char) :
    (readOver s piece).length = max piece.length s.length := by
  rw [readOver, List.length_append, List.length_drop]
  omega

theorem nul_notMem_readOver (hs : NUL ∉ s) (hpiece : NUL ∉ piece) : NUL ∉ readOver s piece := by
  rw [readOver, List.mem_append, not_or]
  exact ⟨hpiece, fun h => hs (List.mem_of_mem_drop h)⟩

/-- What the loop appends: each piece with what the buffer still holds behind it. -/
def appended (s : List Char) : List (List Char) → List Char
  | [] => []
  | piece :: reads => readOver s piece ++ appended (readOver s piece) reads

/-- One way for `read` to deliver a content. -/
structure Splits (content : List Char) (reads : List (List Char)) : Prop where
  flatten : reads.flatten = content
  size : ∀ piece ∈ reads, 0 < piece.length ∧ piece.length ≤ PATH_MAX - 1

theorem readTextFdLoop_eq {reads : List (List Char)} (hreads : ∀ piece ∈ reads, NUL ∉ piece)
    (hsize : ∀ piece ∈ reads, 0 < piece.length ∧ piece.length ≤ PATH_MAX - 1) (hs : NUL ∉ s)
    (hlen : s.length ≤ PATH_MAX - 1) (result : List Char) :
    readTextFdLoop reads (filled PATH_MAX s) result = result ++ appended s reads := by
  have hpos : 0 < PATH_MAX := by decide
  induction reads generalizing s result with
  | nil => exact (List.append_nil result).symm
  | cons piece reads ih =>
    rw [List.forall_mem_cons] at hreads hsize
    have hover := nul_notMem_readOver hs hreads.1
    have hlen' : (readOver s piece).length ≤ PATH_MAX - 1 := by
      rw [length_readOver]
      omega
    rw [readTextFdLoop, if_pos hsize.1.1, overwrite_filled (by omega)]
    dsimp only
    rw [text_filled hover (by omega), ih hreads.2 hsize.2 hover hlen', appended,
      List.append_assoc]

theorem length_flatten_le (reads : List (List Char)) (s : List Char) :
    reads.flatten.length ≤ (appended s reads).length := by
  induction reads generalizing s with
  | nil => exact le_rfl
  | cons piece reads ih =>
    have hrest := ih (readOver s piece)
    rw [List.flatten_cons, appended, List.length_append, List.length_append, length_readOver]
    omega

/-- Nothing is left over from an earlier piece exactly if no later one is shorter. -/
theorem appended_eq_flatten {reads : List (List Char)} :
    appended s reads = reads.flatten ↔
      (∀ piece ∈ reads, s.length ≤ piece.length) ∧
        reads.Pairwise (fun piece later => piece.length ≤ later.length) := by
  induction reads generalizing s with
  | nil => simp [appended]
  | cons piece reads ih =>
    rw [appended, List.flatten_cons, List.forall_mem_cons, List.pairwise_cons]
    by_cases hle : s.length ≤ piece.length
    · have hover : readOver s piece = piece := by
        rw [readOver, List.drop_eq_nil_of_le hle, List.append_nil]
      rw [hover, List.append_cancel_left_eq, ih]
      refine ⟨fun h => ⟨⟨hle, fun later hlater => hle.trans (h.1 later hlater)⟩, h⟩, fun h => h.2⟩
    · refine iff_of_false ?_ fun h => hle h.1.1
      intro heq
      have hlen := congrArg List.length heq
      have hrest := length_flatten_le reads (readOver s piece)
      rw [List.length_append, List.length_append, length_readOver] at hlen
      omega

/-- The content is returned exactly if no piece is shorter than an earlier one. -/
theorem readTextFd_eq_iff (hnul : NUL ∉ content) {reads : List (List Char)}
    (hsplits : Splits content reads) : readTextFd reads = content ↔
      reads.Pairwise fun piece later => piece.length ≤ later.length := by
  have hreads : ∀ piece ∈ reads, NUL ∉ piece := by
    intro piece hpiece hmem
    rw [← hsplits.flatten] at hnul
    exact hnul (List.mem_flatten_of_mem hpiece hmem)
  have hloop := readTextFdLoop_eq hreads hsplits.size (s := []) List.not_mem_nil (Nat.zero_le _) []
  rw [readTextFd, ← hsplits.flatten]
  change readTextFdLoop reads (filled PATH_MAX []) [] = _ ↔ _
  rw [hloop, List.nil_append, appended_eq_flatten]
  simp

theorem readTextFd_eq_iff_growing : readTextFd [['a'], ['b', 'c']] = ['a', 'b', 'c'] :=
  (readTextFd_eq_iff (by decide) ⟨rfl, by decide⟩).mpr (by decide)

/-- The end of the first piece is read once more behind the second. -/
theorem readTextFd_repeats :
    Splits ['a', 'b', 'c'] [['a', 'b'], ['c']] ∧ NUL ∉ ['a', 'b', 'c'] ∧
      readTextFd [['a', 'b'], ['c']] ≠ ['a', 'b', 'c'] :=
  ⟨⟨rfl, by decide⟩, by decide, by decide⟩

/-- What a string with its terminator leaves in a buffer. -/
theorem text_overwrite (hpiece : NUL ∉ piece) (buf : List Char) :
    text (overwrite buf (piece ++ [NUL])) = piece := by
  rw [overwrite, List.append_assoc, List.singleton_append, text_append hpiece]

/-- What a call of `fgets` can do while the end has not been found: deliver, deliver the last of
the text or find it empty, or run into an error. -/
theorem Stream.fgets_cases {size : ℕ} (hsize : 1 < size) (rest : List Char) (fails : Bool) :
    (∃ piece later, (Stream.mk rest fails false).fgets size = (some piece, ⟨later, fails, false⟩) ∧
      piece ++ later = rest ∧ piece ≠ []) ∨
    (fails = false ∧ (Stream.mk rest fails false).fgets size =
      (if rest = [] then none else some rest, ⟨[], false, true⟩)) ∨
    (fails = true ∧ (Stream.mk rest fails false).fgets size = (none, ⟨[], true, false⟩)) := by
  have happend := ProcMaps.fgets_append (size - 1) rest
  rw [Stream.fgets, if_neg Bool.false_ne_true]
  dsimp only
  split
  · next hfull =>
    refine .inl ⟨_, _, rfl, happend, ?_⟩
    intro hempty
    rw [hempty] at hfull
    rcases hfull with hlen | hlast
    · rw [List.length_nil] at hlen
      omega
    · simp at hlast
  · next hend =>
    rw [not_or] at hend
    rw [ProcMaps.fgets_short hend.1 hend.2]
    cases fails
    · exact .inr (.inl ⟨rfl, rfl⟩)
    · exact .inr (.inr ⟨rfl, rfl⟩)

theorem Stream.fgets_eof {f : Stream} (h : f.eof = true) (size : ℕ) : f.fgets size = (none, f) :=
  if_pos h

/-- `readText(FILE *)` on what is still to come. -/
theorem readTextFileLoop_eq {fuel : ℕ} (hs : NUL ∉ s) (hfuel : s.length + 1 < fuel)
    (buf result : List Char) :
    readTextFileLoop fuel ⟨s, false, false⟩ buf result = some (result ++ s) := by
  induction fuel generalizing s buf result with
  | zero => exact absurd hfuel (Nat.not_lt_zero _)
  | succ fuel ih =>
    rw [readTextFileLoop]
    rcases Stream.fgets_cases (show 1 < PATH_MAX by decide) s false with
      ⟨piece, later, hget, rfl, hne⟩ | ⟨-, hget⟩ | ⟨hfails, -⟩
    · rw [List.mem_append, not_or] at hs
      have hpos := List.length_pos_iff.mpr hne
      rw [List.length_append] at hfuel
      rw [hget]
      dsimp only
      rw [text_overwrite hs.1, ih hs.2 (by omega), List.append_assoc]
    · rw [hget]
      by_cases hempty : s = []
      · rw [if_pos hempty, hempty, List.append_nil]
      · rw [if_neg hempty]
        dsimp only
        obtain ⟨fuel, rfl⟩ := Nat.exists_eq_succ_of_ne_zero (show fuel ≠ 0 by omega)
        rw [text_overwrite hs, readTextFileLoop, Stream.fgets_eof rfl]
    · exact absurd hfails Bool.false_ne_true

theorem readPopenLoop_eof {pipe : Stream} (h : pipe.eof = true) {fuel : ℕ} (hfuel : 0 < fuel)
    (buffer result : List Char) : readPopenLoop fuel pipe buffer result = some result := by
  obtain ⟨fuel, rfl⟩ := Nat.exists_eq_succ_of_ne_zero (Nat.ne_of_gt hfuel)
  rw [readPopenLoop, if_pos h]

/-- `readPopenFile` on what is still to come. -/
theorem readPopenLoop_eq {fuel : ℕ} (hfuel : s.length + 1 < fuel) (buffer result : List Char) :
    ∃ r, readPopenLoop fuel ⟨s, false, false⟩ buffer result = some r ∧
      (NUL ∉ s → r = result ++ s) := by
  induction fuel generalizing s buffer result with
  | zero => exact absurd hfuel (Nat.not_lt_zero _)
  | succ fuel ih =>
    rw [readPopenLoop, if_neg Bool.false_ne_true]
    rcases Stream.fgets_cases (show 1 < 128 by decide) s false with
      ⟨piece, later, hget, rfl, hne⟩ | ⟨-, hget⟩ | ⟨hfails, -⟩
    · have hpos := List.length_pos_iff.mpr hne
      rw [List.length_append] at hfuel
      rw [hget]
      dsimp only
      obtain ⟨r, hr, heq⟩ := @ih later (by omega) (overwrite buffer (piece ++ [NUL]))
        (result ++ text (overwrite buffer (piece ++ [NUL])))
      refine ⟨r, hr, fun hs => ?_⟩
      rw [List.mem_append, not_or] at hs
      rw [heq hs.2, text_overwrite hs.1, List.append_assoc]
    · rw [hget]
      by_cases hempty : s = []
      · rw [if_pos hempty, hempty]
        exact ⟨_, readPopenLoop_eof rfl (by omega) _ _, fun _ => (List.append_nil _).symm⟩
      · rw [if_neg hempty]
        refine ⟨_, readPopenLoop_eof rfl (by omega) _ _, fun hs => ?_⟩
        rw [text_overwrite hs]
    · exact absurd hfails Bool.false_ne_true

/-- Both readers of a stream return what is in it. -/
theorem stream_readers_agree (hnul : NUL ∉ content) (buffer : List Char) {fuel : ℕ}
    (hfuel : content.length + 2 ≤ fuel) :
    readTextFile fuel ⟨content, false, false⟩ = some content ∧
      readPopenFile fuel (some ⟨content, false, false⟩) buffer = some content := by
  obtain ⟨r, hr, heq⟩ := readPopenLoop_eq hfuel buffer []
  refine ⟨readTextFileLoop_eq hnul hfuel _ _, ?_⟩
  rw [readPopenFile, hr, heq hnul, List.nil_append]

theorem stream_readers_agree_lines :
    readTextFile 6 ⟨['a', '\n', 'b'], false, false⟩ = some ['a', '\n', 'b'] ∧
      readPopenFile 6 (some ⟨['a', '\n', 'b'], false, false⟩) [] = some ['a', '\n', 'b'] :=
  stream_readers_agree (by decide) [] (by decide)

/-- A stream that ends with an error keeps the loop going. -/
theorem readPopenLoop_fails (fuel : ℕ) (buffer result : List Char) :
    readPopenLoop fuel ⟨s, true, false⟩ buffer result = none := by
  induction fuel generalizing s buffer result with
  | zero => rfl
  | succ fuel ih =>
    rw [readPopenLoop, if_neg Bool.false_ne_true]
    rcases Stream.fgets_cases (show 1 < 128 by decide) s true with
      ⟨piece, later, hget, -, -⟩ | ⟨hends, -⟩ | ⟨-, hget⟩
    · rw [hget]
      exact ih _ _
    · exact absurd hends.symm Bool.false_ne_true
    · rw [hget]
      exact ih _ _

/-- The loop ends exactly if the end of the file has been found, or is found before a read
fails. -/
theorem readPopenFile_ends_iff (pipe : Stream) (buffer : List Char) :
    (∃ fuel, (readPopenFile fuel (some pipe) buffer).isSome = true) ↔
      pipe.eof = true ∨ pipe.fails = false := by
  obtain ⟨rest, fails, eof⟩ := pipe
  cases eof with
  | true =>
    refine iff_of_true ⟨1, ?_⟩ (.inl rfl)
    rw [readPopenFile, readPopenLoop_eof rfl Nat.one_pos]
    rfl
  | false =>
    cases fails with
    | true =>
      refine iff_of_false ?_ (by simp)
      intro h
      obtain ⟨fuel, hsome⟩ := h
      rw [readPopenFile, readPopenLoop_fails] at hsome
      exact Bool.false_ne_true hsome
    | false =>
      obtain ⟨r, hr, -⟩ := @readPopenLoop_eq rest (rest.length + 2) (by omega) buffer []
      refine iff_of_true ⟨rest.length + 2, ?_⟩ (.inr rfl)
      rw [readPopenFile, hr]
      rfl

/-- A pipe whose first read fails. -/
theorem readPopenFile_hangs : ¬ ∀ (pipe : Stream) (buffer : List Char),
    ∃ fuel, (readPopenFile fuel (some pipe) buffer).isSome = true := by
  intro h
  obtain ⟨fuel, hsome⟩ := h ⟨[], true, false⟩ []
  rw [readPopenFile, readPopenLoop_fails] at hsome
  exact Bool.false_ne_true hsome

end NativeLib.Utils
