import NativeLib.ProcMaps.MapsEntry

/-! Reading a text with `fgets`: in pieces that end with a newline or fill the buffer. -/

namespace NativeLib.ProcMaps

open HideMaps

variable {n : ℕ} {l rest text : List Char}

/-- `fgets` into a buffer for `n` characters and a terminator: what is read and what is left. -/
def fgets : ℕ → List Char → List Char × List Char
  | 0, text => ([], text)
  | _ + 1, [] => ([], [])
  | n + 1, c :: text =>
    if c = '\n' then (['\n'], text)
    else
      let (piece, rest) := fgets n text
      (c :: piece, rest)

/-- The pieces that at most `fuel` calls of `fgets` read. -/
def readPieces (n : ℕ) : ℕ → List Char → List (List Char)
  | 0, _ => []
  | fuel + 1, text =>
    match fgets n text with
    | ([], _) => []
    | (piece, rest) => piece :: readPieces n fuel rest

/-- All pieces of a text. -/
def pieces (n : ℕ) (text : List Char) : List (List Char) := readPieces n text.length text

theorem fgets_nil (n : ℕ) : fgets n [] = ([], []) := by
  cases n <;> rfl

theorem fgets_append (n : ℕ) (text : List Char) : (fgets n text).1 ++ (fgets n text).2 = text := by
  induction n generalizing text with
  | zero => rfl
  | succ n ih =>
    cases text with
    | nil => rfl
    | cons c text =>
      rw [fgets]
      split
      · next hnewline => rw [hnewline]; rfl
      · exact congrArg (c :: ·) (ih text)

theorem fgets_nonempty (hn : 0 < n) (c : Char) (text : List Char) :
    (fgets n (c :: text)).1 ≠ [] := by
  obtain ⟨n, rfl⟩ := Nat.exists_eq_succ_of_ne_zero (Nat.ne_of_gt hn)
  rw [fgets]
  split <;> simp

/-- A line that fits is read with its newline. -/
theorem fgets_line (hl : '\n' ∉ l) (hlen : l.length < n) :
    fgets n (l ++ '\n' :: rest) = (l ++ ['\n'], rest) := by
  induction l generalizing n with
  | nil =>
    obtain ⟨n, rfl⟩ := Nat.exists_eq_succ_of_ne_zero (Nat.ne_of_gt hlen)
    rfl
  | cons c l ih =>
    obtain ⟨n, rfl⟩ := Nat.exists_eq_succ_of_ne_zero (Nat.ne_zero_of_lt hlen)
    rw [List.mem_cons, not_or] at hl
    rw [List.cons_append, fgets, if_neg (Ne.symm hl.1), ih hl.2 (Nat.lt_of_succ_lt_succ hlen)]
    rfl

/-- Of a line that does not, as much as fits. -/
theorem fgets_long (hl : '\n' ∉ l) (hlen : n ≤ l.length) :
    fgets n (l ++ rest) = (l.take n, l.drop n ++ rest) := by
  induction l generalizing n with
  | nil =>
    obtain rfl : n = 0 := Nat.le_zero.mp hlen
    rfl
  | cons c l ih =>
    cases n with
    | zero => rfl
    | succ n =>
      rw [List.mem_cons, not_or] at hl
      rw [List.cons_append, fgets, if_neg (Ne.symm hl.1), ih hl.2 (Nat.le_of_succ_le_succ hlen)]
      rfl

/-- Reading stops short of the buffer and of a newline only at the end of the text. -/
theorem fgets_short (hlen : (fgets n text).1.length ≠ n)
    (hlast : (fgets n text).1.getLast? ≠ some '\n') : fgets n text = (text, []) := by
  induction n generalizing text with
  | zero => exact absurd rfl hlen
  | succ n ih =>
    cases text with
    | nil => rfl
    | cons c text =>
      rw [fgets] at hlen hlast ⊢
      split at hlen
      · next hnewline =>
        rw [if_pos hnewline] at hlast
        exact absurd rfl hlast
      · next hnewline =>
        rw [if_neg hnewline] at hlast ⊢
        have hlen' : (fgets n text).1.length ≠ n := fun h => hlen (congrArg Nat.succ h)
        have hlast' : (fgets n text).1.getLast? ≠ some '\n' := by
          intro h
          apply hlast
          rw [List.getLast?_cons, h]
          rfl
        rw [ih hlen' hlast']

theorem readPieces_cons (hn : 0 < n) (fuel : ℕ) (htext : text ≠ []) :
    readPieces n (fuel + 1) text = (fgets n text).1 :: readPieces n fuel (fgets n text).2 := by
  obtain ⟨c, text, rfl⟩ := List.exists_cons_of_ne_nil htext
  have hne := fgets_nonempty hn c text
  rw [readPieces]
  split
  · next heq => rw [heq] at hne; exact absurd rfl hne
  · next heq => rw [heq]

theorem length_rest (hn : 0 < n) (htext : text ≠ []) :
    (fgets n text).2.length < text.length := by
  obtain ⟨c, text, rfl⟩ := List.exists_cons_of_ne_nil htext
  have hpos := List.length_pos_iff.mpr (fgets_nonempty hn c text)
  have hlen := congrArg List.length (fgets_append n (c :: text))
  rw [List.length_append] at hlen
  omega

theorem readPieces_nil (n fuel : ℕ) : readPieces n fuel [] = [] := by
  cases fuel with
  | zero => rfl
  | succ fuel => rw [readPieces, fgets_nil]

/-- More fuel than there are characters makes no difference. -/
theorem readPieces_fuel (hn : 0 < n) {fuel fuel' : ℕ} (hfuel : text.length ≤ fuel)
    (hfuel' : text.length ≤ fuel') : readPieces n fuel text = readPieces n fuel' text := by
  induction fuel generalizing text fuel' with
  | zero =>
    obtain rfl := List.length_eq_zero_iff.mp (Nat.le_zero.mp hfuel)
    rw [readPieces_nil, readPieces_nil]
  | succ fuel ih =>
    by_cases htext : text = []
    · rw [htext, readPieces_nil, readPieces_nil]
    · have hlt := length_rest hn htext
      have hpos := List.length_pos_iff.mpr htext
      obtain ⟨fuel', rfl⟩ := Nat.exists_eq_succ_of_ne_zero (show fuel' ≠ 0 by omega)
      rw [readPieces_cons hn fuel htext, readPieces_cons hn fuel' htext,
        @ih _ fuel' (by omega) (by omega)]

theorem pieces_cons (hn : 0 < n) (htext : text ≠ []) :
    pieces n text = (fgets n text).1 :: pieces n (fgets n text).2 := by
  have hlt := length_rest hn htext
  have hlen : text.length = (text.length - 1) + 1 := by omega
  rw [pieces, hlen, readPieces_cons hn _ htext, readPieces_fuel hn (by omega) le_rfl]
  rfl

/-- The pieces of a line that comes first are read first. -/
theorem pieces_append (hn : 0 < n) (hl : '\n' ∉ l) (rest : List Char) :
    pieces n (l ++ '\n' :: rest) = pieces n (l ++ ['\n']) ++ pieces n rest := by
  induction hk : l.length using Nat.strong_induction_on generalizing l with
  | _ k ih =>
    rw [pieces_cons hn (by simp), @pieces_cons n (l ++ ['\n']) hn (by simp)]
    by_cases hlen : l.length < n
    · rw [fgets_line hl hlen, fgets_line hl hlen]
      rfl
    · rw [fgets_long hl (by omega), fgets_long hl (by omega)]
      have hdrop : '\n' ∉ l.drop n := fun h => hl (List.mem_of_mem_drop h)
      rw [List.cons_append, ih (l.drop n).length (by rw [List.length_drop]; omega) hdrop rfl]

/-- The first piece of a line. -/
theorem pieces_head (hn : 0 < n) (hl : '\n' ∉ l) :
    ∃ later, pieces n (l ++ ['\n']) = (l ++ ['\n']).take n :: later := by
  rw [pieces_cons hn (by simp)]
  by_cases hlen : l.length < n
  · have hle : (l ++ ['\n']).length ≤ n := by
      rw [List.length_append, List.length_singleton]
      omega
    rw [fgets_line hl hlen, List.take_of_length_le hle]
    exact ⟨_, rfl⟩
  · rw [fgets_long hl (by omega), List.take_append_of_le_length (by omega)]
    exact ⟨_, rfl⟩

/-- A line that fits is one piece. -/
theorem pieces_short (hl : '\n' ∉ l) (hlen : l.length < n) :
    pieces n (l ++ ['\n']) = [l ++ ['\n']] := by
  rw [pieces_cons (Nat.zero_lt_of_lt hlen) (by simp), fgets_line hl hlen]
  rfl

end NativeLib.ProcMaps
