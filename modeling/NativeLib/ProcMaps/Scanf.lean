import NativeLib.FindSyscall.BinarySyscallFinder
import NativeLib.ProcMaps.MapsEntry

/-! `sscanf` as the sequence of its conversions, and what the conversions make of the numbers
and words that the kernel prints. -/

namespace NativeLib.ProcMaps

open HideMaps
open FindSyscall (isSpace xdigit)

/-- The first word of a text. -/
def word (s : Line) : List Char := (s.dropWhile isSpace).takeWhile fun c => !isSpace c

/-- `%s`. -/
def scanWord (s : Line) : Option (List Char × Line) :=
  match word s with
  | [] => none
  | text => some (text, (s.dropWhile isSpace).drop text.length)

/-- The sign before a number. -/
def sign : Line → Bool × Line
  | '-' :: s => (true, s)
  | '+' :: s => (false, s)
  | s => (false, s)

/-- The prefix of a hexadecimal number. -/
def skipPrefix (s : Line) : Line :=
  match s with
  | '0' :: x :: d :: s' => if (x == 'x' || x == 'X') && (xdigit d).isSome then d :: s' else s
  | s => s

/-- `%ld`. -/
def scanDec (w : ℕ) (s : Line) : Option (BitVec w × Line) :=
  let (negative, s) := sign (s.dropWhile isSpace)
  match s.takeWhile Char.isDigit with
  | [] => none
  | digits =>
    let value := BitVec.ofNat w (Nat.ofDigitChars 10 digits 0)
    some (if negative then -value else value, s.drop digits.length)

/-- How `sscanf` ends early: the input does not match, or a word does not fit into its buffer. -/
inductive Early (V : Type) where
  | mismatch (v : V)
  | overflow
  deriving DecidableEq, Repr

variable {V α : Type}

/-- One conversion of the format: the value that is read goes to its variable. -/
def conversion (read : Line → Option (α × Line)) (store : α → V → Option V) :
    Line × V → Except (Early V) (Line × V)
  | (s, v) =>
    match read s with
    | none => .error (.mismatch v)
    | some (a, rest) =>
      match store a v with
      | none => .error .overflow
      | some v => .ok (rest, v)

/-- A character of the format. -/
def literal (c : Char) : Line × V → Except (Early V) (Line × V)
  | (s, v) =>
    match s with
    | [] => .error (.mismatch v)
    | x :: rest => if x = c then .ok (rest, v) else .error (.mismatch v)

/-- What the variables hold after `sscanf`; nothing is known after an overflow. -/
def scanned : Except (Early V) (Line × V) → Option V
  | .ok (_, v) => some v
  | .error (.mismatch v) => some v
  | .error .overflow => none

theorem conversion_ok {read : Line → Option (α × Line)} {store : α → V → Option V} {s rest : Line}
    {v v' : V} {a : α} (hread : read s = some (a, rest)) (hstore : store a v = some v') :
    conversion read store (s, v) = .ok (rest, v') := by
  simp only [conversion, hread, hstore]

/-- No digit goes on behind the number, nor the prefix of a hexadecimal one. -/
def Stops (rest : Line) : Prop :=
  ∀ c ∈ rest.head?, xdigit c = none ∧ c.isDigit = false ∧ c ≠ 'x' ∧ c ≠ 'X'

theorem stops_nil : Stops [] := by simp [Stops]

theorem stops_blank (rest : Line) : Stops (' ' :: rest) := by
  simp only [Stops, List.head?_cons, Option.mem_some_iff, forall_eq']
  decide

theorem stops_dash (rest : Line) : Stops ('-' :: rest) := by
  simp only [Stops, List.head?_cons, Option.mem_some_iff, forall_eq']
  decide

/-- A digit of the kernel is one of `sscanf`. -/
theorem xdigit_of_hexDigit {c : Char} {d : ℕ} (h : hexDigit c = some d) : xdigit c = some d := by
  unfold hexDigit at h
  unfold xdigit
  split at h
  · next hdec => rw [if_pos hdec, h]
  · next hdec =>
    split at h
    · next hlow => rw [if_neg hdec, if_pos hlow, h]
    · simp at h

theorem isSpace_of_hexDigit {c : Char} {d : ℕ} (h : hexDigit c = some d) : isSpace c = false := by
  rw [← Bool.not_eq_true]
  intro hspace
  simp only [isSpace, List.mem_cons, List.not_mem_nil, or_false, decide_eq_true_eq] at hspace
  rcases hspace with rfl | rfl | rfl | rfl | rfl | rfl <;> simp [hexDigit] at h

/-- The digits of a number. -/
theorem hexDigit_of_scanHex {text : Line} {v : ℕ} (h : scanHex text = some v) :
    ∀ c ∈ text, ∃ d, hexDigit c = some d := by
  obtain ⟨c, text, rfl⟩ := List.exists_cons_of_ne_nil (scanHex_column h).1.nonempty
  obtain ⟨ds, hds, -⟩ := Option.map_eq_some_iff.mp h
  exact mapM_mem hds

theorem span_append {P : Char → Bool} {text rest : Line} (htext : ∀ c ∈ text, P c = true)
    (hrest : ∀ c ∈ rest.head?, P c = false) : (text ++ rest).takeWhile P = text := by
  induction text with
  | nil =>
    cases rest with
    | nil => rfl
    | cons c rest => simp [hrest c rfl]
  | cons c text ih =>
    rw [List.forall_mem_cons] at htext
    rw [List.cons_append, List.takeWhile_cons_of_pos htext.1, ih htext.2]

/-- The value that the digits stand for. -/
theorem foldl_xdigit {text : List Char} {ds : List ℕ} (h : text.mapM hexDigit = some ds) (v : ℕ) :
    text.foldl (fun v c => 16 * v + (xdigit c).getD 0) v =
      ds.foldl (fun v d => 16 * v + d) v := by
  induction text generalizing ds v with
  | nil =>
    obtain rfl : [] = ds := Option.some.inj h
    rfl
  | cons c text ih =>
    rw [List.mapM_cons] at h
    obtain ⟨d, hd, h⟩ := Option.bind_eq_some_iff.mp h
    obtain ⟨ds', hds, h⟩ := Option.bind_eq_some_iff.mp h
    obtain rfl : d :: ds' = ds := Option.some.inj h
    rw [List.foldl_cons, List.foldl_cons, ih hds, xdigit_of_hexDigit hd, Option.getD_some]

theorem sign_of_ne {c : Char} (hminus : c ≠ '-') (hplus : c ≠ '+') (s : Line) :
    sign (c :: s) = (false, c :: s) := by
  unfold sign
  split
  · next heq => exact absurd (List.cons.inj heq).1 hminus
  · next heq => exact absurd (List.cons.inj heq).1 hplus
  · rfl

theorem skipPrefix_of_ne {c : Char} {s : Line} (h : ∀ x ∈ s.head?, x ≠ 'x' ∧ x ≠ 'X') :
    skipPrefix (c :: s) = c :: s := by
  unfold skipPrefix
  split
  · next x d s' heq =>
    obtain ⟨-, rfl⟩ := List.cons.inj heq
    obtain ⟨hx, hX⟩ := h x rfl
    simp [hx, hX]
  · rfl

theorem scanHex_eq (w : ℕ) (s : Line) : FindSyscall.scanHex w s =
    match (skipPrefix (sign (s.dropWhile isSpace)).2).takeWhile fun c => (xdigit c).isSome with
    | [] => none
    | digits =>
      let value := BitVec.ofNat w (digits.foldl (fun v c => 16 * v + (xdigit c).getD 0) 0)
      some (if (sign (s.dropWhile isSpace)).1 then -value else value,
        (skipPrefix (sign (s.dropWhile isSpace)).2).drop digits.length) := rfl

/-- What the kernel prints as a hexadecimal number is read as one: there is no white space, no
sign and no prefix before the digits, and these are all that is taken. -/
theorem hexNumber {text rest : Line} {v : ℕ} (h : scanHex text = some v) (hrest : Stops rest) :
    sign ((text ++ rest).dropWhile isSpace) = (false, text ++ rest) ∧
      skipPrefix (text ++ rest) = text ++ rest ∧
      (text ++ rest).takeWhile (fun c => (xdigit c).isSome) = text ∧
      text.foldl (fun v c => 16 * v + (xdigit c).getD 0) 0 = v := by
  obtain ⟨c, text, rfl⟩ := List.exists_cons_of_ne_nil (scanHex_column h).1.nonempty
  obtain ⟨ds, hds, rfl⟩ := Option.map_eq_some_iff.mp h
  have hdigit := hexDigit_of_scanHex h
  have hne : ∀ y, hexDigit y = none → ∀ x ∈ c :: text, x ≠ y := by
    rintro y hy x hx rfl
    obtain ⟨d, hd⟩ := hdigit x hx
    simp [hy] at hd
  have hspan : ((c :: text) ++ rest).takeWhile (fun c => (xdigit c).isSome) = c :: text := by
    apply span_append
    · intro x hx
      obtain ⟨d, hd⟩ := hdigit x hx
      simp [xdigit_of_hexDigit hd]
    · intro x hx
      simp [(hrest x hx).1]
  have hfirst := List.mem_cons_self (a := c) (l := text)
  have hspace : isSpace c = false := by
    obtain ⟨d, hd⟩ := hdigit c hfirst
    exact isSpace_of_hexDigit hd
  have hsign := sign_of_ne (hne '-' (by decide) c hfirst) (hne '+' (by decide) c hfirst)
  -- no prefix: neither the digits nor what follows them hold an x
  have hplain : ∀ x ∈ (text ++ rest).head?, x ≠ 'x' ∧ x ≠ 'X' := by
    intro x hx
    cases text with
    | nil => exact (hrest x hx).2.2
    | cons y text =>
      obtain rfl : y = x := by simpa using hx
      exact ⟨hne 'x' (by decide) y (by simp), hne 'X' (by decide) y (by simp)⟩
  refine ⟨?_, ?_, hspan, foldl_xdigit hds 0⟩
  · rw [List.cons_append, List.dropWhile_cons_of_neg (by simp [hspace]), hsign]
  · rw [List.cons_append, skipPrefix_of_ne hplain]

/-- `%lx` reads what the kernel prints as a hexadecimal number. -/
theorem scanHex_number {w : ℕ} {text rest : Line} {v : ℕ} (h : scanHex text = some v)
    (hrest : Stops rest) :
    FindSyscall.scanHex w (text ++ rest) = some (BitVec.ofNat w v, rest) := by
  obtain ⟨hsign, hplain, hspan, hvalue⟩ := hexNumber h hrest
  obtain ⟨c, text, rfl⟩ := List.exists_cons_of_ne_nil (scanHex_column h).1.nonempty
  rw [scanHex_eq, hsign, hplain, hspan]
  simp [hvalue]

theorem scanHex_space {w : ℕ} {c : Char} (hc : isSpace c = true) (s : Line) :
    FindSyscall.scanHex w (c :: s) = FindSyscall.scanHex w s := by
  rw [scanHex_eq, scanHex_eq, List.dropWhile_cons_of_pos hc]

theorem isSpace_of_isDigit {c : Char} (h : c.isDigit = true) : isSpace c = false := by
  rw [← Bool.not_eq_true]
  intro hspace
  simp only [isSpace, List.mem_cons, List.not_mem_nil, or_false, decide_eq_true_eq] at hspace
  rcases hspace with rfl | rfl | rfl | rfl | rfl | rfl <;> simp at h

theorem sign_of_isDigit {c : Char} (h : c.isDigit = true) (s : Line) :
    sign (c :: s) = (false, c :: s) := by
  apply sign_of_ne
  · rintro rfl
    simp at h
  · rintro rfl
    simp at h

/-- `%ld` reads what the kernel prints as a decimal number. -/
theorem scanDec_number {w : ℕ} (n : ℕ) {rest : Line} (hrest : Stops rest) :
    scanDec w (' ' :: (decText n ++ rest)) = some (BitVec.ofNat w n, rest) := by
  have hspan : (decText n ++ rest).takeWhile Char.isDigit = decText n :=
    span_append decText_digit fun c hc => (hrest c hc).2.1
  obtain ⟨c, text, htext⟩ := List.exists_cons_of_ne_nil (decText_column n).nonempty
  have hdigit : c.isDigit = true := decText_digit c (htext ▸ List.mem_cons_self ..)
  have hvalue : Nat.ofDigitChars 10 (decText n) 0 = n := Nat.ofDigitChars_ten_toDigits
  unfold scanDec
  rw [List.dropWhile_cons_of_pos (by decide)]
  rw [htext] at hspan hvalue ⊢
  rw [List.cons_append] at hspan ⊢
  rw [List.dropWhile_cons_of_neg (by simp [isSpace_of_isDigit hdigit]), sign_of_isDigit hdigit]
  simp only [hspan, hvalue]
  simp

theorem forall_of_any {P : Char → Bool} {text : List Char} (h : text.any P = false) :
    ∀ c ∈ text, P c = false := by
  intro c hc
  simpa using List.any_eq_false.mp h c hc

theorem hexText_noSpace (width n : ℕ) : ∀ c ∈ hexText width n, isSpace c = false := by
  intro c hc
  obtain ⟨d, hd⟩ := hexDigit_of_scanHex (scanHex_hexText width n) c hc
  exact isSpace_of_hexDigit hd

theorem permText_noSpace (p : Memory.Perms) (shared : Bool) :
    ∀ c ∈ permText p shared, isSpace c = false := by
  obtain ⟨r, w, x⟩ := p
  apply forall_of_any
  revert r w x shared
  decide

theorem device_noSpace {bits : ℕ} (e : MapsEntry bits) : ∀ c ∈ e.device, isSpace c = false := by
  intro c hc
  rw [MapsEntry.device, List.mem_append, List.mem_cons] at hc
  rcases hc with hc | rfl | hc
  · exact hexText_noSpace _ _ c hc
  · decide
  · exact hexText_noSpace _ _ c hc

/-- `%s` reads a text without white space. -/
theorem scanWord_text {text rest : Line} (hne : text ≠ [])
    (htext : ∀ c ∈ text, isSpace c = false) (hrest : ∀ c ∈ rest.head?, isSpace c = true) :
    scanWord (' ' :: (text ++ rest)) = some (text, rest) := by
  obtain ⟨c, text, rfl⟩ := List.exists_cons_of_ne_nil hne
  have hdrop : (' ' :: ((c :: text) ++ rest)).dropWhile isSpace = (c :: text) ++ rest := by
    rw [List.dropWhile_cons_of_pos (by decide), List.cons_append,
      List.dropWhile_cons_of_neg (by simp [htext c (List.mem_cons_self ..)])]
  have hword : word (' ' :: ((c :: text) ++ rest)) = c :: text := by
    rw [word, hdrop]
    exact span_append (by simpa using htext) (by simpa using hrest)
  rw [scanWord, hword, hdrop]
  simp

theorem word_space {c : Char} (hc : isSpace c = true) (s : Line) : word (c :: s) = word s := by
  rw [word, word, List.dropWhile_cons_of_pos hc]

/-- The words of a name are those of the line from the name on. -/
theorem word_path (path : List Char) (pad : ℕ) :
    word (' ' :: (List.replicate pad ' ' ++ (path ++ ['\n']))) = word path := by
  rw [word_space (by decide)]
  induction pad with
  | succ pad ih => rw [List.replicate_succ, List.cons_append, word_space (by decide), ih]
  | zero =>
    rw [List.replicate_zero, List.nil_append]
    unfold word
    rw [List.dropWhile_append]
    split
    · next hempty =>
      rw [List.isEmpty_iff.mp hempty]
      rfl
    · rw [List.takeWhile_append]
      split
      · next hlen =>
        rw [(List.takeWhile_prefix _).eq_of_length hlen, List.takeWhile_cons_of_neg (by decide),
          List.append_nil]
      · rfl

theorem word_noSpace (path : List Char) : ∀ c ∈ word path, isSpace c = false := by
  intro c hc
  simpa using List.mem_takeWhile_imp hc

/-- A text is its own first word when it has no white space. -/
theorem word_eq_self {path : List Char} :
    word path = path ↔ ∀ c ∈ path, isSpace c = false := by
  refine ⟨?_, ?_⟩
  · intro h
    rw [← h]
    exact word_noSpace path
  · intro h
    have hdrop : path.dropWhile isSpace = path := by
      cases path with
      | nil => rfl
      | cons c path => exact List.dropWhile_cons_of_neg (by simp [h c (List.mem_cons_self ..)])
    rw [word, hdrop, List.takeWhile_eq_self_iff]
    intro c hc
    simp [h c hc]

/-- The line without its newline. -/
def lineBody {bits : ℕ} (e : MapsEntry bits) (pad : ℕ) : List Char :=
  (hexText 8 e.start ++ '-' :: hexText 8 e.stop) ++ ' ' :: (permText e.perms e.shared ++ ' ' ::
    (hexText 8 e.offset ++ ' ' :: (e.device ++ ' ' :: (decText e.inode ++ ' ' ::
      (List.replicate pad ' ' ++ e.path)))))

theorem line_eq {bits : ℕ} (e : MapsEntry bits) (pad : ℕ) :
    e.line pad = lineBody e pad ++ ['\n'] := by
  simp [MapsEntry.line, lineBody]

theorem lineBody_newline {bits : ℕ} (e : MapsEntry bits) (pad : ℕ) : '\n' ∉ lineBody e pad := by
  have hspace : ∀ {text : List Char}, (∀ c ∈ text, isSpace c = false) → '\n' ∉ text :=
    fun htext hmem => absurd (htext _ hmem) (by decide)
  have hdigits : ∀ c ∈ decText e.inode, isSpace c = false :=
    fun c hc => isSpace_of_isDigit (decText_digit c hc)
  have hpad : '\n' ∉ List.replicate pad ' ' :=
    fun hmem => absurd (List.eq_of_mem_replicate hmem) (by decide)
  simp [lineBody, hspace (hexText_noSpace _ _), hspace (permText_noSpace _ _),
    hspace (device_noSpace e), hspace hdigits, hpad, e.path_newline]

end NativeLib.ProcMaps
