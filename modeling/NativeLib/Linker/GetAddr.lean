import Mathlib.Data.List.Nodup
import NativeLib.ProcMaps.Buffers
import NativeLib.ProcMaps.Fgets
import NativeLib.ProcMaps.Scanf

/-! `linker/Symbol.cpp`: `get_addr`, which looks for the address that a library is mapped at. It
goes by the sixth word of what `fgets` reads, which need not be the name of a mapping. -/

namespace NativeLib.Linker

open HideMaps ProcMaps
open FindSyscall (isSpace xdigit)

def BUFSIZ : ℕ := 1024

/-- `strtoul(s, NULL, 16)`: 0 if there are no digits, `ULONG_MAX` for a number that does not
fit. -/
def strtoul (bits : ℕ) (s : List Char) : ℕ :=
  let (negative, s) := sign (s.dropWhile isSpace)
  let digits := (skipPrefix s).takeWhile fun c => (xdigit c).isSome
  let value := digits.foldl (fun v c => 16 * v + (xdigit c).getD 0) 0
  if 2 ^ bits ≤ value then 2 ^ bits - 1
  else if negative then (2 ^ bits - value) % 2 ^ bits
  else value

/-- `strtok(.., " ")`: the next token and what is left. -/
def strtok (s : List Char) : Option (List Char × List Char) :=
  let s := s.dropWhile (· == ' ')
  match s.takeWhile (· != ' ') with
  | [] => none
  | token => some (token, s.drop token.length)

/-- `tok[i]`. -/
def tok : ℕ → List Char → Option (List Char)
  | 0, s => (strtok s).map Prod.fst
  | i + 1, s => (strtok s).bind fun t => tok i t.2

/-- The newline at the end of the buffer is removed. -/
def chomp (buf : List Char) : List Char :=
  if buf.getLast? = some '\n' then buf.dropLast else buf

/-- The sixth token of the buffer is `name`. -/
def HasName (name buf : List Char) : Prop := tok 5 (chomp buf) = some name

instance (name buf : List Char) : Decidable (HasName name buf) :=
  inferInstanceAs (Decidable (_ = _))

/-- The number that the first token of the buffer starts with. -/
def firstNumber (bits : ℕ) (buf : List Char) : ℕ := strtoul bits ((tok 0 (chomp buf)).getD [])

/-- The loop of `get_addr`. -/
def getAddrLoop (bits : ℕ) (name : List Char) : ℕ → List Char → Option ℕ
  | 0, _ => none
  | fuel + 1, text =>
    match fgets (BUFSIZ - 1) text with
    | ([], _) => some 0
    | (buf, rest) =>
      if HasName name buf then some (firstNumber bits buf) else getAddrLoop bits name fuel rest

/-- `get_addr`, for what the maps file holds if it can be opened. -/
def getAddr (bits : ℕ) (name : List Char) : Option (List Char) → Option ℕ
  | none => some 0
  | some text => getAddrLoop bits name (text.length + 1) text

variable {abi : Abi} {bits : ℕ} {name : List Char}

/-- The first piece that has the name decides. -/
theorem getAddrLoop_eq {fuel : ℕ} {text : List Char} (hfuel : text.length < fuel) :
    getAddrLoop bits name fuel text =
      some (((pieces (BUFSIZ - 1) text).find? (HasName name ·)).elim 0 (firstNumber bits)) := by
  induction fuel generalizing text with
  | zero => exact absurd hfuel (Nat.not_lt_zero _)
  | succ fuel ih =>
    have hpos : 0 < BUFSIZ - 1 := by decide
    by_cases htext : text = []
    · rw [htext, getAddrLoop, fgets_nil]
      rfl
    · have hlt := length_rest hpos htext
      rw [getAddrLoop, pieces_cons hpos htext, List.find?_cons]
      split
      · next heq =>
        obtain ⟨c, text, rfl⟩ := List.exists_cons_of_ne_nil htext
        have hne := fgets_nonempty hpos c text
        rw [heq] at hne
        exact absurd rfl hne
      · next buf rest _ heq =>
        rw [heq] at hlt ⊢
        by_cases hname : HasName name buf
        · rw [if_pos hname]
          simp [hname]
        · rw [if_neg hname, ih (by simp only at hlt; omega)]
          simp [hname]

/-- A maps file: the entries in the order of their addresses, each with the blanks that are put
before its path. -/
structure MapsFile (bits : ℕ) where
  entries : List (MapsEntry bits × ℕ)
  sorted : entries.Pairwise fun x y => x.1.stop ≤ y.1.start

namespace MapsFile

def text (file : MapsFile bits) : List Char := file.entries.flatMap fun x => x.1.line x.2

end MapsFile

/-- The pieces of the file are those of its lines. -/
theorem pieces_text (entries : List (MapsEntry bits × ℕ)) {n : ℕ} (hn : 0 < n) :
    pieces n (entries.flatMap fun x => x.1.line x.2) =
      entries.flatMap fun x => pieces n (x.1.line x.2) := by
  induction entries with
  | nil => rfl
  | cons x entries ih =>
    rw [List.flatMap_cons, List.flatMap_cons, line_eq, ← ih, List.append_assoc]
    exact pieces_append hn (lineBody_newline _ _) _

theorem strtoul_hexText {n width : ℕ} (hn : n < 2 ^ bits) (rest : List Char) :
    strtoul bits (hexText width n ++ '-' :: rest) = n := by
  obtain ⟨hsign, hplain, hspan, hvalue⟩ := hexNumber (scanHex_hexText width n) (stops_dash rest)
  unfold strtoul
  rw [hsign]
  simp only [hplain, hspan, hvalue]
  rw [if_neg (Nat.not_le.mpr hn)]
  rfl

/-- What comes before the end of the buffer stays. -/
theorem chomp_append (s t : List Char) : ∃ t', chomp (s ++ '-' :: t) = s ++ '-' :: t' := by
  unfold chomp
  split
  · next hlast =>
    cases t with
    | nil => simp at hlast
    | cons c t => exact ⟨(c :: t).dropLast, by simp [List.dropLast_append_of_ne_nil]⟩
  · exact ⟨t, rfl⟩

theorem tok_append {s : List Char} (hne : s ≠ []) (hs : ' ' ∉ s) (t : List Char) :
    tok 0 (s ++ '-' :: t) = some (s ++ '-' :: t.takeWhile (· != ' ')) := by
  obtain ⟨c, s, rfl⟩ := List.exists_cons_of_ne_nil hne
  have hfirst : c ≠ ' ' := fun h => hs (h ▸ List.mem_cons_self)
  have hdrop : ((c :: s) ++ '-' :: t).dropWhile (· == ' ') = (c :: s) ++ '-' :: t := by
    rw [List.cons_append, List.dropWhile_cons_of_neg (by simp [hfirst])]
  have htake : ((c :: s) ++ '-' :: t).takeWhile (· != ' ') =
      (c :: s) ++ '-' :: t.takeWhile (· != ' ') := by
    rw [List.takeWhile_append_of_pos, List.takeWhile_cons_of_pos (by decide)]
    intro x hx
    have hblank : x ≠ ' ' := fun h => hs (h ▸ hx)
    simpa using hblank
  rw [tok, strtok, hdrop, htake]
  rfl

/-- The first piece of a line begins with the address of the mapping. -/
theorem firstNumber_head (e : MapsEntry abi.bits) (pad : ℕ) :
    firstNumber abi.bits ((e.line pad).take (BUFSIZ - 1)) = e.start := by
  have hstart : e.start < 2 ^ abi.bits := e.start_lt.trans e.stop_lt
  have hlen := address_length hstart
  have hcolumn := hexText_column 8 e.start
  have hblank : ' ' ∉ hexText 8 e.start := fun h => absurd (hcolumn.noBlank _ h) (by decide)
  obtain ⟨k, hk⟩ : ∃ k, BUFSIZ - 1 = (hexText 8 e.start).length + (k + 1) :=
    ⟨BUFSIZ - 1 - (hexText 8 e.start).length - 1, by rw [BUFSIZ]; omega⟩
  obtain ⟨rest, hrest⟩ : ∃ rest, (e.line pad).take (BUFSIZ - 1) =
      hexText 8 e.start ++ '-' :: rest := by
    rw [hk, MapsEntry.line, List.take_length_add_append, List.take_succ_cons]
    exact ⟨_, rfl⟩
  obtain ⟨rest', hchomp⟩ := chomp_append (hexText 8 e.start) rest
  rw [firstNumber, hrest, hchomp, tok_append hcolumn.nonempty hblank, Option.getD_some,
    strtoul_hexText hstart]

/-- `p` is the first piece of the file that has the name. It comes behind `before` in the line of
`e`, and that behind the lines of `pre`. -/
structure FirstPiece (file : MapsFile bits) (name : List Char)
    (pre : List (MapsEntry bits × ℕ)) (e : MapsEntry bits) (before : List (List Char))
    (p : List Char) : Prop where
  entry : ∃ pad post, file.entries = pre ++ (e, pad) :: post ∧
    ∃ after, pieces (BUFSIZ - 1) (e.line pad) = before ++ p :: after
  hasName : HasName name p
  not_pre : ∀ x ∈ pre, ∀ q ∈ pieces (BUFSIZ - 1) (x.1.line x.2), ¬ HasName name q
  not_before : ∀ q ∈ before, ¬ HasName name q

/-- `e` is the first mapping with the pathname, behind those of `pre`. -/
def FirstNamed (file : MapsFile bits) (name : List Char) (pre : List (MapsEntry bits × ℕ))
    (e : MapsEntry bits) : Prop :=
  (∃ pad post, file.entries = pre ++ (e, pad) :: post) ∧ e.path = name ∧
    ∀ x ∈ pre, x.1.path ≠ name

theorem find_pieces {file : MapsFile bits} {p : List Char} :
    (pieces (BUFSIZ - 1) file.text).find? (HasName name ·) = some p ↔
      ∃ pre e before, FirstPiece file name pre e before p := by
  rw [MapsFile.text, pieces_text _ (by decide), List.find?_flatMap, List.findSome?_eq_some_iff]
  refine ⟨?_, ?_⟩
  · rintro ⟨pre, ⟨e, pad⟩, post, hentries, hfind, hpre⟩
    rw [List.find?_eq_some_iff_append] at hfind
    obtain ⟨hp, before, after, hpieces, hbefore⟩ := hfind
    refine ⟨pre, e, before, ⟨⟨pad, post, hentries, after, hpieces⟩, by simpa using hp, ?_, ?_⟩⟩
    · intro x hx
      simpa using List.find?_eq_none.mp (hpre x hx)
    · intro q hq
      simpa using hbefore q hq
  · rintro ⟨pre, e, before, ⟨pad, post, hentries, after, hpieces⟩, hp, hpre, hbefore⟩
    refine ⟨pre, (e, pad), post, hentries, ?_, ?_⟩
    · rw [List.find?_eq_some_iff_append]
      refine ⟨by simpa using hp, before, after, hpieces, ?_⟩
      intro q hq
      simpa using hbefore q hq
    · intro x hx
      rw [List.find?_eq_none]
      intro q hq
      simpa using hpre x hx q hq

/-- What is returned, unless it is 0, is the address of the first mapping with the name. -/
def SoundFor (file : MapsFile bits) (name : List Char) (r : ℕ) : Prop :=
  r ≠ 0 → ∃ pre e, FirstNamed file name pre e ∧ e.start = r

/-- An address is where one mapping starts. -/
theorem unique_start {l pre post pre' post' : List (MapsEntry bits × ℕ)} {x x' : MapsEntry bits × ℕ}
    (hsorted : l.Pairwise fun x y => x.1.stop ≤ y.1.start) (h : l = pre ++ x :: post)
    (h' : l = pre' ++ x' :: post') (hstart : x.1.start = x'.1.start) : pre = pre' ∧ x = x' := by
  have hnodup : (l.map (·.1.start)).Nodup := by
    refine List.pairwise_map.mpr (hsorted.imp fun {y z} hle => ?_)
    exact Nat.ne_of_lt (y.1.start_lt.trans_le hle)
  have hx : x = x' := List.inj_on_of_nodup_map hnodup (by simp [h]) (by simp [h']) hstart
  have hother := hnodup.of_map
  rw [h, List.nodup_middle, List.nodup_cons, List.mem_append, not_or, hx] at hother
  rw [h] at h'
  obtain ⟨hpre, hx, -⟩ := (List.append_cons_inj_of_notMem hother.1.1 hother.1.2).mp h'
  exact ⟨hpre, hx⟩

/-- The first piece of a line gives the address of its mapping. -/
theorem FirstPiece.firstNumber_eq {file : MapsFile abi.bits}
    {pre : List (MapsEntry abi.bits × ℕ)} {e : MapsEntry abi.bits} {p : List Char}
    (h : FirstPiece file name pre e [] p) : firstNumber abi.bits p = e.start := by
  obtain ⟨pad, post, -, after, hpieces⟩ := h.entry
  obtain ⟨later, hhead⟩ :=
    pieces_head (show 0 < BUFSIZ - 1 by decide) (lineBody_newline e pad)
  rw [← line_eq, hpieces] at hhead
  rw [(List.cons.inj hhead).1, firstNumber_head]

theorem getAddr_firstPiece {file : MapsFile bits} {pre : List (MapsEntry bits × ℕ)}
    {e : MapsEntry bits} {before : List (List Char)} {p : List Char}
    (h : FirstPiece file name pre e before p) :
    getAddr bits name (some file.text) = some (firstNumber bits p) := by
  rw [getAddr, getAddrLoop_eq (Nat.lt_succ_self _), find_pieces.mpr ⟨pre, e, before, h⟩]
  rfl

theorem getAddr_none {file : MapsFile bits}
    (h : ∀ pre e before p, ¬ FirstPiece file name pre e before p) :
    getAddr bits name (some file.text) = some 0 := by
  rw [getAddr, getAddrLoop_eq (Nat.lt_succ_self _)]
  cases hfind : (pieces (BUFSIZ - 1) file.text).find? (HasName name ·) with
  | none => rfl
  | some p =>
    obtain ⟨pre, e, before, hfirst⟩ := find_pieces.mp hfind
    exact absurd hfirst (h pre e before p)

/-- The beginning of a line gives the right address if it is that of the first mapping with the
name. -/
theorem FirstPiece.soundFor_iff {file : MapsFile abi.bits} {pre : List (MapsEntry abi.bits × ℕ)}
    {e : MapsEntry abi.bits} {p : List Char} (h : FirstPiece file name pre e [] p) :
    SoundFor file name (firstNumber abi.bits p) ↔ e.start = 0 ∨ FirstNamed file name pre e := by
  rw [h.firstNumber_eq]
  refine ⟨fun hsound => ?_, ?_⟩
  · by_cases hzero : e.start = 0
    · exact .inl hzero
    obtain ⟨pre', e', hnamed, hstart⟩ := hsound hzero
    obtain ⟨pad, post, hentries, -⟩ := h.entry
    obtain ⟨pad', post', hentries'⟩ := hnamed.1
    obtain ⟨rfl, heq⟩ := unique_start file.sorted hentries' hentries hstart
    obtain ⟨rfl, -⟩ := Prod.mk.inj heq
    exact .inr hnamed
  · intro h hne
    rcases h with hzero | hnamed
    · exact absurd hzero hne
    · exact ⟨pre, e, hnamed, rfl⟩

/-- `get_addr` is right exactly if the first piece with the name is the beginning of the line of
the first mapping with the pathname, or, where it comes from the middle of a line, happens to
begin with the same number or with none. -/
theorem getAddr_sound_iff (file : MapsFile abi.bits) (name : List Char) :
    (∃ r, getAddr abi.bits name (some file.text) = some r ∧ SoundFor file name r) ↔
      ∀ pre e before p, FirstPiece file name pre e before p →
        (before = [] → e.start = 0 ∨ FirstNamed file name pre e) ∧
        (before ≠ [] → firstNumber abi.bits p = 0 ∨
          ∃ pre' e', FirstNamed file name pre' e' ∧ e'.start = firstNumber abi.bits p) := by
  refine ⟨?_, fun h => ?_⟩
  · rintro ⟨r, hr, hsound⟩ pre e before p hfirst
    rw [getAddr_firstPiece hfirst] at hr
    obtain rfl : firstNumber abi.bits p = r := Option.some.inj hr
    refine ⟨?_, fun _ => or_iff_not_imp_left.mpr hsound⟩
    rintro rfl
    exact hfirst.soundFor_iff.mp hsound
  · by_cases hfound : ∃ pre e before p, FirstPiece file name pre e before p
    · obtain ⟨pre, e, before, p, hfirst⟩ := hfound
      obtain ⟨hhead, hmiddle⟩ := h pre e before p hfirst
      refine ⟨_, getAddr_firstPiece hfirst, ?_⟩
      by_cases hbefore : before = []
      · subst hbefore
        exact hfirst.soundFor_iff.mpr (hhead rfl)
      · exact fun hne => (hmiddle hbefore).resolve_left hne
    · refine ⟨0, getAddr_none fun pre e before p hfirst => ?_, fun hne => absurd rfl hne⟩
      exact hfound ⟨pre, e, before, p, hfirst⟩

/-- The library was replaced on disk while it is mapped. -/
def deletedFile : MapsFile Abi.aarch64.bits where
  entries := [(.plain 0x1000 0x2000 "/linker64 (deleted)".toList page_lt_page page_lt_pow
    (by decide) (by decide), 1)]
  sorted := List.pairwise_singleton _ _

theorem getAddr_deleted :
    ¬ ∃ r, getAddr Abi.aarch64.bits "/linker64".toList (some deletedFile.text) = some r ∧
      SoundFor deletedFile "/linker64".toList r := by
  have hrun : getAddr Abi.aarch64.bits "/linker64".toList (some deletedFile.text) =
      some 0x1000 := by decide +kernel
  rintro ⟨r, hr, hsound⟩
  rw [hrun] at hr
  obtain rfl := Option.some.inj hr
  obtain ⟨pre, e, ⟨⟨pad, post, hentries⟩, hpath, -⟩, -⟩ := hsound (by decide)
  have hmem : (e, pad) ∈ deletedFile.entries := by simp [hentries]
  obtain ⟨rfl, -⟩ := Prod.mk.inj (List.mem_singleton.mp hmem)
  exact absurd hpath (by decide)

theorem tok_blank (i : ℕ) (s : List Char) : tok i (' ' :: s) = tok i s := by
  cases i <;> rfl

theorem tok_blanks (i pad : ℕ) (s : List Char) :
    tok i (List.replicate pad ' ' ++ s) = tok i s := by
  induction pad with
  | zero => rfl
  | succ pad ih => rw [List.replicate_succ, List.cons_append, tok_blank, ih]

/-- A column is a token. -/
theorem tok_column {s : List Char} (hs : Column s) (i : ℕ) (rest : List Char) :
    tok (i + 1) (s ++ ' ' :: rest) = tok i rest := by
  obtain ⟨c, s', rfl⟩ := List.exists_cons_of_ne_nil hs.nonempty
  have hblank : ∀ x ∈ c :: s', (x != ' ') = true := by
    intro x hx
    have hne : x ≠ ' ' := by
      rintro rfl
      exact absurd (hs.noBlank _ hx) (by decide)
    simpa using hne
  have hdrop : ((c :: s') ++ ' ' :: rest).dropWhile (· == ' ') = (c :: s') ++ ' ' :: rest := by
    have hfirst := hblank c List.mem_cons_self
    rw [List.cons_append, List.dropWhile_cons_of_neg (by simpa using hfirst)]
  have htake : ((c :: s') ++ ' ' :: rest).takeWhile (· != ' ') = c :: s' := by
    rw [List.takeWhile_append_of_pos hblank, List.takeWhile_cons_of_neg (by decide),
      List.append_nil]
  have hstrtok : strtok ((c :: s') ++ ' ' :: rest) = some (c :: s', ' ' :: rest) := by
    rw [strtok, hdrop, htake]
    simp
  rw [tok, hstrtok, Option.bind_some, tok_blank]

/-- The sixth token of a line is the first word of the path. -/
theorem hasName_line (e : MapsEntry bits) (pad : ℕ) :
    HasName name (e.line pad) ↔ tok 0 e.path = some name := by
  have hrange : Column (hexText 8 e.start ++ '-' :: hexText 8 e.stop) := by
    refine ⟨by simp, ?_⟩
    intro c hc
    rw [List.mem_append, List.mem_cons] at hc
    rcases hc with hc | rfl | hc
    · exact (hexText_column _ _).noBlank c hc
    · decide
    · exact (hexText_column _ _).noBlank c hc
  have hchomp : chomp (lineBody e pad ++ ['\n']) = lineBody e pad := by
    simp [chomp]
  rw [HasName, line_eq, hchomp, lineBody, tok_column hrange, tok_column (permText_column _ _),
    tok_column (hexText_column _ _), tok_column e.device_column, tok_column (decText_column _),
    tok_blanks]

theorem tok_name (hname : ' ' ∉ name) (hne : name ≠ []) : tok 0 name = some name := by
  obtain ⟨c, s, rfl⟩ := List.exists_cons_of_ne_nil hne
  have hfirst : c ≠ ' ' := fun h => hname (h ▸ List.mem_cons_self)
  have htake : (c :: s).takeWhile (· != ' ') = c :: s := by
    rw [List.takeWhile_eq_self_iff]
    intro x hx
    have hblank : x ≠ ' ' := fun h => hname (h ▸ hx)
    simpa using hblank
  rw [tok, strtok, List.dropWhile_cons_of_neg (by simp [hfirst]), htake]
  rfl

/-- Where every line fits into the buffer, every piece is a line. -/
theorem firstPiece_iff {file : MapsFile bits}
    (hshort : ∀ x ∈ file.entries, (x.1.line x.2).length ≤ BUFSIZ - 1)
    {pre : List (MapsEntry bits × ℕ)} {e : MapsEntry bits} {before : List (List Char)}
    {p : List Char} : FirstPiece file name pre e before p ↔
      before = [] ∧ (∃ pad post, file.entries = pre ++ (e, pad) :: post ∧ p = e.line pad) ∧
        tok 0 e.path = some name ∧ ∀ x ∈ pre, tok 0 x.1.path ≠ some name := by
  have hpieces : ∀ x ∈ file.entries,
      pieces (BUFSIZ - 1) (x.1.line x.2) = [x.1.line x.2] := by
    intro x hx
    have hlen := hshort x hx
    rw [line_eq] at hlen ⊢
    rw [List.length_append, List.length_singleton] at hlen
    exact pieces_short (lineBody_newline _ _) hlen
  refine ⟨?_, ?_⟩
  · rintro ⟨⟨pad, post, hentries, after, hline⟩, hp, hpre, -⟩
    rw [hpieces (e, pad) (by simp [hentries])] at hline
    obtain ⟨rfl, hline⟩ : before = [] ∧ [e.line pad] = p :: after := by
      cases before with
      | nil => exact ⟨rfl, hline⟩
      | cons q before => simp at hline
    obtain rfl : e.line pad = p := (List.cons.inj hline).1
    refine ⟨rfl, ⟨pad, post, hentries, rfl⟩, (hasName_line e pad).mp hp, ?_⟩
    intro x hx
    have hq := hpre x hx (x.1.line x.2)
    rw [hpieces x (by simp [hentries, hx]), hasName_line] at hq
    exact hq (List.mem_singleton_self _)
  · rintro ⟨rfl, ⟨pad, post, hentries, rfl⟩, hp, hpre⟩
    refine ⟨⟨pad, post, hentries, [], hpieces (e, pad) (by simp [hentries])⟩,
      (hasName_line e pad).mpr hp, ?_, by simp⟩
    intro x hx q hq
    rw [hpieces x (by simp [hentries, hx]), List.mem_singleton] at hq
    rw [hq, hasName_line]
    exact hpre x hx

/-- That is: the first mapping whose path begins with the name as a word has no more in its
path. -/
theorem getAddr_sound_iff_path (file : MapsFile abi.bits) (hname : ' ' ∉ name) (hne : name ≠ [])
    (hshort : ∀ x ∈ file.entries, (x.1.line x.2).length ≤ BUFSIZ - 1) :
    (∃ r, getAddr abi.bits name (some file.text) = some r ∧ SoundFor file name r) ↔
      ∀ pre e pad post, file.entries = pre ++ (e, pad) :: post → tok 0 e.path = some name →
        (∀ x ∈ pre, tok 0 x.1.path ≠ some name) → e.start = 0 ∨ e.path = name := by
  refine ⟨?_, fun h => ?_⟩
  · rintro ⟨r, hr, hsound⟩ pre e pad post hentries hp hpre
    have hfirst := (firstPiece_iff hshort).mpr ⟨rfl, ⟨pad, post, hentries, rfl⟩, hp, hpre⟩
    rw [getAddr_firstPiece hfirst] at hr
    obtain rfl := Option.some.inj hr
    exact (hfirst.soundFor_iff.mp hsound).imp_right fun hnamed => hnamed.2.1
  · by_cases hfound : ∃ pre e before p, FirstPiece file name pre e before p
    · obtain ⟨pre, e, before, p, hfirst⟩ := hfound
      obtain ⟨rfl, ⟨pad, post, hentries, -⟩, hp, hpre⟩ := (firstPiece_iff hshort).mp hfirst
      refine ⟨_, getAddr_firstPiece hfirst, hfirst.soundFor_iff.mpr ?_⟩
      refine (h pre e pad post hentries hp hpre).imp_right fun hpath => ?_
      refine ⟨⟨pad, post, hentries⟩, hpath, fun x hx hx' => hpre x hx ?_⟩
      rw [hx', tok_name hname hne]
    · refine ⟨0, getAddr_none fun pre e before p hfirst => ?_, fun hne => absurd rfl hne⟩
      exact hfound ⟨pre, e, before, p, hfirst⟩

end NativeLib.Linker
