import Mathlib.Algebra.Group.Nat.Defs
import NativeLib.Collections.Occurrences
import NativeLib.Tracer.MyLibc

/-! `utils/stringUtils.cpp`: comparing, and replacing in place, where the search goes on behind
what has been put in. -/

namespace NativeLib.Utils

open Collections (FirstAt Leftmost exists_firstAt exists_leftmost leftmost_replicate
  dropInfix?_eq_some dropInfix?_eq_none)
open Tracer (NUL cStr myStrcmp myStrcmp_eq nul_mem_cStr text_cStr)

/-- `StringUtils::equals`. -/
def equals (str1 str2 : List Char) : Bool := myStrcmp (cStr str1) (cStr str2) = some 0

/-- The largest `int`. -/
def INT_MAX : ℕ := 2 ^ 31 - 1

/-- `str.find(pattern, pos)`, `none` for `npos`. -/
def find (str pattern : List Char) (pos : ℕ) : Option ℕ :=
  if pos ≤ str.length then
    ((str.drop pos).dropInfix? pattern).map fun (before, _) => pos + before.length
  else none

/-- The loop of `replace`, at most `fuel` times round. An `int` that is increased beyond the
largest one has no value. -/
def replaceLoop (pattern newpat : List Char) :
    ℕ → List Char → Option ℕ → ℕ → Option (List Char × ℕ)
  | _, str, none, count => some (str, count)
  | 0, _, some _, _ => none
  | fuel + 1, str, some pos, count =>
    let str := str.take pos ++ newpat ++ str.drop (pos + pattern.length)
    if count < INT_MAX then
      replaceLoop pattern newpat fuel str (find str pattern (pos + newpat.length)) (count + 1)
    else none

/-- `StringUtils::replace`: the string afterwards and the result. -/
def replace (fuel : ℕ) (str pattern newpat : List Char) : Option (List Char × ℕ) :=
  replaceLoop pattern newpat fuel str (find str pattern 0) 0

/-- One time round the loop of `replace`, without its counter, which nothing reads. There is
nothing to do once `find` has returned `npos`. -/
def replaceRound (pattern newpat : List Char) : List Char × Option ℕ → List Char × Option ℕ
  | (str, none) => (str, none)
  | (str, some pos) =>
    let str := str.take pos ++ newpat ++ str.drop (pos + pattern.length)
    (str, find str pattern (pos + newpat.length))

/-- The loop of `replace` comes to its end. -/
def ReplaceEnds (str pattern newpat : List Char) : Prop :=
  ∃ n, ((replaceRound pattern newpat)^[n] (str, find str pattern 0)).2 = none

theorem equals_iff {str1 str2 : List Char} (h1 : NUL ∉ str1) (h2 : NUL ∉ str2) :
    equals str1 str2 = true ↔ str1 = str2 := by
  obtain ⟨diff, hdiff, hiff⟩ := myStrcmp_eq (nul_mem_cStr str1) (nul_mem_cStr str2)
  rw [text_cStr h1, text_cStr h2] at hiff
  rw [equals, decide_eq_true_iff, hdiff, Option.some_inj, hiff]

variable {str pattern newpat done rest before after : List Char} {pieces : List (List Char)}

theorem find_append (done rest pattern : List Char) :
    find (done ++ rest) pattern done.length =
      (rest.dropInfix? pattern).map fun (before, _) => done.length + before.length := by
  rw [find, if_pos, List.drop_left]
  rw [List.length_append]
  exact Nat.le_add_right _ _

theorem find_first (h : FirstAt pattern rest before after) (done : List Char) :
    find (done ++ rest) pattern done.length = some (done.length + before.length) := by
  rw [find_append, dropInfix?_eq_some.mpr h]
  rfl

theorem find_none (h : ¬ pattern <:+: rest) (done : List Char) :
    find (done ++ rest) pattern done.length = none := by
  rw [find_append, dropInfix?_eq_none.mpr h]
  rfl

/-- One time round: the first occurrence in what is not finished. -/
theorem replaceLoop_step (h : FirstAt pattern rest before after) (newpat : List Char) (fuel : ℕ)
    (done : List Char) (count : ℕ) :
    replaceLoop pattern newpat (fuel + 1) (done ++ rest)
        (find (done ++ rest) pattern done.length) count =
      if count < INT_MAX then
        replaceLoop pattern newpat fuel (done ++ before ++ newpat ++ after)
          (find (done ++ before ++ newpat ++ after) pattern (done ++ before ++ newpat).length)
          (count + 1)
      else none := by
  have hpos : done.length + before.length = (done ++ before).length := List.length_append.symm
  have hstr : done ++ rest = done ++ before ++ (pattern ++ after) := by
    rw [h.eq, List.append_assoc, List.append_assoc]
  rw [find_first h, replaceLoop, hpos, hstr, List.take_left, ← List.drop_drop, List.drop_left,
    List.drop_left, ← List.length_append]

/-- What is finished is not looked at again. -/
theorem replaceLoop_append (fuel : ℕ) (done rest : List Char) (count : ℕ) :
    replaceLoop pattern newpat fuel (done ++ rest)
        (find (done ++ rest) pattern done.length) count =
      (replaceLoop pattern newpat fuel rest (find rest pattern 0) count).map
        fun (str, count) => (done ++ str, count) := by
  by_cases h : pattern <:+: rest
  · obtain ⟨before, after, hfirst⟩ := exists_firstAt h
    cases fuel with
    | zero =>
      have hrest := find_first hfirst []
      rw [List.nil_append, List.length_nil] at hrest
      rw [find_first hfirst, hrest]
      rfl
    | succ fuel =>
      have hrest := replaceLoop_step hfirst newpat fuel [] count
      rw [List.nil_append, List.length_nil, List.nil_append] at hrest
      rw [replaceLoop_step hfirst, hrest]
      by_cases hcount : count < INT_MAX
      · rw [if_pos hcount, if_pos hcount, replaceLoop_append fuel (done ++ before ++ newpat),
          replaceLoop_append fuel (before ++ newpat), Option.map_map]
        simp [Function.comp_def]
      · rw [if_neg hcount, if_neg hcount]
        rfl
  · have hrest := find_none h []
    rw [List.nil_append, List.length_nil] at hrest
    rw [find_none h, hrest, replaceLoop, replaceLoop]
    rfl

/-- The loop on its pieces, as far as the counter goes. -/
theorem replaceLoop_eq (h : Leftmost pattern rest pieces) {fuel count : ℕ}
    (hfuel : pieces.length ≤ fuel + 1) (hcount : count ≤ INT_MAX) :
    replaceLoop pattern newpat fuel rest (find rest pattern 0) count =
      if count + (pieces.length - 1) ≤ INT_MAX then
        some (newpat.intercalate pieces, count + (pieces.length - 1))
      else none := by
  induction h generalizing fuel count with
  | last hnot =>
    have hrest := find_none hnot []
    rw [List.nil_append, List.length_nil] at hrest
    rw [hrest, replaceLoop, List.intercalate_singleton, List.length_singleton, Nat.sub_self,
      Nat.add_zero, if_pos hcount]
  | @cut _ before after pieces hfirst hpieces ih =>
    have hpos := hpieces.length_pos
    rw [List.length_cons] at hfuel ⊢
    obtain ⟨fuel, rfl⟩ := Nat.exists_eq_succ_of_ne_zero (show fuel ≠ 0 by omega)
    have hstep := replaceLoop_step hfirst newpat fuel [] count
    rw [List.nil_append, List.length_nil, List.nil_append] at hstep
    rw [hstep, Nat.add_sub_cancel]
    by_cases hlt : count < INT_MAX
    · have hsum : count + 1 + (pieces.length - 1) = count + pieces.length := by omega
      rw [if_pos hlt, replaceLoop_append, ih (by omega) hlt, hsum,
        List.intercalate_cons_of_ne_nil hpieces.ne_nil]
      by_cases hle : count + pieces.length ≤ INT_MAX
      · rw [if_pos hle, if_pos hle]
        rfl
      · rw [if_neg hle, if_neg hle]
        rfl
    · rw [if_neg hlt, if_neg (by omega)]

/-- More rounds do not change what the loop returns. -/
theorem replaceLoop_mono {fuel fuel' : ℕ} (hle : fuel ≤ fuel') {pos : Option ℕ} {count : ℕ}
    {r : List Char × ℕ} (h : replaceLoop pattern newpat fuel str pos count = some r) :
    replaceLoop pattern newpat fuel' str pos count = some r := by
  induction fuel generalizing fuel' str pos count with
  | zero =>
    cases pos with
    | none => rwa [replaceLoop] at h ⊢
    | some pos => exact absurd h.symm (Option.some_ne_none r)
  | succ fuel ih =>
    cases pos with
    | none => rwa [replaceLoop] at h ⊢
    | some pos =>
      obtain ⟨fuel', rfl⟩ := Nat.exists_eq_succ_of_ne_zero (show fuel' ≠ 0 by omega)
      rw [replaceLoop] at h ⊢
      by_cases hlt : count < INT_MAX
      · rw [if_pos hlt] at h ⊢
        exact ih (by omega) h
      · rw [if_neg hlt] at h
        exact absurd h.symm (Option.some_ne_none r)

/-- The string is changed exactly at the leftmost occurrences, and what is put in takes no part
in the search. -/
theorem replace_all (hpattern : pattern ≠ []) (str newpat : List Char) :
    ∃ pieces, Leftmost pattern str pieces ∧ pattern.intercalate pieces = str ∧
      (pieces.length - 1 ≤ INT_MAX → ∀ fuel, str.length ≤ fuel →
        replace fuel str pattern newpat =
          some (newpat.intercalate pieces, pieces.length - 1)) ∧
      ∀ fuel done rest count,
        replaceLoop pattern newpat fuel (done ++ rest)
            (find (done ++ rest) pattern done.length) count =
          (replaceLoop pattern newpat fuel rest (find rest pattern 0) count).map
            fun (str, count) => (done ++ str, count) := by
  obtain ⟨pieces, hpieces⟩ := exists_leftmost hpattern str
  refine ⟨pieces, hpieces, hpieces.intercalate_eq, ?_, fun fuel done rest count =>
    replaceLoop_append fuel done rest count⟩
  intro hint fuel hfuel
  have hlen := hpieces.length_le hpattern
  rw [replace, replaceLoop_eq hpieces (by omega) (Nat.zero_le _), Nat.zero_add, if_pos hint]

/-- Overlapping occurrences, and a replacement that contains the pattern. -/
theorem replace_all_overlapping :
    ∃ pieces, Leftmost ['a', 'a'] ['a', 'a', 'a'] pieces ∧
      ['a', 'a'].intercalate pieces = ['a', 'a', 'a'] ∧
      (pieces.length - 1 ≤ INT_MAX → ∀ fuel, 3 ≤ fuel →
        replace fuel ['a', 'a', 'a'] ['a', 'a'] ['b', 'a'] =
          some (['b', 'a'].intercalate pieces, pieces.length - 1)) ∧
      ∀ fuel done rest count,
        replaceLoop ['a', 'a'] ['b', 'a'] fuel (done ++ rest)
            (find (done ++ rest) ['a', 'a'] done.length) count =
          (replaceLoop ['a', 'a'] ['b', 'a'] fuel rest (find rest ['a', 'a'] 0) count).map
            fun (str, count) => (done ++ str, count) :=
  replace_all (by decide) ['a', 'a', 'a'] ['b', 'a']

example : replace 3 ['a', 'a', 'a'] ['a', 'a'] ['b', 'a'] = some (['b', 'a', 'a'], 1) := by decide

/-- More occurrences than an `int` can count. -/
theorem replace_overflows : ¬ ∀ str pattern newpat : List Char, pattern ≠ [] →
    ∃ pieces, Leftmost pattern str pieces ∧
      ∃ fuel, replace fuel str pattern newpat =
        some (newpat.intercalate pieces, pieces.length - 1) := by
  intro h
  obtain ⟨pieces, hpieces, fuel, hrun⟩ :=
    h (List.replicate (INT_MAX + 1) 'a') ['a'] [] (List.cons_ne_nil _ _)
  have hlen := congrArg List.length (hpieces.unique (leftmost_replicate 'a' (INT_MAX + 1)))
  rw [List.length_replicate] at hlen
  rw [replace] at hrun
  have hmore := replaceLoop_mono (Nat.le_add_right fuel pieces.length) hrun
  rw [replaceLoop_eq hpieces (by omega) (Nat.zero_le _), if_neg (by omega)] at hmore
  exact Option.some_ne_none _ hmore.symm

/-- What the loop returns is what its rounds have made of the string. -/
theorem replaceLoop_rounds {fuel : ℕ} {pos : Option ℕ} {count : ℕ} {r : List Char × ℕ}
    (h : replaceLoop pattern newpat fuel str pos count = some r) :
    (replaceRound pattern newpat)^[fuel] (str, pos) = (r.1, none) := by
  induction fuel generalizing str pos count with
  | zero =>
    cases pos with
    | none =>
      rw [replaceLoop, Option.some_inj] at h
      rw [← h]
      rfl
    | some pos => exact absurd h.symm (Option.some_ne_none r)
  | succ fuel ih =>
    cases pos with
    | none =>
      rw [replaceLoop, Option.some_inj] at h
      rw [← h]
      exact Function.iterate_fixed rfl _
    | some pos =>
      rw [replaceLoop] at h
      by_cases hlt : count < INT_MAX
      · rw [if_pos hlt] at h
        exact ih h
      · rw [if_neg hlt] at h
        exact absurd h.symm (Option.some_ne_none r)

/-- One time round from the first occurrence in what is not finished. -/
theorem replaceRound_first (h : FirstAt pattern rest before after) (done : List Char) :
    replaceRound pattern newpat (done ++ rest, find (done ++ rest) pattern done.length) =
      (done ++ before ++ newpat ++ after,
        find (done ++ before ++ newpat ++ after) pattern (done ++ before ++ newpat).length) := by
  have hpos : done.length + before.length = (done ++ before).length := List.length_append.symm
  have hstr : done ++ rest = done ++ before ++ (pattern ++ after) := by
    rw [h.eq, List.append_assoc, List.append_assoc]
  rw [find_first h, replaceRound, hpos, hstr, List.take_left, ← List.drop_drop, List.drop_left,
    List.drop_left, ← List.length_append]

/-- As many rounds as there are occurrences. -/
theorem rounds_leftmost (h : Leftmost pattern rest pieces) (done : List Char) :
    ((replaceRound pattern newpat)^[pieces.length - 1]
      (done ++ rest, find (done ++ rest) pattern done.length)).2 = none := by
  induction h generalizing done with
  | last hnot => exact find_none hnot done
  | @cut _ before after pieces hfirst hpieces ih =>
    have hpos := hpieces.length_pos
    have hlen : (before :: pieces).length - 1 = pieces.length - 1 + 1 := by
      rw [List.length_cons]
      omega
    rw [hlen, Function.iterate_succ_apply, replaceRound_first hfirst]
    exact ih (done ++ before ++ newpat)

/-- An empty pattern is found where the search begins. -/
theorem find_nil {pos : ℕ} (h : pos ≤ str.length) : find str [] pos = some pos := by
  have hfirst : FirstAt [] (str.drop pos) [] (str.drop pos) :=
    ⟨rfl, fun u _ _ => Nat.zero_le u.length⟩
  rw [find, if_pos h, dropInfix?_eq_some.mpr hfirst]
  rfl

/-- With an empty pattern the position never gets past the end of the string. -/
theorem rounds_nil (newpat : List Char) (n : ℕ) (str : List Char) {pos : ℕ}
    (h : pos ≤ str.length) :
    ∃ str' pos', pos' ≤ str'.length ∧
      (replaceRound [] newpat)^[n] (str, some pos) = (str', some pos') := by
  induction n generalizing str pos with
  | zero => exact ⟨str, pos, h, rfl⟩
  | succ n ih =>
    have hnext : pos + newpat.length ≤ (str.take pos ++ newpat ++ str.drop pos).length := by
      rw [List.length_append, List.length_append, List.length_take, List.length_drop]
      omega
    obtain ⟨str', pos', hle, hrun⟩ := ih _ hnext
    refine ⟨str', pos', hle, ?_⟩
    rw [Function.iterate_succ_apply, replaceRound, List.length_nil, Nat.add_zero, find_nil hnext]
    exact hrun

theorem not_replaceEnds_nil (str newpat : List Char) : ¬ ReplaceEnds str [] newpat := by
  intro h
  obtain ⟨n, hn⟩ := h
  obtain ⟨str', pos', -, hrun⟩ := rounds_nil newpat n str (Nat.zero_le _)
  rw [find_nil (Nat.zero_le _), hrun] at hn
  exact Option.some_ne_none pos' hn

/-- The loop ends for every pattern that takes something away. -/
theorem replaceEnds_iff (str pattern newpat : List Char) :
    ReplaceEnds str pattern newpat ↔ pattern ≠ [] := by
  constructor
  · intro h hnil
    rw [hnil] at h
    exact not_replaceEnds_nil str newpat h
  · intro hpattern
    obtain ⟨pieces, hpieces⟩ := exists_leftmost hpattern str
    exact ⟨pieces.length - 1, rounds_leftmost hpieces []⟩

/-- An empty pattern in an empty string. -/
theorem replace_hangs : ¬ ∀ str pattern newpat : List Char, ReplaceEnds str pattern newpat := by
  intro h
  exact not_replaceEnds_nil [] [] (h [] [] [])

/-- However long the loop is given, it returns nothing for an empty pattern. -/
theorem replace_nil (fuel : ℕ) (str newpat : List Char) : replace fuel str [] newpat = none := by
  rw [Option.eq_none_iff_forall_not_mem]
  intro r hr
  have hrounds := replaceLoop_rounds hr
  obtain ⟨str', pos', -, hrun⟩ := rounds_nil newpat fuel str (Nat.zero_le _)
  rw [find_nil (Nat.zero_le _), hrun] at hrounds
  exact Option.some_ne_none pos' (congrArg Prod.snd hrounds)

end NativeLib.Utils
