import Mathlib.Data.List.Infix
import Mathlib.Data.List.TakeWhile
import Mathlib.Data.Nat.Notation

/-! `utils/stringUtils.cpp`: `SplitString`, which reads a string stream up to each delimiter. A
delimiter at the very end opens no token. -/

namespace NativeLib.Utils

/-- A `std::istringstream`: what has not been read, and `eofbit`. -/
structure IStringStream where
  unread : List Char
  eofbit : Bool
deriving DecidableEq

/-- `std::getline(stream, token, delimiter)`: the token and the stream afterwards, `none` when it
sets `failbit`. -/
def getlineTo (delimiter : Char) (stream : IStringStream) :
    Option (List Char × IStringStream) :=
  if stream.eofbit then none
  else
    let token := stream.unread.takeWhile (· ≠ delimiter)
    match stream.unread.dropWhile (· ≠ delimiter) with
    | _ :: unread => some (token, ⟨unread, false⟩)
    -- the end comes before a delimiter, and counts as a failure only if nothing was read
    | [] => if token = [] then none else some (token, ⟨[], true⟩)

variable {s token rest : List Char} {d : Char} {stream stream' : IStringStream}

theorem forall_ne_delimiter (h : d ∉ s) : ∀ c ∈ s, decide (c ≠ d) = true := by
  intro c hc
  rw [decide_eq_true_iff]
  exact ne_of_mem_of_not_mem hc h

theorem getlineTo_mem (htoken : d ∉ token) (rest : List Char) :
    getlineTo d ⟨token ++ d :: rest, false⟩ = some (token, ⟨rest, false⟩) := by
  have hall := forall_ne_delimiter htoken
  rw [getlineTo, if_neg Bool.false_ne_true]
  simp only [List.takeWhile_append_of_pos hall, List.dropWhile_append_of_pos hall]
  simp

theorem getlineTo_notMem (hd : d ∉ s) :
    getlineTo d ⟨s, false⟩ = if s = [] then none else some (s, ⟨[], true⟩) := by
  have hall := forall_ne_delimiter hd
  rw [getlineTo, if_neg Bool.false_ne_true]
  simp only [List.takeWhile_eq_self_iff.mpr hall, List.dropWhile_eq_nil_iff.mpr hall]

theorem getlineTo_lt (h : getlineTo d stream = some (token, stream')) :
    stream'.unread.length < stream.unread.length := by
  obtain ⟨s, eofbit⟩ := stream
  cases eofbit with
  | true => exact absurd h.symm (Option.some_ne_none _)
  | false =>
    by_cases hd : d ∈ s
    · obtain ⟨token', rest, rfl, htoken⟩ := List.eq_append_cons_of_mem hd
      rw [getlineTo_mem htoken, Option.some_inj] at h
      obtain ⟨-, rfl⟩ := Prod.mk.inj h
      have hlen : rest.length < (token' ++ d :: rest).length := by
        rw [List.length_append, List.length_cons]
        omega
      exact hlen
    · rw [getlineTo_notMem hd, Option.ite_none_left_eq_some] at h
      obtain ⟨hne, h⟩ := h
      obtain ⟨-, rfl⟩ := Prod.mk.inj (Option.some_inj.mp h)
      exact List.length_pos_iff.mpr hne

/-- The loop of `SplitString`. -/
def splitLoop (delimiter : Char) (stream : IStringStream) (tokens : List (List Char)) :
    List (List Char) :=
  match h : getlineTo delimiter stream with
  | none => tokens
  | some (token, stream) =>
    have := getlineTo_lt h
    splitLoop delimiter stream (tokens ++ [token])
termination_by stream.unread.length

/-- `StringUtils::SplitString`. -/
def splitString (str : List Char) (delimiter : Char) : List (List Char) :=
  splitLoop delimiter ⟨str, false⟩ []

theorem splitLoop_none (h : getlineTo d stream = none) (tokens : List (List Char)) :
    splitLoop d stream tokens = tokens := by
  rw [splitLoop]
  split
  · rfl
  · next heq => rw [h] at heq; exact absurd heq.symm (Option.some_ne_none _)

theorem splitLoop_some (h : getlineTo d stream = some (token, stream'))
    (tokens : List (List Char)) :
    splitLoop d stream tokens = splitLoop d stream' (tokens ++ [token]) := by
  rw [splitLoop]
  split
  · next heq => rw [h] at heq; exact absurd heq (Option.some_ne_none _)
  · next heq =>
    rw [h, Option.some_inj] at heq
    obtain ⟨rfl, rfl⟩ := Prod.mk.inj heq
    rfl

theorem splitLoop_append (stream : IStringStream) (tokens : List (List Char)) :
    splitLoop d stream tokens = tokens ++ splitLoop d stream [] := by
  cases h : getlineTo d stream with
  | none => rw [splitLoop_none h, splitLoop_none h, List.append_nil]
  | some r =>
    obtain ⟨token, stream'⟩ := r
    have := getlineTo_lt h
    rw [splitLoop_some h, splitLoop_some h, splitLoop_append stream' (tokens ++ [token]),
      splitLoop_append stream' ([] ++ [token]), List.nil_append, List.append_assoc]
termination_by stream.unread.length

theorem splitString_nil (d : Char) : splitString [] d = [] := splitLoop_none rfl []

theorem splitString_notMem (hs : s ≠ []) (hd : d ∉ s) : splitString s d = [s] := by
  have hget := getlineTo_notMem hd
  rw [if_neg hs] at hget
  rw [splitString, splitLoop_some hget, splitLoop_none rfl, List.nil_append]

theorem splitString_mem (htoken : d ∉ token) (rest : List Char) :
    splitString (token ++ d :: rest) d = token :: splitString rest d := by
  rw [splitString, splitLoop_some (getlineTo_mem htoken rest), splitLoop_append]
  rfl

/-- A text is empty, or has no delimiter, or is cut at its first one. -/
theorem split_induction {motive : List Char → Prop} (d : Char) (nil : motive [])
    (last : ∀ s, s ≠ [] → d ∉ s → motive s)
    (cut : ∀ token rest, d ∉ token → motive rest → motive (token ++ d :: rest))
    (s : List Char) : motive s := by
  by_cases hd : d ∈ s
  · obtain ⟨token, rest, rfl, htoken⟩ := List.eq_append_cons_of_mem hd
    exact cut token rest htoken (split_induction d nil last cut rest)
  · by_cases hs : s = []
    · rw [hs]
      exact nil
    · exact last s hs hd
termination_by s.length

theorem singleton_suffix_cut (d : Char) (token rest : List Char) :
    [d] <:+ token ++ d :: rest ↔ rest = [] ∨ [d] <:+ rest := by
  rw [List.singleton_suffix_iff_getLast?_eq_some, List.singleton_suffix_iff_getLast?_eq_some,
    List.getLast?_append, List.getLast?_cons]
  cases hlast : rest.getLast? with
  | none => simp [List.getLast?_eq_none_iff.mp hlast]
  | some c =>
    have hne : rest ≠ [] := by
      intro hnil
      rw [hnil] at hlast
      exact Option.some_ne_none c hlast.symm
    simp [hne]

theorem not_suffix_of_notMem (h : d ∉ s) : ¬ [d] <:+ s := by
  intro hsuffix
  exact h (hsuffix.subset (List.mem_singleton_self d))

theorem splitString_eq_nil : splitString s d = [] ↔ s = [] := by
  constructor
  · intro h
    induction s using split_induction d with
    | nil => rfl
    | last s hs hd =>
      rw [splitString_notMem hs hd] at h
      exact absurd h (List.cons_ne_nil s [])
    | cut token rest htoken ih =>
      rw [splitString_mem htoken] at h
      exact absurd h (List.cons_ne_nil _ _)
  · intro h
    rw [h, splitString_nil]

theorem notMem_splitString {token : List Char} (h : token ∈ splitString s d) : d ∉ token := by
  induction s using split_induction d with
  | nil =>
    rw [splitString_nil] at h
    exact absurd h List.not_mem_nil
  | last s hs hd =>
    rw [splitString_notMem hs hd, List.mem_singleton] at h
    rwa [h]
  | cut first rest hfirst ih =>
    rw [splitString_mem hfirst, List.mem_cons] at h
    rcases h with rfl | h
    · exact hfirst
    · exact ih h

theorem intercalate_splitString (s : List Char) (d : Char) :
    [d].intercalate (splitString s d) ++ (if [d] <:+ s then [d] else []) = s := by
  induction s using split_induction d with
  | nil => rw [splitString_nil]; simp
  | last s hs hd =>
    rw [splitString_notMem hs hd, if_neg (not_suffix_of_notMem hd), List.intercalate_singleton,
      List.append_nil]
  | cut token rest htoken ih =>
    rw [splitString_mem htoken]
    by_cases hrest : rest = []
    · rw [hrest, splitString_nil, List.intercalate_singleton,
        if_pos ((singleton_suffix_cut d token []).mpr (.inl rfl))]
    · have hne : splitString rest d ≠ [] := by rwa [Ne, splitString_eq_nil]
      have hlast : ([d] <:+ token ++ d :: rest) = ([d] <:+ rest) := by
        rw [singleton_suffix_cut, or_iff_right hrest]
      simp only [hlast]
      rw [List.intercalate_cons_of_ne_nil hne, List.append_assoc, ih, List.append_assoc]
      rfl

theorem length_splitString (s : List Char) (d : Char) :
    (splitString s d).length = s.count d + if s = [] ∨ [d] <:+ s then 0 else 1 := by
  induction s using split_induction d with
  | nil => rw [splitString_nil]; rfl
  | last s hs hd =>
    rw [splitString_notMem hs hd, List.count_eq_zero_of_not_mem hd,
      if_neg (not_or_intro hs (not_suffix_of_notMem hd))]
    rfl
  | cut token rest htoken ih =>
    have hlast : (token ++ d :: rest = [] ∨ [d] <:+ token ++ d :: rest) =
        (rest = [] ∨ [d] <:+ rest) := by
      rw [singleton_suffix_cut, eq_iff_iff]
      exact or_iff_right (List.append_ne_nil_of_right_ne_nil token (List.cons_ne_nil d rest))
    simp only [hlast]
    rw [splitString_mem htoken, List.length_cons, ih, List.count_append,
      List.count_eq_zero_of_not_mem htoken, List.count_cons_self]
    omega

/-- Nothing is lost but one delimiter at the very end. -/
theorem splitString_spec (s : List Char) (d : Char) :
    (∀ token ∈ splitString s d, d ∉ token) ∧
      (¬ [d] <:+ s → [d].intercalate (splitString s d) = s) ∧
      ([d] <:+ s → [d].intercalate (splitString s d) ++ [d] = s) ∧
      (splitString s d).length = s.count d + if s = [] ∨ [d] <:+ s then 0 else 1 := by
  have hjoin := intercalate_splitString s d
  refine ⟨fun token h => notMem_splitString h, ?_, ?_, length_splitString s d⟩
  · intro hlast
    rwa [if_neg hlast, List.append_nil] at hjoin
  · intro hlast
    rwa [if_pos hlast] at hjoin

end NativeLib.Utils
