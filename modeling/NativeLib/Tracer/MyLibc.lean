import Mathlib.Data.List.Infix
import Mathlib.Data.List.TakeWhile
import Mathlib.Data.Nat.Notation
import Mathlib.Data.Int.Notation

/-! `includes/mylibc.h`: the copies of `strlen`, `strncmp` and `strstr`. A pointer into an
array of `char`s is the rest of the array, `none` the null pointer; a read past the end of the
array has no result. -/

namespace NativeLib.Tracer

abbrev Chars := List Char

def NUL : Char := '\x00'

/-- The string that starts at a pointer: the `char`s before the first `NUL`. -/
def text (s : Chars) : List Char := s.takeWhile (· ≠ NUL)

/-- `c_str()` of a `std::string`. -/
def cStr (s : List Char) : Chars := s ++ [NUL]

/-- `while(*s++) len++;`. -/
def strlenLoop : Chars → Option ℕ
  | [] => none
  | c :: s => if c = NUL then some 0 else (strlenLoop s).map (· + 1)

/-- `my_strlen`. -/
def myStrlen : Option Chars → Option ℕ
  | none => some 0
  | some s => strlenLoop s

/-- `my_strncmp`. -/
def myStrncmp : Chars → Chars → ℕ → Option ℤ
  | _, _, 0 => some 0
  | c :: s1, c' :: s2, n + 1 =>
      if c ≠ c' then some (c.toNat - c'.toNat)
      else if c = NUL then some 0
      else myStrncmp s1 s2 n
  | _, _, _ + 1 => none

/-- `my_strcmp`. -/
def myStrcmp : Chars → Chars → Option ℤ
  | c :: s1, c' :: s2 =>
      if c ≠ c' then some (c.toNat - c'.toNat)
      else if c = NUL then some 0
      else myStrcmp s1 s2
  | _, _ => none

/-- The loops of `my_strstr`: `c` is the first character to find, `find` what comes after. -/
def strstrLoop (c : Char) (find : Chars) (len : ℕ) : Chars → Option (Option Chars)
  | [] => none
  | sc :: s =>
      if sc = NUL then some none
      else if sc ≠ c then strstrLoop c find len s
      else do
        let diff ← myStrncmp s find len
        if diff ≠ 0 then strstrLoop c find len s else some (some (sc :: s))

/-- `my_strstr`. -/
def myStrstr : Option Chars → Option Chars → Option (Option Chars)
  | some s, some (c :: find) =>
      if c ≠ NUL then do
        let len ← myStrlen (some find)
        strstrLoop c find len s
      else some (some s)
  | some _, some [] => none
  | _, _ => some none

variable {s find : Chars}

theorem text_nul : text (NUL :: s) = [] := by simp [text]

theorem text_cons {c : Char} (hc : c ≠ NUL) : text (c :: s) = c :: text s := by simp [text, hc]

theorem nul_notMem_text (s : Chars) : NUL ∉ text s := by
  intro h
  have hne := List.mem_takeWhile_imp (p := fun c => decide (c ≠ NUL)) h
  simp at hne

theorem mem_tail {c : Char} (h : NUL ∈ c :: s) (hc : c ≠ NUL) : NUL ∈ s :=
  (List.mem_cons.mp h).resolve_left (Ne.symm hc)

theorem strlenLoop_eq (h : NUL ∈ s) : strlenLoop s = some (text s).length := by
  induction s with
  | nil => simp at h
  | cons c s ih =>
    by_cases hc : c = NUL
    · rw [strlenLoop, if_pos hc, hc, text_nul]
      rfl
    · rw [strlenLoop, if_neg hc, ih (mem_tail h hc), text_cons hc]
      rfl

/-- Comparing a whole string decides whether it is where the other pointer points. -/
theorem myStrncmp_eq (hs : NUL ∈ s) (hf : NUL ∈ find) :
    ∃ diff, myStrncmp s find (text find).length = some diff ∧
      (diff = 0 ↔ text find <+: text s) := by
  induction find generalizing s with
  | nil => simp at hf
  | cons c find ih =>
    by_cases hc : c = NUL
    · rw [hc, text_nul, List.length_nil]
      exact ⟨0, by rw [myStrncmp], by simp⟩
    · obtain ⟨c', s, rfl⟩ := List.exists_cons_of_ne_nil (List.ne_nil_of_mem hs)
      rw [text_cons hc, List.length_cons]
      by_cases heq : c' = c
      · subst heq
        rw [myStrncmp, if_neg (not_not.mpr rfl), if_neg hc, text_cons hc]
        obtain ⟨diff, hdiff, hiff⟩ := ih (mem_tail hs hc) (mem_tail hf hc)
        exact ⟨diff, hdiff, by rw [hiff, List.prefix_cons_inj]⟩
      · rw [myStrncmp, if_pos heq]
        refine ⟨_, rfl, iff_of_false ?_ ?_⟩
        · intro hzero
          apply heq
          apply Char.toNat_inj.mp
          omega
        · by_cases hnul : c' = NUL
          · simp [hnul, text_nul]
          · rw [text_cons hnul, List.cons_prefix_cons]
            exact fun h => heq h.1.symm

/-- Comparing up to any length stays within two strings. -/
theorem exists_myStrncmp (hs : NUL ∈ s) (hf : NUL ∈ find) (n : ℕ) :
    ∃ diff, myStrncmp s find n = some diff := by
  induction n generalizing s find with
  | zero => exact ⟨0, by rw [myStrncmp]⟩
  | succ n ih =>
    obtain ⟨c, s, rfl⟩ := List.exists_cons_of_ne_nil (List.ne_nil_of_mem hs)
    obtain ⟨c', find, rfl⟩ := List.exists_cons_of_ne_nil (List.ne_nil_of_mem hf)
    rw [myStrncmp]
    by_cases heq : c = c'
    · subst heq
      rw [if_neg (not_not.mpr rfl)]
      by_cases hc : c = NUL
      · exact ⟨0, if_pos hc⟩
      · rw [if_neg hc]
        exact ih (mem_tail hs hc) (mem_tail hf hc)
    · exact ⟨_, if_pos heq⟩

theorem strstrLoop_eq {c : Char} (hs : NUL ∈ s) (hf : NUL ∈ find) :
    ∃ r, strstrLoop c find (text find).length s = some r ∧
      (r.isSome = true ↔ c :: text find <:+: text s) := by
  induction s with
  | nil => simp at hs
  | cons sc s ih =>
    by_cases hsc : sc = NUL
    · rw [strstrLoop, if_pos hsc, hsc, text_nul]
      exact ⟨none, rfl, by simp⟩
    · obtain ⟨r, hr, hiff⟩ := ih (mem_tail hs hsc)
      rw [strstrLoop, if_neg hsc, text_cons hsc, List.infix_cons_iff, List.cons_prefix_cons]
      by_cases heq : sc = c
      · obtain ⟨diff, hdiff, hzero⟩ := myStrncmp_eq (mem_tail hs hsc) hf
        rw [if_neg (not_not.mpr heq), hdiff, Option.bind_eq_bind, Option.bind_some, ← hzero]
        by_cases hd : diff = 0
        · rw [if_neg (not_not.mpr hd)]
          exact ⟨_, rfl, by simp [hd, heq]⟩
        · rw [if_pos hd]
          exact ⟨r, hr, by simp [hd, hiff]⟩
      · rw [if_pos heq]
        exact ⟨r, hr, by simp [Ne.symm heq, hiff]⟩

/-- `my_strstr` on strings never reads past their ends, and finds what is a part. -/
theorem myStrstr_eq (hs : NUL ∈ s) (hf : NUL ∈ find) :
    ∃ r, myStrstr (some s) (some find) = some r ∧
      (r.isSome = true ↔ text find <:+: text s) := by
  obtain ⟨c, find, rfl⟩ := List.exists_cons_of_ne_nil (List.ne_nil_of_mem hf)
  by_cases hc : c = NUL
  · rw [myStrstr, if_neg (not_not.mpr hc), hc, text_nul]
    exact ⟨some s, rfl, by simp⟩
  · rw [myStrstr, if_pos hc, myStrlen, strlenLoop_eq (mem_tail hf hc), text_cons hc]
    exact strstrLoop_eq hs (mem_tail hf hc)

/-- Two strings are equal if their comparison is zero. -/
theorem myStrcmp_eq (hs : NUL ∈ s) (hf : NUL ∈ find) :
    ∃ diff, myStrcmp s find = some diff ∧ (diff = 0 ↔ text s = text find) := by
  induction s generalizing find with
  | nil => simp at hs
  | cons c s ih =>
    obtain ⟨c', find, rfl⟩ := List.exists_cons_of_ne_nil (List.ne_nil_of_mem hf)
    by_cases heq : c = c'
    · subst heq
      by_cases hc : c = NUL
      · exact ⟨0, by rw [myStrcmp, if_neg (not_not.mpr rfl), if_pos hc], by simp [hc, text_nul]⟩
      · obtain ⟨diff, hdiff, hiff⟩ := ih (mem_tail hs hc) (mem_tail hf hc)
        refine ⟨diff, by rw [myStrcmp, if_neg (not_not.mpr rfl), if_neg hc, hdiff], ?_⟩
        rw [hiff, text_cons hc, text_cons hc, List.cons_inj_right]
    · refine ⟨_, by rw [myStrcmp, if_pos heq], iff_of_false ?_ ?_⟩
      · intro hzero
        apply heq
        apply Char.toNat_inj.mp
        omega
      · intro htext
        by_cases hc : c = NUL
        · rw [hc, text_nul, text_cons fun hc' => heq (hc.trans hc'.symm)] at htext
          exact List.cons_ne_nil _ _ htext.symm
        · by_cases hc' : c' = NUL
          · rw [hc', text_nul, text_cons hc] at htext
            exact List.cons_ne_nil _ _ htext
          · rw [text_cons hc, text_cons hc'] at htext
            exact heq (List.cons.inj htext).1

theorem text_append (hs : NUL ∉ s) (rest : Chars) : text (s ++ NUL :: rest) = s := by
  induction s with
  | nil => exact text_nul
  | cons c s ih =>
    rw [List.mem_cons, not_or] at hs
    rw [List.cons_append, text_cons (Ne.symm hs.1), ih hs.2]

/-- `c_str()` of a string without `NUL` is all of it. -/
theorem text_cStr (hs : NUL ∉ s) : text (cStr s) = s := text_append hs []

theorem nul_mem_cStr (s : List Char) : NUL ∈ cStr s := by simp [cStr]

end NativeLib.Tracer
