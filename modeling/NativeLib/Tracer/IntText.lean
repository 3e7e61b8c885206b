import NativeLib.Collections.Stores
import NativeLib.ProcMaps.Scanf
import NativeLib.Utils.StringUtils

/-! `includes/mylibc.h`: an `int` as decimal text and back. The writer changes the sign of the
number, the reader counts downwards. -/

namespace NativeLib.Tracer

open Collections (stored rowStores rowStores_append map_fst_rowStores map_stored)
open FindSyscall (isSpace)
open ProcMaps (decText decText_digit isSpace_of_isDigit)
open Utils (INT_MAX)

/-- The value of an `int` expression. One that is too large or too small has none. -/
def asInt (x : ℤ) : Option ℤ := if -(INT_MAX + 1 : ℤ) ≤ x ∧ x ≤ INT_MAX then some x else none

theorem tdiv_ten_lt {x : ℤ} (h : 0 < x.tdiv 10) : (x.tdiv 10).toNat < x.toNat := by
  rcases Int.le_total 0 x with hpos | hneg
  · rw [Int.tdiv_eq_ediv_of_nonneg hpos] at h ⊢
    omega
  · have hle := Int.tdiv_nonneg (show 0 ≤ -x by omega) (show (0 : ℤ) ≤ 10 by decide)
    rw [Int.neg_tdiv] at hle
    omega

/-- The loop that counts the digits: `do … while (temp > 0)`. -/
def lenLoop (temp : ℤ) (len : ℕ) : ℕ :=
  if 0 < temp.tdiv 10 then lenLoop (temp.tdiv 10) (len + 1) else len + 1
termination_by temp.toNat
decreasing_by exact tdiv_ten_lt ‹_›

/-- The loop that stores the digits, the last one first. -/
def digitLoop (num i : ℤ) : List (ℤ × Char) :=
  (i, Char.ofNat (num.tmod 10 + 48).toNat) ::
    if 0 < num.tdiv 10 then digitLoop (num.tdiv 10) (i - 1) else []
termination_by num.toNat
decreasing_by exact tdiv_ten_lt ‹_›

/-- A run of `int_to_str`: the size of the buffer, and what is stored in it before, in and after
the loop. -/
structure IntStr where
  size : ℕ
  terminator : ℤ × Char
  digits : List (ℤ × Char)
  sign : List (ℤ × Char)
deriving DecidableEq, Repr

namespace IntStr

def stores (r : IntStr) : List (ℤ × Char) := r.terminator :: r.digits ++ r.sign

/-- The buffer at the end, out of the memory that `malloc` has returned. -/
def buffer (r : IntStr) (fresh : ℤ → Char) : Chars :=
  (List.range r.size).map fun k : ℕ => stored fresh r.stores k

end IntStr

/-- `int_to_str`. -/
def intToStr (num : ℤ) : Option IntStr := do
  let isNegative := decide (num < 0)
  let num ← if isNegative then asInt (-num) else some num
  let len := if isNegative then lenLoop num 0 + 1 else lenLoop num 0
  pure ⟨len + 1, (len, NUL), digitLoop num (len - 1), if isNegative then [(0, '-')] else []⟩

/-- The loop of `my_atoi`. -/
def atoiLoop (n : ℤ) : Chars → Option ℤ
  | [] => none
  | c :: s =>
    if c.isDigit then do
      let tenfold ← asInt (10 * n)
      let n ← asInt (tenfold - (c.toNat - '0'.toNat))
      atoiLoop n s
    else some n

/-- `my_atoi`. -/
def myAtoi (s : Chars) : Option ℤ :=
  match s.dropWhile isSpace with
  | [] => none
  | c :: s => do
    let n ← atoiLoop 0 (if c = '-' ∨ c = '+' then s else c :: s)
    if c = '-' then pure n else asInt (-n)

variable {m n : ℕ}

theorem tdiv_natCast (m : ℕ) : (m : ℤ).tdiv 10 = (m / 10 : ℕ) := by
  rw [Int.tdiv_eq_ediv_of_nonneg (Int.natCast_nonneg m)]
  rfl

/-- The last digit comes off the end. -/
theorem decText_eq (m : ℕ) :
    decText m = (if 0 < m / 10 then decText (m / 10) else []) ++ [(m % 10).digitChar] := by
  rw [decText, Nat.toDigits_eq_if (by decide)]
  by_cases h : m < 10
  · rw [if_pos h, if_neg (by omega), Nat.mod_eq_of_lt h, List.nil_append]
  · rw [if_neg h, if_pos (by omega)]
    rfl

/-- No leading zeros. -/
theorem head?_decText (h : 0 < m) : (decText m).head? ≠ some '0' := by
  induction m using Nat.strong_induction_on with
  | _ m ih =>
    rw [decText_eq]
    by_cases hten : 0 < m / 10
    · have hne : decText (m / 10) ≠ [] := Nat.toDigits_ne_nil
      rw [if_pos hten, List.head?_append_of_ne_nil _ hne]
      exact ih (m / 10) (by omega) hten
    · have hdigit : ∀ d < 10, 0 < d → [d.digitChar].head? ≠ some '0' := by decide
      rw [if_neg hten, List.nil_append]
      exact hdigit (m % 10) (Nat.mod_lt m (by decide)) (by omega)

theorem lenLoop_eq (m len : ℕ) : lenLoop m len = len + (decText m).length := by
  induction m using Nat.strong_induction_on generalizing len with
  | _ m ih =>
    rw [lenLoop, tdiv_natCast, decText_eq, List.length_append, List.length_singleton]
    by_cases h : 0 < m / 10
    · rw [if_pos (by omega), if_pos h, ih (m / 10) (by omega)]
      omega
    · rw [if_neg (by omega), if_neg h]
      rfl

theorem digitChar_eq (h : m < 10) : Char.ofNat ((m : ℤ) + 48).toNat = m.digitChar := by
  have hall : ∀ m < 10, Char.ofNat (m + 48) = m.digitChar := by decide
  exact hall m h

/-- The stores of a row of characters from the place `k` on. -/
def placed (row : List Char) (k : ℕ) : List (ℤ × Char) := rowStores Nat.cast row k

theorem placed_append (row row' : List Char) (k : ℕ) :
    placed (row ++ row') k = placed row k ++ placed row' (k + row.length) :=
  rowStores_append _ _ _ _

/-- The loop stores the digits from the last place down to the place `k`. -/
theorem digitLoop_eq (m k : ℕ) :
    digitLoop m (k + (decText m).length - 1) =
      (placed (decText m) k).reverse := by
  induction m using Nat.strong_induction_on with
  | _ m ih =>
    have hchar : Char.ofNat ((m : ℤ).tmod 10 + 48).toNat = (m % 10).digitChar := by
      rw [Int.tmod_eq_emod_of_nonneg (Int.natCast_nonneg m)]
      exact digitChar_eq (Nat.mod_lt m (by decide))
    obtain ⟨front, hfront⟩ : ∃ front, front = if 0 < m / 10 then decText (m / 10) else [] :=
      ⟨_, rfl⟩
    have htext : decText m = front ++ [(m % 10).digitChar] := by rw [hfront]; exact decText_eq m
    have hlast : (k : ℤ) + (decText m).length - 1 = (k + front.length : ℕ) := by
      rw [htext, List.length_append, List.length_singleton]
      omega
    have hrest : (if 0 < ((m / 10 : ℕ) : ℤ) then
        digitLoop (m / 10 : ℕ) ((k + front.length : ℕ) - 1) else []) =
          (placed front k).reverse := by
      by_cases h : 0 < m / 10
      · rw [if_pos h] at hfront
        rw [if_pos (by omega), hfront, ← ih (m / 10) (by omega)]
        push_cast
        rfl
      · rw [if_neg h] at hfront
        rw [if_neg (by omega), hfront]
        rfl
    rw [digitLoop, tdiv_natCast, hchar, hlast, hrest, htext, placed_append,
      List.reverse_append]
    rfl

/-- The decimal text of a number: a minus sign only if it is negative, and its digits. -/
def decimal (n : ℤ) : List Char := (if n < 0 then ['-'] else []) ++ decText n.natAbs

/-- What `int_to_str` promises: every place of the buffer is stored into once, the loop does not
go below the first one, the text is the decimal one, and `my_atoi` reads the number back. -/
def RoundTrips (n : ℤ) : Prop :=
  ∃ r, intToStr n = some r ∧
    (r.stores.map Prod.fst).Perm ((List.range r.size).map ((↑) : ℕ → ℤ)) ∧
    (∀ store ∈ r.digits, 0 ≤ store.1) ∧
    ∀ fresh, text (r.buffer fresh) = decimal n ∧ myAtoi (r.buffer fresh) = some n

/-- The stores of a text with the `NUL` first, the digits from the end, and the sign last. -/
theorem stores_perm (sign digits : List Char) :
    ((((sign.length + digits.length : ℕ) : ℤ), NUL) ::
        (placed digits sign.length).reverse ++ placed sign 0).Perm
      (placed (cStr (sign ++ digits)) 0) := by
  have hrow : placed (cStr (sign ++ digits)) 0 =
      placed sign 0 ++ placed digits sign.length ++
        [(((sign.length + digits.length : ℕ) : ℤ), NUL)] := by
    rw [cStr, placed_append, placed_append, List.length_append, Nat.zero_add, Nat.zero_add]
    rfl
  rw [hrow, List.cons_append]
  refine (List.Perm.cons _ ?_).trans (List.perm_append_singleton _ _).symm
  exact ((List.reverse_perm _).append_right _).trans List.perm_append_comm

theorem intToStr_eq {n : ℤ} (hlow : -(INT_MAX : ℤ) ≤ n) (hhigh : n ≤ INT_MAX) :
    ∃ sign, decimal n = sign ++ decText n.natAbs ∧
      intToStr n = some ⟨(cStr (decimal n)).length,
        (((sign.length + (decText n.natAbs).length : ℕ) : ℤ), NUL),
        (placed (decText n.natAbs) sign.length).reverse, placed sign 0⟩ := by
  have hlen : lenLoop n.natAbs 0 = (decText n.natAbs).length := by
    rw [lenLoop_eq, Nat.zero_add]
  have hsize : ∀ sign, (cStr (sign ++ decText n.natAbs)).length =
      sign.length + (decText n.natAbs).length + 1 := by
    intro sign
    rw [cStr, List.length_append, List.length_append]
    rfl
  rcases Int.lt_or_le n 0 with hneg | hpos
  · have habs : -n = n.natAbs := by omega
    have hint : asInt (n.natAbs : ℤ) = some (n.natAbs : ℤ) := if_pos (by omega)
    have hlast : (((decText n.natAbs).length + 1 : ℕ) : ℤ) - 1 =
        (1 : ℕ) + (decText n.natAbs).length - 1 := by omega
    refine ⟨['-'], by rw [decimal, if_pos hneg], ?_⟩
    rw [intToStr, habs, decimal, if_pos hneg, hsize]
    simp only [hneg, decide_true, if_true, hint, Option.bind_eq_bind, Option.bind_some, hlen, hlast,
      digitLoop_eq, List.length_singleton, Nat.add_comm 1]
    rfl
  · have habs : (n.natAbs : ℤ) = n := by omega
    have hnneg : ¬ n < 0 := by omega
    have hlast : ((decText n.natAbs).length : ℤ) - 1 =
        (0 : ℕ) + (decText n.natAbs).length - 1 := by omega
    have hdigits := digitLoop_eq n.natAbs 0
    refine ⟨[], by rw [decimal, if_neg hnneg], ?_⟩
    rw [habs] at hlen hdigits
    rw [intToStr, decimal, if_neg hnneg, hsize]
    simp only [hnneg, decide_false, Bool.false_eq_true, if_false, Option.bind_eq_bind,
      Option.bind_some, hlen, hlast, hdigits, List.length_nil, Nat.zero_add]
    rfl

/-- The loop of `my_atoi` on digits, as long as the value fits. -/
theorem atoiLoop_digits {digits : List Char} (hdigits : ∀ c ∈ digits, c.isDigit = true)
    {value : ℕ} (hfits : Nat.ofDigitChars 10 digits value ≤ INT_MAX + 1) :
    atoiLoop (-value) (digits ++ [NUL]) = some (-(Nat.ofDigitChars 10 digits value : ℤ)) := by
  induction digits generalizing value with
  | nil => rfl
  | cons c digits ih =>
    obtain ⟨hc, hdigits⟩ := List.forall_mem_cons.mp hdigits
    rw [Nat.ofDigitChars_cons] at hfits ⊢
    have hgrow : 10 * value + (c.toNat - '0'.toNat) ≤
        Nat.ofDigitChars 10 digits (10 * value + (c.toNat - '0'.toNat)) := by
      rw [Nat.ofDigitChars_eq_ofDigitChars_zero]
      exact (Nat.le_mul_of_pos_left _ (Nat.pow_pos (by decide))).trans (Nat.le_add_right _ _)
    have hzero : '0'.toNat ≤ c.toNat := (Char.isDigit_iff_toNat.mp hc).1
    have htenfold : asInt (10 * -(value : ℤ)) = some (10 * -(value : ℤ)) := if_pos (by omega)
    have hnext : 10 * -(value : ℤ) - (c.toNat - '0'.toNat) =
        -((10 * value + (c.toNat - '0'.toNat) : ℕ) : ℤ) := by omega
    have hint : asInt (-((10 * value + (c.toNat - '0'.toNat) : ℕ) : ℤ)) =
        some (-((10 * value + (c.toNat - '0'.toNat) : ℕ) : ℤ)) := if_pos (by omega)
    rw [List.cons_append, atoiLoop, if_pos hc, htenfold]
    simp only [Option.bind_eq_bind, Option.bind_some, hnext, hint]
    exact ih hdigits hfits

theorem myAtoi_decimal {n : ℤ} (hlow : -(INT_MAX : ℤ) ≤ n) (hhigh : n ≤ INT_MAX) :
    myAtoi (cStr (decimal n)) = some n := by
  have hvalue : Nat.ofDigitChars 10 (decText n.natAbs) 0 = n.natAbs := Nat.ofDigitChars_ten_toDigits
  have hloop : atoiLoop 0 (decText n.natAbs ++ [NUL]) = some (-(n.natAbs : ℤ)) := by
    have h := @atoiLoop_digits (decText n.natAbs) decText_digit 0 (by omega)
    rwa [hvalue] at h
  rcases Int.lt_or_le n 0 with hneg | hpos
  · have habs : -(n.natAbs : ℤ) = n := by omega
    have hdrop : (cStr (['-'] ++ decText n.natAbs)).dropWhile isSpace =
        '-' :: (decText n.natAbs ++ [NUL]) := rfl
    rw [decimal, if_pos hneg, myAtoi, hdrop]
    simp only [true_or, if_true, hloop, Option.bind_eq_bind, Option.bind_some]
    exact congrArg some habs
  · obtain ⟨c, digits, htext⟩ := List.exists_cons_of_ne_nil
      (show decText n.natAbs ≠ [] from Nat.toDigits_ne_nil)
    have hc : c.isDigit = true := decText_digit c (htext ▸ List.mem_cons_self)
    have hspace : ¬ isSpace c = true := by rw [isSpace_of_isDigit hc]; decide
    have hsign : ¬ (c = '-' ∨ c = '+') := by
      intro h
      rcases h with rfl | rfl <;> exact absurd hc (by decide)
    have hint : asInt (-(-(n.natAbs : ℤ))) = some n := by
      have habs : -(-(n.natAbs : ℤ)) = n := by omega
      rw [habs]
      exact if_pos (by omega)
    rw [htext, List.cons_append] at hloop
    rw [decimal, if_neg (by omega), List.nil_append, htext, cStr, myAtoi, List.cons_append,
      List.dropWhile_cons_of_neg hspace]
    simp only [if_neg hsign, if_neg (not_or.mp hsign).1, hloop]
    exact hint

theorem nul_notMem_decimal (n : ℤ) : NUL ∉ decimal n := by
  intro h
  rcases List.mem_append.mp h with h | h
  · by_cases hneg : n < 0
    · rw [if_pos hneg] at h
      exact absurd (List.mem_singleton.mp h) (by decide)
    · rw [if_neg hneg] at h
      exact absurd h List.not_mem_nil
  · exact absurd (decText_digit NUL h) (by decide)

/-- All the stores are those of the text and its `NUL`, in another order. -/
theorem exists_intToStr {n : ℤ} (hlow : -(INT_MAX : ℤ) ≤ n) (hhigh : n ≤ INT_MAX) :
    ∃ r, intToStr n = some r ∧ r.size = (cStr (decimal n)).length ∧
      r.stores.Perm (placed (cStr (decimal n)) 0) ∧ ∀ store ∈ r.digits, 0 ≤ store.1 := by
  obtain ⟨sign, htext, hrun⟩ := intToStr_eq hlow hhigh
  have hperm := stores_perm sign (decText n.natAbs)
  rw [← htext] at hperm
  refine ⟨_, hrun, rfl, hperm, ?_⟩
  intro store hstore
  obtain ⟨x, -, rfl⟩ := List.mem_map.mp (List.mem_reverse.mp hstore)
  exact Int.natCast_nonneg _

/-- Whatever the memory was before. -/
theorem buffer_eq {r : IntStr} {row : Chars} (hsize : r.size = row.length)
    (h : r.stores.Perm (placed row 0)) (fresh : ℤ → Char) : r.buffer fresh = row := by
  rw [IntStr.buffer, hsize]
  exact map_stored (fun _ _ h => Int.natCast_inj.mp h) h fresh

theorem roundTrips {n : ℤ} (hlow : -(INT_MAX : ℤ) ≤ n) (hhigh : n ≤ INT_MAX) : RoundTrips n := by
  obtain ⟨r, hrun, hsize, hperm, hdigits⟩ := exists_intToStr hlow hhigh
  refine ⟨r, hrun, ?_, hdigits, ?_⟩
  · rw [hsize, ← map_fst_rowStores]
    exact hperm.map Prod.fst
  · intro fresh
    rw [buffer_eq hsize hperm fresh]
    exact ⟨text_cStr (nul_notMem_decimal n), myAtoi_decimal hlow hhigh⟩

theorem intToStr_min : intToStr (BitVec.intMin 32).toInt = none := by
  decide

/-- The round trip, for every number whose sign can be changed. -/
theorem roundTrips_iff (n : BitVec 32) : RoundTrips n.toInt ↔ n ≠ BitVec.intMin 32 := by
  constructor
  · intro h hmin
    obtain ⟨r, hrun, -⟩ := h
    rw [hmin, intToStr_min] at hrun
    exact Option.some_ne_none r hrun.symm
  · intro hmin
    have hlow := BitVec.le_toInt n
    have hhigh := BitVec.toInt_lt (x := n)
    have hne : n.toInt ≠ -2 ^ 31 := fun h => hmin (BitVec.eq_of_toInt_eq h)
    have hmax : (INT_MAX : ℤ) = 2 ^ 31 - 1 := rfl
    exact roundTrips (by omega) (by omega)

/-- The smallest `int`. -/
theorem roundTrips_min : ¬ ∀ n : BitVec 32, RoundTrips n.toInt := by
  intro h
  obtain ⟨r, hrun, -⟩ := h (BitVec.intMin 32)
  rw [intToStr_min] at hrun
  exact Option.some_ne_none r hrun.symm

end NativeLib.Tracer
