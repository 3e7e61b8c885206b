import Mathlib.Algebra.Group.Nat.Defs
import Mathlib.Tactic.Common
import NativeLib.Memory.Fields

/-! A memory of bytes, and the numbers of several bytes in it, the lowest byte first. -/

namespace NativeLib.Arm64

open NativeLib.Memory (append_inj exists_append)

variable {w n : ℕ}

/-- The number in the `n` bytes at an address. -/
def load : (n : ℕ) → (BitVec w → BitVec 8) → BitVec w → BitVec (8 * n)
  | 0, _, _ => 0#0
  | n + 1, mem, a => load n mem (a + 1) ++ mem a

/-- Put a number into the `n` bytes at an address. -/
def store (n : ℕ) (mem : BitVec w → BitVec 8) (a : BitVec w) (val : BitVec (8 * n)) :
    BitVec w → BitVec 8 :=
  fun b => if (b - a).toNat < n then val.extractLsb' (8 * (b - a).toNat) 8 else mem b

/-- `b` is one of the `n` addresses from `a` on, past the last address if need be. -/
def Spans (a : BitVec w) (n : ℕ) (b : BitVec w) : Prop := (b - a).toNat < n

instance (a : BitVec w) (n : ℕ) (b : BitVec w) : Decidable (Spans a n b) :=
  inferInstanceAs (Decidable (_ < _))

theorem add_ofNat_add (a : BitVec w) (i j : ℕ) :
    a + BitVec.ofNat w i + BitVec.ofNat w j = a + BitVec.ofNat w (i + j) := by
  rw [BitVec.add_assoc, BitVec.ofNat_add]

theorem sub_self_add (a b : BitVec w) : a + b - a = b := by
  rw [BitVec.add_comm, BitVec.add_sub_cancel]

theorem spans_add {a : BitVec w} {i : ℕ} (hi : i < n) : Spans a n (a + BitVec.ofNat w i) := by
  unfold Spans
  rw [sub_self_add, BitVec.toNat_ofNat]
  exact Nat.lt_of_le_of_lt (Nat.mod_le _ _) hi

/-- The addresses of a range are counted from its first. -/
theorem spans_iff {a b : BitVec w} : Spans a n b ↔ ∃ i < n, b = a + BitVec.ofNat w i := by
  refine ⟨fun h => ⟨(b - a).toNat, h, ?_⟩, ?_⟩
  · rw [BitVec.ofNat_toNat, BitVec.setWidth_eq, BitVec.add_comm, BitVec.sub_add_cancel]
  · rintro ⟨i, hi, rfl⟩
    exact spans_add hi

/-- A range that does not run over the end. -/
theorem spans_iff_toNat {a b : BitVec w} (h : a.toNat + n ≤ 2 ^ w) :
    Spans a n b ↔ a.toNat ≤ b.toNat ∧ b.toNat < a.toNat + n := by
  have hb := b.isLt
  unfold Spans
  by_cases hle : a.toNat ≤ b.toNat
  · rw [BitVec.toNat_sub_of_le (BitVec.le_def.mpr hle)]
    omega
  · rw [BitVec.toNat_sub, Nat.mod_eq_of_lt (by omega)]
    omega

/-- What is read is told byte by byte. -/
theorem load_eq_iff {mem : BitVec w → BitVec 8} {a : BitVec w} {val : BitVec (8 * n)} :
    load n mem a = val ↔ ∀ i < n, mem (a + BitVec.ofNat w i) = val.extractLsb' (8 * i) 8 := by
  induction n generalizing a with
  | zero => exact ⟨fun _ i hi => absurd hi (Nat.not_lt_zero i), fun _ => BitVec.of_length_zero.symm⟩
  | succ n ih =>
    obtain ⟨hi, lo, rfl⟩ := exists_append (m := 8 * n) (n := 8) val
    have hfst : (hi ++ lo).extractLsb' (8 * 0) 8 = lo := BitVec.extractLsb'_append_eq_right
    have hrest : ∀ i, (hi ++ lo).extractLsb' (8 * (i + 1)) 8 = hi.extractLsb' (8 * i) 8 :=
      fun i => BitVec.extractLsb'_append_eq_of_le (by omega)
    have hnext : ∀ i, a + 1 + BitVec.ofNat w i = a + BitVec.ofNat w (i + 1) := by
      intro i
      rw [Nat.add_comm, ← add_ofNat_add]
      rfl
    unfold load
    rw [append_inj, ih]
    refine ⟨?_, fun h => ⟨fun i hi' => ?_, ?_⟩⟩
    · rintro ⟨htail, hhead⟩ i hi'
      cases i with
      | zero => rw [BitVec.add_zero, hhead, hfst]
      | succ i => rw [← hnext, htail i (by omega), hrest]
    · rw [hnext, h (i + 1) (by omega), hrest]
    · have h0 := h 0 (by omega)
      rwa [BitVec.add_zero, hfst] at h0

theorem load_congr {mem mem' : BitVec w → BitVec 8} {a : BitVec w}
    (h : ∀ b, Spans a n b → mem' b = mem b) : load n mem' a = load n mem a := by
  rw [load_eq_iff]
  intro i hi
  rw [h _ (spans_add hi)]
  exact load_eq_iff.mp rfl i hi

theorem store_out {mem : BitVec w → BitVec 8} {a b : BitVec w} {val : BitVec (8 * n)}
    (h : ¬ Spans a n b) : store n mem a val b = mem b := if_neg h

theorem load_store (mem : BitVec w → BitVec 8) (a : BitVec w) (val : BitVec (8 * n))
    (hn : n ≤ 2 ^ w) : load n (store n mem a val) a = val := by
  rw [load_eq_iff]
  intro i hi
  have hoff : (a + BitVec.ofNat w i - a).toNat = i := by
    rw [sub_self_add, BitVec.toNat_ofNat, Nat.mod_eq_of_lt (by omega)]
  unfold store
  rw [hoff, if_pos hi]

/-- Eight bytes are two words, the lower one first. -/
theorem load_words {mem : BitVec w → BitVec 8} {a : BitVec w} :
    load 8 mem a = load 4 mem (a + 4) ++ load 4 mem a := by
  have hlo := load_eq_iff.mp (rfl : load 4 mem a = _)
  have hhi := load_eq_iff.mp (rfl : load 4 mem (a + 4) = _)
  rw [load_eq_iff]
  intro i hi
  by_cases h : i < 4
  · rw [hlo i h]
    exact (BitVec.extractLsb'_append_eq_of_add_le (by omega)).symm
  · obtain ⟨j, rfl⟩ : ∃ j, i = 4 + j := ⟨i - 4, by omega⟩
    rw [← add_ofNat_add]
    refine (hhi j (by omega)).trans ?_
    rw [BitVec.extractLsb'_append_eq_of_le (by omega)]
    congr 1
    omega

/-- The words stand one after the other from an address on. -/
def CodeAt (mem : BitVec w → BitVec 8) : BitVec w → List (BitVec 32) → Prop
  | _, [] => True
  | a, word :: words => load 4 mem a = word ∧ CodeAt mem (a + 4) words

instance (mem : BitVec w → BitVec 8) :
    (a : BitVec w) → (words : List (BitVec 32)) → Decidable (CodeAt mem a words)
  | _, [] => inferInstanceAs (Decidable True)
  | a, _ :: words =>
    haveI := instDecidableCodeAt mem (a + 4) words
    inferInstanceAs (Decidable (_ ∧ _))

/-- The address of a word. -/
theorem add_four_mul (a : BitVec w) (i : ℕ) :
    a + 4 + BitVec.ofNat w (4 * i) = a + BitVec.ofNat w (4 * (i + 1)) := by
  rw [Nat.mul_add, Nat.add_comm, ← add_ofNat_add]
  rfl

theorem codeAt_append {mem : BitVec w → BitVec 8} {a : BitVec w} {ws ws' : List (BitVec 32)} :
    CodeAt mem a (ws ++ ws') ↔
      CodeAt mem a ws ∧ CodeAt mem (a + BitVec.ofNat w (4 * ws.length)) ws' := by
  induction ws generalizing a with
  | nil => simp [CodeAt]
  | cons word ws ih =>
    rw [List.cons_append, CodeAt, CodeAt, ih, List.length_cons, add_four_mul, and_assoc]

theorem codeAt_iff {mem : BitVec w → BitVec 8} {a : BitVec w} {words : List (BitVec 32)} :
    CodeAt mem a words ↔
      ∀ i word, words[i]? = some word → load 4 mem (a + BitVec.ofNat w (4 * i)) = word := by
  induction words generalizing a with
  | nil => simp [CodeAt]
  | cons first words ih =>
    rw [CodeAt, ih]
    refine ⟨?_, fun h => ⟨?_, fun i word hi => ?_⟩⟩
    · rintro ⟨hfirst, hrest⟩ i word hi
      cases i with
      | zero =>
        obtain rfl : first = word := Option.some.inj hi
        rwa [Nat.mul_zero, BitVec.add_zero]
      | succ i => exact add_four_mul a i ▸ hrest i word hi
    · have h0 := h 0 first rfl
      rwa [Nat.mul_zero, BitVec.add_zero] at h0
    · exact add_four_mul a i ▸ h (i + 1) word hi

/-- Code stands as long as its bytes do. -/
theorem CodeAt.congr {mem mem' : BitVec w → BitVec 8} {a : BitVec w} {words : List (BitVec 32)}
    (h : CodeAt mem a words) (hmem : ∀ b, Spans a (4 * words.length) b → mem' b = mem b) :
    CodeAt mem' a words := by
  rw [codeAt_iff] at h ⊢
  intro i word hi
  have hlt := (List.getElem?_eq_some_iff.mp hi).1
  rw [← h i word hi]
  refine load_congr fun b hb => hmem b ?_
  obtain ⟨j, hj, rfl⟩ := spans_iff.mp hb
  rw [add_ofNat_add]
  exact spans_add (by omega)

/-- Put words one after the other into memory. -/
def putWords (mem : BitVec w → BitVec 8) (a : BitVec w) : List (BitVec 32) → BitVec w → BitVec 8
  | [] => mem
  | word :: words => putWords (store 4 mem a word) (a + 4) words

/-- The words from an address on. -/
def loadWords (mem : BitVec w → BitVec 8) (a : BitVec w) : ℕ → List (BitVec 32)
  | 0 => []
  | n + 1 => load 4 mem a :: loadWords mem (a + 4) n

@[simp] theorem length_loadWords (mem : BitVec w → BitVec 8) (a : BitVec w) (n : ℕ) :
    (loadWords mem a n).length = n := by
  induction n generalizing a with
  | zero => rfl
  | succ n ih => rw [loadWords, List.length_cons, ih]

theorem codeAt_iff_loadWords {mem : BitVec w → BitVec 8} {a : BitVec w}
    {words : List (BitVec 32)} : CodeAt mem a words ↔ loadWords mem a words.length = words := by
  induction words generalizing a with
  | nil => simp [CodeAt, loadWords]
  | cons word words ih => rw [CodeAt, ih, List.length_cons, loadWords, List.cons.injEq]

/-- The rest of a range. -/
theorem spans_succ {a b : BitVec w} {n : ℕ} (h : Spans (a + 4) (4 * n) b) :
    Spans a (4 * (n + 1)) b := by
  obtain ⟨i, hi, rfl⟩ := spans_iff.mp h
  rw [show (4 : BitVec w) = BitVec.ofNat w 4 from rfl, add_ofNat_add]
  exact spans_add (by omega)

/-- One range after the other, if the two do not go all the way round. -/
theorem not_spans_add {a b : BitVec w} {i k : ℕ} (h : i + k ≤ 2 ^ w) (hb : Spans a i b) :
    ¬ Spans (a + BitVec.ofNat w i) k b := by
  intro hrest
  obtain ⟨j, hj, rfl⟩ := spans_iff.mp hrest
  rw [add_ofNat_add, Spans, sub_self_add, BitVec.toNat_ofNat, Nat.mod_eq_of_lt (by omega)] at hb
  omega

theorem loadWords_congr {mem mem' : BitVec w → BitVec 8} {a : BitVec w} {n : ℕ}
    (h : ∀ b, Spans a (4 * n) b → mem' b = mem b) : loadWords mem' a n = loadWords mem a n := by
  induction n generalizing a with
  | zero => rfl
  | succ n ih =>
    rw [loadWords, loadWords, ih fun b hb => h b (spans_succ hb)]
    rw [load_congr fun b hb => h b (Nat.lt_of_lt_of_le hb (by omega))]

theorem putWords_out {mem : BitVec w → BitVec 8} {a b : BitVec w} {words : List (BitVec 32)}
    (h : ¬ Spans a (4 * words.length) b) : putWords mem a words b = mem b := by
  induction words generalizing mem a with
  | nil => rfl
  | cons word words ih =>
    rw [putWords, ih fun hb => h (spans_succ hb)]
    exact store_out fun hb => h (Nat.lt_of_lt_of_le hb (by rw [List.length_cons]; omega))

/-- What is written does not depend on what was there. -/
theorem putWords_in {mem mem' : BitVec w → BitVec 8} {a b : BitVec w} {words : List (BitVec 32)}
    (h : Spans a (4 * words.length) b) : putWords mem a words b = putWords mem' a words b := by
  induction words generalizing mem mem' a with
  | nil => exact absurd h (Nat.not_lt_zero _)
  | cons word words ih =>
    rw [putWords, putWords]
    by_cases hrest : Spans (a + 4) (4 * words.length) b
    · exact ih hrest
    · have hfirst : Spans a 4 b := by
        obtain ⟨i, hi, rfl⟩ := spans_iff.mp h
        rw [List.length_cons] at hi
        by_contra hlt
        have hge : 4 ≤ i := Nat.le_of_not_lt fun hi' => hlt (spans_add hi')
        refine hrest (spans_iff.mpr ⟨i - 4, by omega, ?_⟩)
        rw [show (4 : BitVec w) = BitVec.ofNat w 4 from rfl, add_ofNat_add]
        congr 2
        omega
      rw [putWords_out hrest, putWords_out hrest]
      exact (if_pos hfirst).trans (if_pos hfirst).symm

theorem store_load (mem : BitVec w → BitVec 8) (a : BitVec w) (n : ℕ) :
    store n mem a (load n mem a) = mem := by
  funext b
  unfold store
  split_ifs with h
  · rw [← load_eq_iff.mp (rfl : load n mem a = _) _ h, BitVec.ofNat_toNat, BitVec.setWidth_eq,
      BitVec.add_comm, BitVec.sub_add_cancel]
  · rfl

theorem putWords_loadWords (mem : BitVec w → BitVec 8) (a : BitVec w) (n : ℕ) :
    putWords mem a (loadWords mem a n) = mem := by
  induction n generalizing a with
  | zero => rfl
  | succ n ih => rw [loadWords, putWords, store_load (n := 4), ih]

/-- Code that has been written is there, if it does not go all the way round. -/
theorem codeAt_putWords (mem : BitVec w → BitVec 8) (a : BitVec w) {words : List (BitVec 32)}
    (h : 4 * words.length ≤ 2 ^ w) : CodeAt (putWords mem a words) a words := by
  induction words generalizing mem a with
  | nil => trivial
  | cons word words ih =>
    rw [List.length_cons] at h
    refine ⟨?_, ih _ _ (by omega)⟩
    -- The first word lies before the others.
    have hapart : ∀ b, Spans a 4 b → ¬ Spans (a + 4) (4 * words.length) b := fun b hb =>
      not_spans_add (i := 4) (by omega) hb
    rw [putWords, load_congr fun b hb => putWords_out (hapart b hb)]
    exact load_store (n := 4) mem a word (by omega)

end NativeLib.Arm64
