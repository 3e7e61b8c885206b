import Mathlib.Tactic.Common

/-! Flags that are kept one a bit in a list of words. -/

namespace NativeLib.Collections

/-- The word with one bit set. -/
def bitMask (w i : ℕ) : BitVec w := 1#w <<< (i % w)

/-- Is the flag set? What lies past the last word is not. -/
def flag {w : ℕ} (words : List (BitVec w)) (i : ℕ) : Bool :=
  words.getD (i / w) 0 &&& bitMask w i ≠ 0

def setFlag {w : ℕ} (words : List (BitVec w)) (i : ℕ) : List (BitVec w) :=
  words.modify (i / w) (· ||| bitMask w i)

def clearFlag {w : ℕ} (words : List (BitVec w)) (i : ℕ) : List (BitVec w) :=
  words.modify (i / w) (· &&& ~~~ bitMask w i)

variable {w : ℕ} {words : List (BitVec w)} {i j : ℕ}

theorem getLsbD_bitMask (hw : 0 < w) (k : ℕ) :
    (bitMask w i).getLsbD k = decide (k = i % w) := by
  have hlt := Nat.mod_lt i hw
  unfold bitMask
  rw [BitVec.getLsbD_shiftLeft, BitVec.getLsbD_one]
  by_cases hk : k = i % w
  · subst hk
    simp [hlt, hw]
  · simp only [hk, decide_false]
    by_cases hkw : k < i % w
    · simp [hkw]
    · simp [show ¬ k - i % w = 0 by omega]

theorem flag_eq (hw : 0 < w) : flag words i = (words.getD (i / w) 0).getLsbD (i % w) := by
  have hlt := Nat.mod_lt i hw
  obtain ⟨word, hword⟩ : ∃ word, word = words.getD (i / w) 0 := ⟨_, rfl⟩
  unfold flag
  rw [← hword, Bool.eq_iff_iff, decide_eq_true_iff]
  constructor
  · intro hne
    by_contra hbit
    refine hne (BitVec.eq_of_getLsbD_eq fun k hk => ?_)
    rw [BitVec.getLsbD_and, getLsbD_bitMask hw]
    by_cases hki : k = i % w
    · subst hki
      simpa using hbit
    · simp [hki]
  · intro hbit hzero
    have hk := congrArg (·.getLsbD (i % w)) hzero
    simp [getLsbD_bitMask hw, hbit] at hk

theorem getD_modify (f : BitVec w → BitVec w) {k : ℕ} (hk : k < words.length) (l : ℕ) :
    (words.modify k f).getD l 0 = if l = k then f (words.getD k 0) else words.getD l 0 := by
  rw [List.getD_eq_getElem?_getD, List.getElem?_modify, List.getD_eq_getElem?_getD,
    List.getD_eq_getElem?_getD]
  by_cases hl : l = k
  · subst hl
    simp [hk]
  · simp [hl, Ne.symm hl]

/-- The word and the bit tell the flag. -/
theorem div_mod_inj (h : i / w = j / w) (h' : i % w = j % w) : i = j := by
  rw [← Nat.div_add_mod i w, ← Nat.div_add_mod j w, h, h']

/-- A flag that is set, and the others. -/
theorem flag_setFlag (hw : 0 < w) (hi : i / w < words.length) :
    flag (setFlag words i) j = if j = i then true else flag words j := by
  rw [flag_eq hw, flag_eq hw, setFlag, getD_modify _ hi]
  by_cases hword : j / w = i / w
  · rw [if_pos hword, hword, BitVec.getLsbD_or, getLsbD_bitMask hw]
    by_cases hji : j = i
    · simp [hji]
    · have hbit : j % w ≠ i % w := fun hbit => hji (div_mod_inj hword hbit)
      simp [hji, hbit]
  · rw [if_neg hword, if_neg (fun hji : j = i => hword (hji ▸ rfl))]

/-- A flag that is cleared, and the others. -/
theorem flag_clearFlag (hw : 0 < w) (hi : i / w < words.length) :
    flag (clearFlag words i) j = if j = i then false else flag words j := by
  rw [flag_eq hw, flag_eq hw, clearFlag, getD_modify _ hi]
  by_cases hword : j / w = i / w
  · have hlt := Nat.mod_lt j hw
    rw [if_pos hword, hword, BitVec.getLsbD_and, BitVec.getLsbD_not, getLsbD_bitMask hw]
    by_cases hji : j = i
    · simp [hji]
    · have hbit : j % w ≠ i % w := fun hbit => hji (div_mod_inj hword hbit)
      simp [hji, hbit, hlt]
  · rw [if_neg hword, if_neg (fun hji : j = i => hword (hji ▸ rfl))]

@[simp] theorem length_setFlag : (setFlag words i).length = words.length := List.length_modify ..

@[simp] theorem length_clearFlag : (clearFlag words i).length = words.length :=
  List.length_modify ..

/-- Words that are zero have no flag set. -/
theorem flag_replicate (n i : ℕ) : flag (List.replicate n (0 : BitVec w)) i = false := by
  have hget : (List.replicate n (0 : BitVec w)).getD (i / w) 0 = 0 := by
    rw [List.getD_eq_getElem?_getD, List.getElem?_replicate]
    split_ifs <;> rfl
  rw [flag, hget, decide_eq_false_iff_not, not_not]
  exact BitVec.zero_and ..

end NativeLib.Collections
