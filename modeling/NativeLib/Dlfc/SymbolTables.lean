import NativeLib.Dlfc.ElfImg

/-! What the ABI says of the names in a string table and of their two hashes. -/

namespace NativeLib.Dlfc

/-- The name that begins at an offset: the bytes in front of the first `NUL` from there on. -/
def nameAt (strings : List UInt8) (offset : ℕ) : Option (List UInt8) :=
  ((strings.drop offset).idxOf? 0).map fun n => (strings.drop offset).take n

/-- The hash of a name in a GNU hash section: from 5381 on, `h * 33 + c` modulo `2 ^ 32`. -/
def gnuAbiHash (name : List UInt8) : ℕ :=
  name.foldl (fun h c => h * 33 + c.toNat) 5381 % 2 ^ 32

/-- A byte of the hash in a SysV hash section: `h * 16 + c` modulo `2 ^ 32`, with the upper four
bits taken off and added to the lower eight without a carry. -/
def sysvAbiStep (h : ℕ) (c : UInt8) : ℕ :=
  let x := (h * 16 + c.toNat) % 2 ^ 32
  x % 2 ^ 28 ^^^ x / 2 ^ 28 * 16

/-- The hash of a name in a SysV hash section. -/
def sysvAbiHash (name : List UInt8) : ℕ := name.foldl sysvAbiStep 0

/-- A function or an object with a size. -/
def Sym.Sized (sym : Sym) : Prop :=
  (sym.stInfo.toNat % 16 = 1 ∨ sym.stInfo.toNat % 16 = 2) ∧ sym.stSize ≠ 0

instance (sym : Sym) : Decidable sym.Sized := inferInstanceAs (Decidable (_ ∧ _))

variable {bytes strings name : List UInt8} {offset : ℕ}

theorem takeWhile_eq_take (h : 0 ∈ bytes) :
    (bytes.idxOf? 0).map (fun n => bytes.take n) = some (bytes.takeWhile (· ≠ 0)) := by
  induction bytes with
  | nil => exact absurd h List.not_mem_nil
  | cons b bytes ih =>
    by_cases hb : b = 0
    · rw [List.idxOf?_cons, if_pos (beq_iff_eq.mpr hb), List.takeWhile_cons_of_neg (by simp [hb])]
      rfl
    · have hrest : 0 ∈ bytes := (List.mem_cons.mp h).resolve_left fun h0 => hb h0.symm
      obtain ⟨n, hn, htake⟩ := Option.map_eq_some_iff.mp (ih hrest)
      rw [List.idxOf?_cons, if_neg (by rwa [beq_iff_eq]), hn,
        List.takeWhile_cons_of_pos (by simp [hb]), ← htake]
      rfl

/-- The C string is the name. -/
theorem cString_eq (strings : List UInt8) (offset : ℕ) :
    cString strings offset = nameAt strings offset := by
  by_cases h : 0 ∈ strings.drop offset
  · rw [cString, if_pos h, nameAt, takeWhile_eq_take h]
  · rw [cString, if_neg h, nameAt, List.idxOf?_eq_none_iff.mpr h]
    rfl

/-- The name stands in the table with a `NUL` behind it, and holds none. -/
theorem nameAt_eq_some :
    nameAt strings offset = some name ↔
      0 ∉ name ∧ ∃ rest, strings.drop offset = name ++ 0 :: rest := by
  rw [nameAt]
  generalize strings.drop offset = bytes
  constructor
  · intro h
    obtain ⟨n, hn, rfl⟩ := Option.map_eq_some_iff.mp h
    obtain ⟨hlt, hzero, hfirst⟩ := List.idxOf?_eq_some_iff.mp hn
    refine ⟨?_, bytes.drop (n + 1), ?_⟩
    · intro hmem
      obtain ⟨i, hi, heq⟩ := List.getElem_of_mem hmem
      rw [List.length_take] at hi
      rw [List.getElem_take] at heq
      exact hfirst i (by omega) heq
    · rw [← hzero, ← List.drop_eq_getElem_cons hlt, List.take_append_drop]
  · rintro ⟨hname, rest, rfl⟩
    have hidx : (name ++ 0 :: rest).idxOf? 0 = some name.length := by
      rw [List.idxOf?_eq_some_iff]
      refine ⟨by simp, by simp, ?_⟩
      intro i hi heq
      rw [List.getElem_append_left hi] at heq
      exact hname (heq ▸ List.getElem_mem hi)
    rw [hidx, Option.map_some, List.take_left]

end NativeLib.Dlfc
