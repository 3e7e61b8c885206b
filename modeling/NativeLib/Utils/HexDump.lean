import Mathlib.Data.List.GetD
import Mathlib.Data.Nat.Digits.Defs
import NativeLib.Utils.HexText
import NativeLib.Utils.StringUtils

/-! `utils/appUtils.cpp`: `getpData`, which prints the bytes at a pointer into an array on the
stack. Every `sprintf` stores a `NUL` behind its text. -/

namespace NativeLib.Utils

/-- The stack from `temp` on. Somewhere on it is a `NUL`. -/
structure Stack where
  byte : ℕ → UInt8
  nul : ∃ k, byte k = 0

namespace Stack

/-- `strlen(temp)`, which does not stop at the end of the array. -/
def strlen (stack : Stack) : ℕ := Nat.find stack.nul

/-- `string {temp}`. -/
def string (stack : Stack) : List UInt8 := (List.range stack.strlen).map stack.byte

/-- `memset(temp, 0, strlen(temp))`. -/
def clear (stack : Stack) : Stack where
  byte := fun k => if k < stack.strlen then 0 else stack.byte k
  nul := ⟨stack.strlen, by rw [if_neg (Nat.lt_irrefl _)]; exact Nat.find_spec stack.nul⟩

/-- The bytes of `text` and a `NUL`, stored from `temp + len` on. -/
def sprintf (stack : Stack) (len : ℕ) (text : List UInt8) : Stack where
  byte := fun k =>
    if len ≤ k ∧ k < len + (text ++ [0]).length then (text ++ [0]).getD (k - len) 0
    else stack.byte k
  nul := ⟨len + text.length, by simp⟩

end Stack

/-- `%02X`: an `unsigned int` in capital hexadecimal digits, two at least. -/
def format02X (x : BitVec 32) : List UInt8 :=
  ((Nat.digits 16 x.toNat).reverse.map fun d => hex.getD d 0).leftpad 2 48

/-- What a call of `sprintf` stores, and where. -/
structure Store where
  offset : ℕ
  bytes : List UInt8

/-- The loop of `getpData`: the stack afterwards and the stores of the calls. -/
def dumpLoop (signedChar : Bool) : List UInt8 → ℕ → Stack → Option (Stack × List Store)
  | [], _, stack => some (stack, [])
  | c :: p, len, stack =>
    let text := format02X (charToInt signedChar c)
    if len + text.length ≤ INT_MAX then
      (dumpLoop signedChar p (len + text.length) (stack.sprintf len text)).map
        fun (stack, stores) => (stack, ⟨len, text ++ [0]⟩ :: stores)
    else none

/-- `getpData` of the bytes at `p`: the string and the stores. -/
def getpData (signedChar : Bool) (stack : Stack) (p : List UInt8) :
    Option (List UInt8 × List Store) :=
  (dumpLoop signedChar p 0 stack.clear).map fun (stack, stores) => (stack.string, stores)

/-- Every byte that is stored lies in the first `size` ones. -/
def Store.Inside (size : ℕ) (store : Store) : Prop :=
  ∀ i < store.bytes.length, store.offset + i < size

/-- `getpData` stays inside its array and agrees with `binaryToHex`. -/
def DumpFits (signedChar : Bool) (stack : Stack) (p : List UInt8) : Prop :=
  ∃ stores, getpData signedChar stack p = some (binaryToHex signedChar p, stores) ∧
    ∀ store ∈ stores, store.Inside (2 * p.length)

variable {signedChar : Bool} {stack stack' : Stack} {p s text : List UInt8} {len : ℕ}
  {stores : List Store}

theorem length_format02X (x : BitVec 32) : 2 ≤ (format02X x).length := by
  rw [format02X, List.length_leftpad]
  exact Nat.le_max_left _ _

/-- The last call stores its `NUL` behind what all of them print. -/
theorem dumpLoop_last (hp : p ≠ [])
    (h : dumpLoop signedChar p len stack = some (stack', stores)) :
    ∃ store ∈ stores, ∃ i < store.bytes.length, len + 2 * p.length ≤ store.offset + i := by
  induction p generalizing len stack stores with
  | nil => exact absurd rfl hp
  | cons c p ih =>
    have hlen := length_format02X (charToInt signedChar c)
    rw [dumpLoop, Option.ite_none_right_eq_some, Option.map_eq_some_iff] at h
    obtain ⟨-, ⟨stack'', stores'⟩, hrest, heq⟩ := h
    obtain ⟨rfl, rfl⟩ := Prod.mk.inj heq
    by_cases hnil : p = []
    · refine ⟨_, List.mem_cons_self, (format02X (charToInt signedChar c)).length, ?_, ?_⟩
      · rw [List.length_append]
        exact Nat.lt_succ_self _
      · rw [hnil]
        exact Nat.add_le_add_left hlen len
    · obtain ⟨store, hstore, i, hi, hle⟩ := ih hnil hrest
      refine ⟨store, List.mem_cons_of_mem _ hstore, i, hi, ?_⟩
      rw [List.length_cons]
      omega

/-- A stack on which a string without a `NUL` is followed by one. -/
theorem string_eq (hs : 0 ∉ s) (hbyte : ∀ k (hk : k < s.length), stack.byte k = s[k])
    (hend : stack.byte s.length = 0) : stack.string = s := by
  have hlen : stack.strlen = s.length := by
    rw [Stack.strlen, Nat.find_eq_iff]
    refine ⟨hend, ?_⟩
    intro k hk hzero
    rw [hbyte k hk] at hzero
    exact hs (hzero ▸ List.getElem_mem hk)
  apply List.ext_getElem
  · rw [Stack.string, List.length_map, List.length_range, hlen]
  · intro k _ hk
    simp only [Stack.string, List.getElem_map, List.getElem_range, hbyte k hk]

theorem byte_string (stack : Stack) {k : ℕ} (hk : k < stack.string.length) :
    stack.byte k = stack.string[k] := by
  simp only [Stack.string, List.getElem_map, List.getElem_range]

theorem zero_notMem_string (stack : Stack) : 0 ∉ stack.string := by
  intro h
  obtain ⟨k, hk, hzero⟩ := List.mem_map.mp h
  exact Nat.find_min stack.nul (List.mem_range.mp hk) hzero

theorem string_clear (stack : Stack) : stack.clear.string = [] := by
  refine string_eq List.not_mem_nil (fun k hk => absurd hk (Nat.not_lt_zero k)) ?_
  by_cases h : 0 < stack.strlen
  · exact if_pos h
  · have hzero : stack.strlen = 0 := by omega
    refine (if_neg h).trans ?_
    have hfind := Nat.find_spec stack.nul
    rwa [← Stack.strlen, hzero] at hfind

theorem byte_sprintf_lt {k : ℕ} (hk : k < len) (stack : Stack) (text : List UInt8) :
    (stack.sprintf len text).byte k = stack.byte k :=
  if_neg fun h => absurd h.1 (Nat.not_le_of_lt hk)

theorem byte_sprintf_add (stack : Stack) (len : ℕ) {text : List UInt8} {i : ℕ}
    (hi : i ≤ text.length) : (stack.sprintf len text).byte (len + i) = (text ++ [0]).getD i 0 := by
  have hin : len + i < len + (text ++ [0]).length := by
    rw [List.length_append, List.length_singleton]
    omega
  refine (if_pos ⟨Nat.le_add_right _ _, hin⟩).trans ?_
  exact congrArg (fun k => (text ++ [0]).getD k 0) (Nat.add_sub_cancel_left _ _)

/-- What is printed at the end of the string is added to it. -/
theorem string_sprintf (htext : 0 ∉ text) (stack : Stack) :
    (stack.sprintf stack.string.length text).string = stack.string ++ text := by
  refine string_eq ?_ ?_ ?_
  · rw [List.mem_append, not_or]
    exact ⟨zero_notMem_string stack, htext⟩
  · intro k hk
    by_cases hlow : k < stack.string.length
    · rw [byte_sprintf_lt hlow, List.getElem_append_left hlow, byte_string stack hlow]
    · obtain ⟨i, rfl⟩ := Nat.exists_eq_add_of_le (Nat.le_of_not_lt hlow)
      have hi : i < text.length := by
        rw [List.length_append] at hk
        omega
      rw [byte_sprintf_add _ _ hi.le, List.getD_append _ _ _ _ hi, List.getD_eq_getElem _ _ hi]
      simp
  · rw [List.length_append, byte_sprintf_add _ _ (le_refl _)]
    simp

theorem format02X_eq {x : BitVec 32} (hx : x.toNat < 256) :
    format02X x = [hex.getD (x.toNat / 16) 0, hex.getD (x.toNat % 16) 0] := by
  rw [format02X]
  by_cases hhigh : x.toNat < 16
  · by_cases hzero : x.toNat = 0
    · rw [hzero]
      rfl
    · rw [Nat.digits_of_lt 16 _ hzero hhigh, Nat.div_eq_of_lt hhigh, Nat.mod_eq_of_lt hhigh]
      rfl
  · rw [Nat.digits_def' (by decide) (by omega), Nat.digits_of_lt 16 _ (by omega) (by omega)]
    rfl

/-- A `char` that is not negative. -/
def Plain (signedChar : Bool) (c : UInt8) : Prop := signedChar = false ∨ c.toNat < 128

theorem toNat_charToInt {c : UInt8} (h : Plain signedChar c) :
    (charToInt signedChar c).toNat = c.toNat := by
  have hlt := c.toNat_lt
  have hset : (c.toBitVec.setWidth 32).toNat = c.toNat := by
    rw [BitVec.toNat_setWidth, UInt8.toNat_toBitVec]
    omega
  cases signedChar with
  | false => exact hset
  | true =>
    have hc := h.resolve_left Bool.noConfusion
    have hmsb : c.toBitVec.msb = false := by
      rw [BitVec.msb_eq_false_iff_two_mul_lt, UInt8.toNat_toBitVec]
      omega
    rw [charToInt, if_pos rfl, BitVec.signExtend_eq_setWidth_of_msb_false hmsb, hset]

theorem format02X_plain {c : UInt8} (h : Plain signedChar c) :
    format02X (charToInt signedChar c) = [hexHigh signedChar c, hexLow signedChar c] := by
  have hc := toNat_charToInt h
  rw [format02X_eq (by rw [hc]; exact c.toNat_lt), hc, hexHigh_eq, hexLow_eq]

theorem zero_notMem_hex (signedChar : Bool) (c : UInt8) :
    0 ∉ [hexHigh signedChar c, hexLow signedChar c] := by
  have hlt := c.toNat_lt
  have hhex : ∀ n < 16, 0 ≠ hex.getD n 0 := by decide
  rw [hexHigh_eq, hexLow_eq, List.mem_pair, not_or]
  exact ⟨hhex _ (by omega), hhex _ (by omega)⟩

/-- While no `char` is negative, the two dumpers agree, and only the last `NUL` is outside. -/
theorem dumpLoop_plain (hp : ∀ c ∈ p, Plain signedChar c)
    (hlen : stack.string.length + 2 * p.length ≤ INT_MAX) :
    ∃ stack' stores, dumpLoop signedChar p stack.string.length stack = some (stack', stores) ∧
      stack'.string = stack.string ++ binaryToHex signedChar p ∧
      ∀ store ∈ stores, store.Inside (stack.string.length + 2 * p.length + 1) := by
  induction p generalizing stack with
  | nil =>
    refine ⟨stack, [], rfl, ?_, fun store h => absurd h List.not_mem_nil⟩
    rw [binaryToHex, List.flatMap_nil, List.append_nil]
  | cons c p ih =>
    rw [List.length_cons] at hlen ⊢
    obtain ⟨hc, hp⟩ := List.forall_mem_cons.mp hp
    obtain ⟨text, htext⟩ : ∃ text, text = [hexHigh signedChar c, hexLow signedChar c] := ⟨_, rfl⟩
    have hprinted : format02X (charToInt signedChar c) = text := by
      rw [htext, format02X_plain hc]
    have htwo : text.length = 2 := by rw [htext]; rfl
    have hstring : (stack.sprintf stack.string.length text).string = stack.string ++ text :=
      string_sprintf (htext ▸ zero_notMem_hex signedChar c) stack
    have hnext : (stack.sprintf stack.string.length text).string.length =
        stack.string.length + text.length := by rw [hstring, List.length_append]
    obtain ⟨stack', stores, hrun, hfinal, hin⟩ :=
      @ih (stack.sprintf stack.string.length text) hp (by omega)
    rw [hnext] at hrun hin
    refine ⟨stack', ⟨stack.string.length, text ++ [0]⟩ :: stores, ?_, ?_, ?_⟩
    · rw [dumpLoop, hprinted, if_pos (by omega), hrun]
      rfl
    · rw [hfinal, hstring, List.append_assoc, binaryToHex, binaryToHex, List.flatMap_cons, htext]
    · intro store hstore i hi
      rcases List.mem_cons.mp hstore with rfl | hstore
      · rw [List.length_append, List.length_singleton, htwo] at hi
        have hlt : stack.string.length + i < stack.string.length + 2 * (p.length + 1) + 1 := by
          omega
        exact hlt
      · have hlt := hin store hstore i hi
        omega

/-- `getpData` of bytes that are no negative `char`s. -/
theorem getpData_plain (stack : Stack) (hp : ∀ c ∈ p, Plain signedChar c)
    (hlen : 2 * p.length ≤ INT_MAX) :
    ∃ stores, getpData signedChar stack p = some (binaryToHex signedChar p, stores) ∧
      ∀ store ∈ stores, store.Inside (2 * p.length + 1) := by
  have hclear : stack.clear.string.length = 0 := by rw [string_clear]; rfl
  obtain ⟨stack', stores, hrun, hfinal, hin⟩ :=
    @dumpLoop_plain signedChar stack.clear p hp (by rwa [hclear, Nat.zero_add])
  rw [hclear] at hrun hin
  rw [string_clear, List.nil_append] at hfinal
  rw [Nat.zero_add] at hin
  refine ⟨stores, ?_, hin⟩
  rw [getpData, hrun, ← hfinal]
  rfl

theorem not_dumpFits (hp : p ≠ []) : ¬ DumpFits signedChar stack p := by
  intro h
  obtain ⟨stores, hrun, hin⟩ := h
  rw [getpData, Option.map_eq_some_iff] at hrun
  obtain ⟨⟨stack', stores'⟩, hloop, heq⟩ := hrun
  obtain ⟨-, rfl⟩ := Prod.mk.inj heq
  obtain ⟨store, hstore, i, hi, hle⟩ := dumpLoop_last hp hloop
  have hlt := hin store hstore i hi
  omega

/-- `getpData` stays inside its array only where there is nothing to print. -/
theorem dumpFits_iff (signedChar : Bool) (stack : Stack) (p : List UInt8) :
    DumpFits signedChar stack p ↔ p = [] := by
  constructor
  · intro h
    by_contra hp
    exact not_dumpFits hp h
  · intro h
    rw [h]
    have hnone : getpData signedChar stack [] = some (stack.clear.string, []) := rfl
    refine ⟨[], ?_, fun store hstore => absurd hstore List.not_mem_nil⟩
    rw [hnone, string_clear]
    rfl

/-- One byte, and room for its two digits only. -/
theorem dump_outside : ¬ ∀ (signedChar : Bool) (stack : Stack) (p : List UInt8),
    DumpFits signedChar stack p := by
  intro h
  exact not_dumpFits (List.cons_ne_nil 65 []) (h true ⟨fun _ => 0, 0, rfl⟩ [65])

end NativeLib.Utils
