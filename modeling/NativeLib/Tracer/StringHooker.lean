import NativeLib.Calls.Registers
import NativeLib.Mangling.RoundTrip
import NativeLib.Tracer.Tracers

/-! `tracer/StringHooker.cpp`: the functions that run in place of the members of `std::string`,
and the members that their mangled names denote. -/

namespace NativeLib.Tracer

open Mangling Calls

namespace StringHooker

/-! The types of the declarations. `size_t` is the `unsigned long` of the names with `m`. -/

/-- A name in `std::__ndk1`. -/
def ndk (id : String) : Component :=
  .member (.member .std (.source "__ndk1".toList)) (.source id.toList)

def sizeT : Component := .builtin 'm'

def charT : Component := .builtin 'c'

def wcharT : Component := .builtin 'w'

def allocator (c : Char) : Component := .inst (ndk "allocator") (.ofList [.builtin c])

def basicString (c : Char) : Component :=
  .inst (ndk "basic_string") (.ofList
    [.builtin c, .inst (ndk "char_traits") (.ofList [.builtin c]), allocator c])

def string : Component := basicString 'c'

def wstring : Component := basicString 'w'

def wrapIter (target : Component) : Component := .inst (ndk "__wrap_iter") (.ofList [target])

end StringHooker

open StringHooker

/-- The mangled name that `hook_string` looks up for `string_hooker_new_<func>`. -/
def StringMember.symbol : StringMember → String
  | .append_1 =>
    "_ZNSt6__ndk112basic_stringIcNS_11char_traitsIcEENS_9allocatorIcEEE6appendERKS5_mm"
  | .append_2 =>
    "_ZNSt6__ndk112basic_stringIcNS_11char_traitsIcEENS_9allocatorIcEEE23__append_forward_unsafeINS_11__wrap_iterIPcEEEERS5_T_SB_"
  | .append_3 =>
    "_ZNSt6__ndk112basic_stringIcNS_11char_traitsIcEENS_9allocatorIcEEE6appendEmc"
  | .append_4 =>
    "_ZNSt6__ndk112basic_stringIcNS_11char_traitsIcEENS_9allocatorIcEEE6appendEPKc"
  | .append_5 =>
    "_ZNSt6__ndk112basic_stringIcNS_11char_traitsIcEENS_9allocatorIcEEE23__append_forward_unsafeIPcEERS5_T_S9_"
  | .append_6 =>
    "_ZNSt6__ndk112basic_stringIcNS_11char_traitsIcEENS_9allocatorIcEEE6appendEPKcm"
  | .wappend_1 =>
    "_ZNSt6__ndk112basic_stringIwNS_11char_traitsIwEENS_9allocatorIwEEE6appendEmw"
  | .wappend_2 =>
    "_ZNSt6__ndk112basic_stringIwNS_11char_traitsIwEENS_9allocatorIwEEE23__append_forward_unsafeIPwEERS5_T_S9_"
  | .wappend_3 =>
    "_ZNSt6__ndk112basic_stringIwNS_11char_traitsIwEENS_9allocatorIwEEE6appendEPKwm"
  | .wappend_4 =>
    "_ZNSt6__ndk112basic_stringIwNS_11char_traitsIwEENS_9allocatorIwEEE6appendEPKw"
  | .wappend_5 =>
    "_ZNSt6__ndk112basic_stringIwNS_11char_traitsIwEENS_9allocatorIwEEE6appendERKS5_mm"
  | .construction_1 =>
    "_ZNSt6__ndk112basic_stringIcNS_11char_traitsIcEENS_9allocatorIcEEEC1ERKS5_mmRKS4_"
  | .construction_2 =>
    "_ZNSt6__ndk112basic_stringIcNS_11char_traitsIcEENS_9allocatorIcEEEC1ERKS5_RKS4_"
  | .construction_3 =>
    "_ZNSt6__ndk112basic_stringIcNS_11char_traitsIcEENS_9allocatorIcEEEC1ERKS5_"
  | .construction_4 =>
    "_ZNSt6__ndk112basic_stringIcNS_11char_traitsIcEENS_9allocatorIcEEEC2IDnEEPKc"
  | .assign_1 =>
    "_ZNSt6__ndk112basic_stringIcNS_11char_traitsIcEENS_9allocatorIcEEE6assignERKS5_mm"
  | .assign_2 =>
    "_ZNSt6__ndk112basic_stringIcNS_11char_traitsIcEENS_9allocatorIcEEE6assignEmc"
  | .assign_3 =>
    "_ZNSt6__ndk112basic_stringIcNS_11char_traitsIcEENS_9allocatorIcEEE6assignEPKcm"
  | .assign_4 =>
    "_ZNSt6__ndk112basic_stringIcNS_11char_traitsIcEENS_9allocatorIcEEE6assignEPKc"
  | .resize_wchar =>
    "_ZNSt6__ndk112basic_stringIwNS_11char_traitsIwEENS_9allocatorIwEEE6resizeEmw"
  | .resize_char =>
    "_ZNSt6__ndk112basic_stringIcNS_11char_traitsIcEENS_9allocatorIcEEE6resizeEmc"
  | .basic_string_dtor =>
    "_ZNSt6__ndk112basic_stringIcNS_11char_traitsIcEENS_9allocatorIcEEED2Ev"
  | .replace_1 =>
    "_ZNSt6__ndk112basic_stringIcNS_11char_traitsIcEENS_9allocatorIcEEE7replaceEmmPKcm"
  | .replace_2 =>
    "_ZNSt6__ndk112basic_stringIcNS_11char_traitsIcEENS_9allocatorIcEEE7replaceEmmRKS5_mm"
  | .replace_3 =>
    "_ZNSt6__ndk112basic_stringIcNS_11char_traitsIcEENS_9allocatorIcEEE7replaceEmmmc"
  | .replace_4 =>
    "_ZNSt6__ndk112basic_stringIcNS_11char_traitsIcEENS_9allocatorIcEEE7replaceEmmPKc"
  | .insert_1 =>
    "_ZNSt6__ndk112basic_stringIcNS_11char_traitsIcEENS_9allocatorIcEEE6insertEmmc"
  | .insert_2 =>
    "_ZNSt6__ndk112basic_stringIcNS_11char_traitsIcEENS_9allocatorIcEEE6insertEmPKc"
  | .insert_3 =>
    "_ZNSt6__ndk112basic_stringIcNS_11char_traitsIcEENS_9allocatorIcEEE6insertENS_11__wrap_iterIPKcEEc"
  | .insert_4 =>
    "_ZNSt6__ndk112basic_stringIcNS_11char_traitsIcEENS_9allocatorIcEEE6insertEmRKS5_mm"
  | .insert_5 =>
    "_ZNSt6__ndk112basic_stringIcNS_11char_traitsIcEENS_9allocatorIcEEE6insertEmPKcm"

/-- The parameters of `string_hooker_new_<func>`. It calls `string_hooker_orig_<func>` once, with
these parameters in this order. -/
def StringMember.params : StringMember → List Component
  | .append_1 => [.reference (.const string), sizeT, sizeT]
  | .append_2 => [wrapIter (.pointer charT), wrapIter (.pointer charT)]
  | .append_3 => [sizeT, charT]
  | .append_4 => [.pointer (.const charT)]
  | .append_5 => [.pointer charT, .pointer charT]
  | .append_6 => [.pointer (.const charT), sizeT]
  | .wappend_1 => [sizeT, wcharT]
  | .wappend_2 => [.pointer wcharT, .pointer wcharT]
  | .wappend_3 => [.pointer (.const wcharT), sizeT]
  | .wappend_4 => [.pointer (.const wcharT)]
  | .wappend_5 => [.reference (.const wstring), sizeT, sizeT]
  | .construction_1 =>
    [.reference (.const string), sizeT, sizeT, .reference (.const (allocator 'c'))]
  | .construction_2 => [.reference (.const string), .reference (.const (allocator 'c'))]
  | .construction_3 => [.reference (.const string)]
  | .construction_4 => [.pointer string, .pointer (.const charT)]
  | .assign_1 => [.reference (.const string), sizeT, sizeT]
  | .assign_2 => [sizeT, charT]
  | .assign_3 => [.pointer (.const charT)]
  | .assign_4 => [.pointer (.const charT), sizeT]
  | .resize_wchar => [.pointer wstring, sizeT, wcharT]
  | .resize_char => [.pointer string, sizeT, charT]
  | .basic_string_dtor => [.pointer string]
  | .replace_1 => [.pointer string, sizeT, sizeT, .pointer (.const charT), sizeT]
  | .replace_2 => [.pointer string, sizeT, sizeT, .reference (.const string), sizeT, sizeT]
  | .replace_3 => [.pointer string, sizeT, sizeT, sizeT, charT]
  | .replace_4 => [.pointer string, sizeT, sizeT, .pointer (.const charT)]
  | .insert_1 => [.pointer string, sizeT, sizeT, charT]
  | .insert_2 => [.pointer string, sizeT, .pointer (.const charT)]
  | .insert_3 => [wrapIter (.pointer (.const charT)), charT]
  | .insert_4 => [.pointer string, sizeT, .reference (.const string), sizeT, sizeT]
  | .insert_5 => [.pointer string, sizeT, .pointer (.const charT), sizeT]

/-- The bits of a parameter: an integer type has its own, and a pointer, a reference or an iterator
fills a register. -/
def argWidth : Component → ℕ
  | .builtin c =>
    if c ∈ ['b', 'c', 'a', 'h'] then 8
    else if c ∈ ['s', 't'] then 16
    else if c ∈ ['i', 'j', 'w'] then 32
    else 64
  | _ => 64

/-- What `string_hooker_orig_<func>` is called with, when the registers are these as
`string_hooker_new_<func>` is entered. -/
def StringMember.passed (func : StringMember) (regs : ℕ → ℕ) : List ℕ :=
  received (func.params.map argWidth) regs

/-- The arguments of a member function by their widths, `this` first. -/
def argWidths (f : Function) : List ℕ :=
  (Component.pointer f.scope :: f.paramTypes).map argWidth

/-- The function has this mangled name. -/
def Denotes (symbol : String) (f : Function) : Prop :=
  f.WellFormed ∧ String.ofList f.mangle = symbol

/-- A mangled name has one function at most. -/
theorem Denotes.unique {symbol : String} {f g : Function} (hf : Denotes symbol f)
    (hg : Denotes symbol g) : f = g :=
  mangle_injective hf.1 hg.1 (String.ofList_injective (hf.2.trans hg.2.symm))

namespace StringHooker

def method (scope : Component) (id : String) (params : List Component) : Function :=
  ⟨scope, .source id.toList, .noArgs, none, params⟩

def structor (kind variant : Char) (args : Component) (params : List Component) : Function :=
  ⟨string, .structor kind variant, args, none, params⟩

/-- `__append_forward_unsafe<t>`, which returns the string. -/
def appendForwardUnsafe (scope t : Component) : Function :=
  ⟨scope, .source "__append_forward_unsafe".toList, .ofList [t], some (.reference scope),
    [.param 0, .param 0]⟩

end StringHooker

/-- The member that the mangled name denotes. -/
def StringMember.member : StringMember → Function
  | .append_1 => method string "append" [.reference (.const string), sizeT, sizeT]
  | .append_2 => appendForwardUnsafe string (wrapIter (.pointer charT))
  | .append_3 => method string "append" [sizeT, charT]
  | .append_4 => method string "append" [.pointer (.const charT)]
  | .append_5 => appendForwardUnsafe string (.pointer charT)
  | .append_6 => method string "append" [.pointer (.const charT), sizeT]
  | .wappend_1 => method wstring "append" [sizeT, wcharT]
  | .wappend_2 => appendForwardUnsafe wstring (.pointer wcharT)
  | .wappend_3 => method wstring "append" [.pointer (.const wcharT), sizeT]
  | .wappend_4 => method wstring "append" [.pointer (.const wcharT)]
  | .wappend_5 => method wstring "append" [.reference (.const wstring), sizeT, sizeT]
  | .construction_1 =>
    structor 'C' '1' .noArgs [.reference (.const string), sizeT, sizeT, .reference (.const (allocator 'c'))]
  | .construction_2 =>
    structor 'C' '1' .noArgs [.reference (.const string), .reference (.const (allocator 'c'))]
  | .construction_3 => structor 'C' '1' .noArgs [.reference (.const string)]
  | .construction_4 => structor 'C' '2' (.ofList [.nullptrT]) [.pointer (.const charT)]
  | .assign_1 => method string "assign" [.reference (.const string), sizeT, sizeT]
  | .assign_2 => method string "assign" [sizeT, charT]
  | .assign_3 => method string "assign" [.pointer (.const charT), sizeT]
  | .assign_4 => method string "assign" [.pointer (.const charT)]
  | .resize_wchar => method wstring "resize" [sizeT, wcharT]
  | .resize_char => method string "resize" [sizeT, charT]
  | .basic_string_dtor => structor 'D' '2' .noArgs []
  | .replace_1 => method string "replace" [sizeT, sizeT, .pointer (.const charT), sizeT]
  | .replace_2 => method string "replace" [sizeT, sizeT, .reference (.const string), sizeT, sizeT]
  | .replace_3 => method string "replace" [sizeT, sizeT, sizeT, charT]
  | .replace_4 => method string "replace" [sizeT, sizeT, .pointer (.const charT)]
  | .insert_1 => method string "insert" [sizeT, sizeT, charT]
  | .insert_2 => method string "insert" [sizeT, .pointer (.const charT)]
  | .insert_3 => method string "insert" [wrapIter (.pointer (.const charT)), charT]
  | .insert_4 => method string "insert" [sizeT, .reference (.const string), sizeT, sizeT]
  | .insert_5 => method string "insert" [sizeT, .pointer (.const charT), sizeT]

theorem member_wellFormed (func : StringMember) : func.member.WellFormed := by
  cases func <;> decide +kernel

set_option maxRecDepth 8000 in
theorem member_mangle (func : StringMember) : String.ofList func.member.mangle = func.symbol := by
  cases func <;> rfl

theorem denotes_member (func : StringMember) : Denotes func.symbol func.member :=
  ⟨member_wellFormed func, member_mangle func⟩

/-- A wrapper with as many parameters as the member has arguments has them in the same
registers. -/
theorem widths_eq (func : StringMember)
    (h : (func.params.map argWidth).length = (argWidths func.member).length) :
    func.params.map argWidth = argWidths func.member := by
  cases func <;> first | rfl | exact absurd h (by decide)

/-- Arguments that fit their parameters. -/
def Fit (args : List ℕ) (f : Function) : Prop :=
  List.Forall₂ (fun a w => a < 2 ^ w) args (argWidths f)

instance (args : List ℕ) (f : Function) : Decidable (Fit args f) :=
  inferInstanceAs (Decidable (List.Forall₂ _ _ _))

/-- Whatever a member is called with, its wrapper passes on the whole call exactly if it was
written with as many parameters as the member has arguments, `this` among them. -/
theorem passed_eq_iff (func : StringMember) {f : Function} (hf : Denotes func.symbol f)
    {args : List ℕ} (hargs : Fit args f) :
    (∃ regs, received (argWidths f) regs = args) ∧
    ∀ regs, received (argWidths f) regs = args →
      (func.passed regs = args ↔ func.params.length = f.params.length + 1) := by
  obtain rfl := hf.unique (denotes_member func)
  have hlength : (func.params.map argWidth).length = (argWidths func.member).length ↔
      func.params.length = func.member.params.length + 1 := by
    simp [argWidths, Function.paramTypes]
  refine ⟨exists_received hargs, fun regs hregs => ?_⟩
  exact (received_eq_iff (widths_eq func) hregs).trans hlength

/-- `str.replace(1, 2, s, 3)`. -/
theorem passed_eq_iff_replace :
    Fit [0x1000, 1, 2, 0x2000, 3] StringMember.replace_1.member ∧
    StringMember.replace_1.passed (fun i => [0x1000, 1, 2, 0x2000, 3].getD i 0) =
      [0x1000, 1, 2, 0x2000, 3] :=
  have hfit : Fit [0x1000, 1, 2, 0x2000, 3] StringMember.replace_1.member := by decide
  ⟨hfit, ((passed_eq_iff .replace_1 (denotes_member .replace_1) hfit).2 _ rfl).mpr rfl⟩

/-- `str.append(s)`: the wrapper calls on with `str` alone. -/
theorem append_loses_argument :
    Denotes StringMember.append_4.symbol StringMember.append_4.member ∧
    Fit [0x1000, 0x2000] StringMember.append_4.member ∧
    StringMember.append_4.passed (fun i => [0x1000, 0x2000].getD i 0) = [0x1000] ∧
    ¬ ∀ (func : StringMember) f args regs, Denotes func.symbol f → Fit args f →
      received (argWidths f) regs = args → func.passed regs = args := by
  have hfit : Fit [0x1000, 0x2000] StringMember.append_4.member := by decide
  have hpassed : StringMember.append_4.passed (fun i => [0x1000, 0x2000].getD i 0) = [0x1000] :=
    rfl
  refine ⟨denotes_member .append_4, hfit, hpassed, fun h => ?_⟩
  have hall := h .append_4 _ _ (fun i => [0x1000, 0x2000].getD i 0) (denotes_member .append_4)
    hfit rfl
  exact absurd (hpassed.symm.trans hall) (by decide)

/-- The wrappers that were: those with a `this_ptr`, and the one for `assign(s, n)`, which is put
in place of `assign(s)`. -/
theorem length_params_iff (func : StringMember) :
    func.params.length = func.member.params.length + 1 ↔
      func ∈ [.construction_4, .assign_4, .resize_wchar, .resize_char, .basic_string_dtor,
        .replace_1, .replace_2, .replace_3, .replace_4, .insert_1, .insert_2, .insert_4,
        .insert_5] := by
  cases func <;> decide

end NativeLib.Tracer
