import Mathlib.Data.Nat.Digits.Defs
import Mathlib.Tactic.Common

/-! Mangled names of C++, as the Itanium ABI writes them: nested names, template arguments,
compound types and the abbreviations `S_`, `S0_` and on for what was written before. Names that
stand directly in `std` or in no namespace, which are written without `N` and `E`, are left
out, and so are expressions. -/

namespace NativeLib.Mangling

/-- A name in its scope: an identifier, or the code of a constructor or destructor. -/
inductive Unqualified where
  | source (id : List Char)
  | structor (kind variant : Char)
  deriving DecidableEq, Repr

/-- What a mangled name is made of. A list of template arguments is a component too. -/
inductive Component where
  | root
  | std
  | member (scope : Component) (name : Unqualified)
  | inst (template args : Component)
  | noArgs
  | arg (args last : Component)
  | builtin (code : Char)
  | nullptrT
  | pointer (target : Component)
  | reference (target : Component)
  | const (target : Component)
  | param (i : ℕ)
  deriving DecidableEq, Repr

/-- Where a component stands: on its own, before a name or among arguments. -/
inductive Position where
  | type
  | scope
  | args
  deriving DecidableEq, Repr

/-- The digit `d` of a numeral. -/
def digitChar (d : ℕ) : Char := Char.ofNat (if d < 10 then 48 + d else 55 + d)

/-- The value of a digit in base `b`. -/
def digitValue (b : ℕ) (c : Char) : Option ℕ :=
  if 48 ≤ c.toNat ∧ c.toNat < 58 ∧ c.toNat < 48 + b then some (c.toNat - 48)
  else if 65 ≤ c.toNat ∧ c.toNat < 91 ∧ c.toNat < 55 + b then some (c.toNat - 55)
  else none

/-- `n` in base `b`. -/
def numeral (b n : ℕ) : List Char :=
  if n = 0 then ['0'] else (Nat.digits b n).reverse.map digitChar

/-- An identifier is written after its length. -/
def Unqualified.mangle : Unqualified → List Char
  | source id => numeral 10 id.length ++ id
  | structor kind variant => [kind, variant]

/-- What follows `S` or `T` for the number `i`. -/
def seqId : ℕ → List Char
  | 0 => ['_']
  | i + 1 => numeral 36 i ++ ['_']

/-- `t` by the number it was seen under, or as `written`, and then it is seen. -/
def abbreviate (t : Component) (seen : List Component)
    (written : List Char × List Component) : List Char × List Component :=
  match seen.idxOf? t with
  | some i => ('S' :: seqId i, seen)
  | none => (written.1, written.2 ++ [t])

/-- `s` between `N` and `E`, if it stands on its own. -/
def nest (pos : Position) (s : List Char) : List Char :=
  if pos = .type then 'N' :: s ++ ['E'] else s

/-- How a component is written after `seen`, and what is seen then. -/
def Component.mangle : Component → Position → List Component → List Char × List Component
  | root, _, seen => ([], seen)
  | std, _, seen => (['S', 't'], seen)
  | member scope name, pos, seen =>
    let (s, seen') := scope.mangle .scope seen
    abbreviate (member scope name) seen (nest pos (s ++ name.mangle), seen')
  | inst template args, pos, seen =>
    let (s, seen') := template.mangle .scope seen
    let (s', seen'') := args.mangle .args seen'
    abbreviate (inst template args) seen (nest pos (s ++ 'I' :: s' ++ ['E']), seen'')
  | noArgs, _, seen => ([], seen)
  | arg args last, _, seen =>
    let (s, seen') := args.mangle .args seen
    let (s', seen'') := last.mangle .type seen'
    (s ++ s', seen'')
  | builtin code, _, seen => ([code], seen)
  | nullptrT, _, seen => (['D', 'n'], seen)
  | pointer target, _, seen =>
    let (s, seen') := target.mangle .type seen
    abbreviate (pointer target) seen ('P' :: s, seen')
  | reference target, _, seen =>
    let (s, seen') := target.mangle .type seen
    abbreviate (reference target) seen ('R' :: s, seen')
  | const target, _, seen =>
    let (s, seen') := target.mangle .type seen
    abbreviate (const target) seen ('K' :: s, seen')
  | param i, _, seen => abbreviate (param i) seen ('T' :: seqId i, seen)

/-- The letters of the builtin types. -/
def builtinCodes : List Char := "vwbcahstijlmxynofdegz".toList

/-- The codes of constructors and destructors. -/
def structorCodes : List (Char × Char) :=
  [('C', '1'), ('C', '2'), ('C', '3'), ('D', '0'), ('D', '1'), ('D', '2')]

namespace Unqualified

def isSource : Unqualified → Bool
  | source _ => true
  | structor .. => false

/-- An identifier is not empty and has no digit first. -/
def WellFormed : Unqualified → Prop
  | source [] => False
  | source (c :: _) => digitValue 10 c = none
  | structor kind variant => (kind, variant) ∈ structorCodes

instance : ∀ name : Unqualified, Decidable name.WellFormed
  | source [] => inferInstanceAs (Decidable False)
  | source (_ :: _) => inferInstanceAs (Decidable (_ = _))
  | structor .. => inferInstanceAs (Decidable (_ ∈ _))

end Unqualified

namespace Component

/-- The component can be a template: a name that is an identifier. -/
def isSource : Component → Bool
  | member _ name => name.isSource
  | _ => false

/-- A scope that is written in full, with `N` and `E` around what stands in it. -/
def isNamed : Component → Bool
  | member .. => true
  | inst .. => true
  | _ => false

/-- The component can stand there. -/
def WellFormed : Component → Position → Prop
  | root, pos => pos = .scope
  | std, pos => pos = .scope
  | member scope name, pos =>
    pos ≠ .args ∧ scope.WellFormed .scope ∧ name.isSource = true ∧ name.WellFormed ∧
      (pos = .type → scope.isNamed = true)
  | inst template args, pos =>
    pos ≠ .args ∧ template.WellFormed pos ∧ template.isSource = true ∧
      args.WellFormed .args ∧ args ≠ noArgs
  | noArgs, pos => pos = .args
  | arg args last, pos => pos = .args ∧ args.WellFormed .args ∧ last.WellFormed .type
  | builtin code, pos => pos = .type ∧ code ∈ builtinCodes
  | nullptrT, pos => pos = .type
  | pointer target, pos => pos = .type ∧ target.WellFormed .type
  | reference target, pos => pos = .type ∧ target.WellFormed .type
  | const target, pos => pos = .type ∧ target.WellFormed .type
  | param _, pos => pos = .type

instance decidableWellFormed : ∀ (t : Component) (pos : Position), Decidable (t.WellFormed pos)
  | root, _ => inferInstanceAs (Decidable (_ = _))
  | std, _ => inferInstanceAs (Decidable (_ = _))
  | member scope _, _ =>
    have := scope.decidableWellFormed .scope
    inferInstanceAs (Decidable (_ ∧ _ ∧ _ ∧ _ ∧ _))
  | inst template args, pos =>
    have := template.decidableWellFormed pos
    have := args.decidableWellFormed .args
    inferInstanceAs (Decidable (_ ∧ _ ∧ _ ∧ _ ∧ _))
  | noArgs, _ => inferInstanceAs (Decidable (_ = _))
  | arg args last, _ =>
    have := args.decidableWellFormed .args
    have := last.decidableWellFormed .type
    inferInstanceAs (Decidable (_ ∧ _ ∧ _))
  | builtin _, _ => inferInstanceAs (Decidable (_ ∧ _))
  | nullptrT, _ => inferInstanceAs (Decidable (_ = _))
  | pointer target, _ =>
    have := target.decidableWellFormed .type
    inferInstanceAs (Decidable (_ ∧ _))
  | reference target, _ =>
    have := target.decidableWellFormed .type
    inferInstanceAs (Decidable (_ ∧ _))
  | const target, _ =>
    have := target.decidableWellFormed .type
    inferInstanceAs (Decidable (_ ∧ _))
  | param _, _ => inferInstanceAs (Decidable (_ = _))

/-- The arguments in a list. -/
def ofList : List Component → Component := List.foldl arg noArgs

/-- The list of the arguments. -/
def toList : Component → List Component
  | arg args last => args.toList ++ [last]
  | _ => []

/-- The component with template arguments in place of the parameters. -/
def substitute : Component → Component → Component
  | inst template args', args => inst template (args'.substitute args)
  | arg args' last, args => arg (args'.substitute args) (last.substitute args)
  | pointer target, args => pointer (target.substitute args)
  | reference target, args => reference (target.substitute args)
  | const target, args => const (target.substitute args)
  | param i, args => args.toList.getD i (param i)
  | t, _ => t

end Component

/-- A function. One that is no template has no arguments; a template that is not a constructor
is written with its result. -/
structure Function where
  scope : Component
  name : Unqualified
  args : Component
  ret : Option Component
  params : List Component
  deriving DecidableEq, Repr

namespace Function

/-- The types that are written after the name. -/
def types (f : Function) : Component :=
  .ofList (f.ret.toList ++ if f.params = [] then [.builtin 'v'] else f.params)

/-- The template arguments of the function as they are written, and what is seen then. -/
def mangleArgs (f : Function) (seen : List Component) : List Char × List Component :=
  if f.args = .noArgs then ([], seen)
  else
    let (s, seen') := f.args.mangle .args (seen ++ [.member f.scope f.name])
    ('I' :: s ++ ['E'], seen')

def mangle (f : Function) : List Char :=
  let (s, seen) := f.scope.mangle .scope []
  let (s', seen') := f.mangleArgs seen
  '_' :: 'Z' :: 'N' :: s ++ f.name.mangle ++ s' ++ 'E' :: (f.types.mangle .args seen').1

/-- The types of the parameters, with the template arguments. -/
def paramTypes (f : Function) : List Component := f.params.map (·.substitute f.args)

def WellFormed (f : Function) : Prop :=
  f.scope.WellFormed .scope ∧ f.scope.isNamed = true ∧ f.name.WellFormed ∧
    f.args.WellFormed .args ∧
    (f.ret.isSome = true ↔ f.args ≠ .noArgs ∧ f.name.isSource = true) ∧
    (∀ t ∈ f.ret.toList ++ f.params, t.WellFormed .type) ∧ .builtin 'v' ∉ f.params

instance (f : Function) : Decidable f.WellFormed :=
  inferInstanceAs (Decidable (_ ∧ _ ∧ _ ∧ _ ∧ _ ∧ _ ∧ _))

end Function

end NativeLib.Mangling
