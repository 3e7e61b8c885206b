import NativeLib.Mangling.Names

/-! Reading mangled names. The reader is a machine with a stack: it takes one character after
the other and keeps what is not complete yet. -/

namespace NativeLib.Mangling

open Component

/-- What the next character belongs to. -/
inductive Mode where
  | ready
  | length (n : ℕ)
  | name (left : ℕ) (read : List Char)
  | seq (n : Option ℕ)
  | param (n : Option ℕ)
  | letter (kind : Char)
  deriving DecidableEq, Repr

/-- What waits for its next part. A nested name is `known` if there is no number to give
to it. -/
inductive Frame where
  | pointer
  | reference
  | const
  | nested (scope : Component) (known : Bool)
  | args (args : Component)
  | encoding
  | signature (scope : Component) (name : Unqualified) (args types : Component)
  deriving DecidableEq, Repr

structure State where
  mode : Mode
  stack : List Frame
  seen : List Component
  deriving DecidableEq, Repr

/-- What is seen once the next part of a nested name is there. -/
def flush (scope : Component) (known : Bool) (seen : List Component) : List Component :=
  if known then seen else seen ++ [scope]

/-- A type is complete. -/
def emit : List Frame → Component → List Component → Option State
  | .pointer :: stack, t, seen => emit stack (.pointer t) (seen ++ [.pointer t])
  | .reference :: stack, t, seen => emit stack (.reference t) (seen ++ [.reference t])
  | .const :: stack, t, seen => emit stack (.const t) (seen ++ [.const t])
  | .args args :: stack, t, seen => some ⟨.ready, .args (.arg args t) :: stack, seen⟩
  | .signature scope name args types :: stack, t, seen =>
    some ⟨.ready, .signature scope name args (.arg types t) :: stack, seen⟩
  | _, _, _ => none

/-- A component that was seen before stands for itself. -/
def deliver (stack : List Frame) (t : Component) (seen : List Component) : Option State :=
  match stack with
  | .nested .root _ :: stack => some ⟨.ready, .nested t true :: stack, seen⟩
  | stack => emit stack t seen

/-- A nested name goes on with `name`. -/
def extend (stack : List Frame) (name : Unqualified) (seen : List Component) : Option State :=
  match stack with
  | .nested scope known :: stack =>
    some ⟨.ready, .nested (.member scope name) false :: stack, flush scope known seen⟩
  | _ => none

/-- A nested name is complete: that of the function or that of a type. -/
def close (t : Component) (stack : List Frame) (seen : List Component) : Option State :=
  match stack with
  | [.encoding] =>
    match t with
    | .member scope name => some ⟨.ready, [.signature scope name .noArgs .noArgs], seen⟩
    | .inst (.member scope name) args => some ⟨.ready, [.signature scope name args .noArgs], seen⟩
    | _ => none
  | stack => emit stack t (seen ++ [t])

/-- The first character of a type. -/
def startType (c : Char) (stack : List Frame) (seen : List Component) : Option State :=
  if c ∈ builtinCodes then emit stack (.builtin c) seen
  else
    match c with
    | 'P' => some ⟨.ready, .pointer :: stack, seen⟩
    | 'R' => some ⟨.ready, .reference :: stack, seen⟩
    | 'K' => some ⟨.ready, .const :: stack, seen⟩
    | 'N' => some ⟨.ready, .nested .root true :: stack, seen⟩
    | 'S' => some ⟨.seq none, stack, seen⟩
    | 'T' => some ⟨.param none, stack, seen⟩
    | 'D' => some ⟨.letter 'D', stack, seen⟩
    | _ => none

/-- The first character of the next part of a nested name. -/
def startPart (c : Char) (scope : Component) (known : Bool) (stack : List Frame)
    (seen : List Component) : Option State :=
  match digitValue 10 c with
  | some d => some ⟨.length d, .nested scope known :: stack, seen⟩
  | none =>
    match c with
    | 'S' => some ⟨.seq none, .nested scope known :: stack, seen⟩
    | 'I' =>
      some ⟨.ready, .args .noArgs :: .nested scope true :: stack, flush scope known seen⟩
    | 'C' => some ⟨.letter 'C', .nested scope known :: stack, seen⟩
    | 'D' => some ⟨.letter 'D', .nested scope known :: stack, seen⟩
    | 'E' => if known then none else close scope stack seen
    | _ => none

def start (c : Char) (stack : List Frame) (seen : List Component) : Option State :=
  match stack with
  | .nested scope known :: stack => startPart c scope known stack seen
  | .encoding :: _ =>
    if c = 'N' then some ⟨.ready, .nested .root true :: stack, seen⟩ else none
  | .args args :: .nested template known :: stack =>
    if c = 'E' then some ⟨.ready, .nested (.inst template args) false :: stack, seen⟩
    else startType c (.args args :: .nested template known :: stack) seen
  | stack => startType c stack seen

/-- The next character of a name of which `left` are left. -/
def nextOfName (left : ℕ) (read : List Char) (c : Char) (stack : List Frame)
    (seen : List Component) : Option State :=
  match left with
  | 0 => none
  | 1 => extend stack (.source (read ++ [c])) seen
  | n + 1 => some ⟨.name n (read ++ [c]), stack, seen⟩

def nextOfSeq (n : Option ℕ) (c : Char) : Option (Option ℕ) :=
  match digitValue 36 c with
  | some d => some (some (n.getD 0 * 36 + d))
  | none => none

/-- What the number after `S` or `T` stands for. -/
def seqIndex : Option ℕ → ℕ
  | none => 0
  | some n => n + 1

def step (state : State) (c : Char) : Option State :=
  let ⟨mode, stack, seen⟩ := state
  match mode with
  | .ready => start c stack seen
  | .length n =>
    match digitValue 10 c with
    | some d => some ⟨.length (n * 10 + d), stack, seen⟩
    | none => nextOfName n [] c stack seen
  | .name left read => nextOfName left read c stack seen
  | .seq n =>
    if c = '_' then do
      let t ← seen[seqIndex n]?
      deliver stack t seen
    else if c = 't' then
      match n, stack with
      | none, .nested .root _ :: stack => some ⟨.ready, .nested .std true :: stack, seen⟩
      | _, _ => none
    else (nextOfSeq n c).map fun n => ⟨.seq n, stack, seen⟩
  | .param n =>
    if c = '_' then
      emit stack (.param (seqIndex n)) (seen ++ [.param (seqIndex n)])
    else (nextOfSeq n c).map fun n => ⟨.param n, stack, seen⟩
  | .letter kind =>
    match stack with
    | .nested .. :: _ =>
      if (kind, c) ∈ structorCodes then extend stack (.structor kind c) seen else none
    | stack => if kind = 'D' ∧ c = 'n' then emit stack .nullptrT seen else none

/-- The reader over several characters. -/
def run (state : State) (cs : List Char) : Option State := cs.foldlM step state

/-- The parameters by their types: `v` alone is none. -/
def paramsOf (types : List Component) : List Component :=
  if types = [.builtin 'v'] then [] else types

/-- The function that was read. -/
def State.function (state : State) : Option Function :=
  match state with
  | ⟨.ready, [.signature scope name args types], _⟩ =>
    if args ≠ .noArgs ∧ name.isSource = true then
      match types.toList with
      | ret :: types => some ⟨scope, name, args, some ret, paramsOf types⟩
      | [] => none
    else some ⟨scope, name, args, none, paramsOf types.toList⟩
  | _ => none

/-- The function of a mangled name. -/
def demangle (cs : List Char) : Option Function :=
  match cs with
  | '_' :: 'Z' :: cs => do
    let state ← run ⟨.ready, [.encoding], []⟩ cs
    state.function
  | _ => none

end NativeLib.Mangling
