import NativeLib.Basic
import NativeLib.Tracer.MyLibc

/-! `tracer/TracerBase.cpp`: which libraries are listened to, and what writing a record
does. The members are static: all tracers share them. -/

namespace NativeLib.Tracer

/-- The static members of `TracerBase`. -/
structure TracerBase where
  isHookAll : Bool
  traceOs : Ptr
  filterSoList : List (List Char)
  forbidSoList : List (List Char)
  isSave : Bool
  deriving DecidableEq, Repr

/-- Their initial values. -/
def TracerBase.initial : TracerBase := ⟨false, nullptr, [], [], false⟩

/-- `Dl_info`, as far as it is read. A name is a string. -/
structure DlInfo where
  dliFname : Option Chars
  terminated : ∀ name ∈ dliFname, NUL ∈ name

/-- `my_strstr(name, find.c_str()) != nullptr`. -/
def found (name : Chars) (find : List Char) : Option Bool :=
  (myStrstr (some name) (some (cStr find))).map Option.isSome

/-- `TracerBase::isAppFile`. -/
def isAppFile (path : Chars) : Option Bool := found path "/data/".toList

/-- `TracerBase::isLister`. -/
def TracerBase.isLister (t : TracerBase) : Option DlInfo → Option Bool
  | none => some false
  | some info =>
    match info.dliFname with
    | none => some false
    | some name => do
      if !(← isAppFile name) then
        some false
      else if ← t.forbidSoList.anyM (found name) then
        some false
      else if t.isHookAll then
        some true
      else
        t.filterSoList.anyM (found name)

/-- What a record goes to: the stream of the tracers, and the log. -/
inductive Record where
  | save (os : Ptr) (msg : Chars)
  | log (msg : Chars)
  deriving DecidableEq, Repr

/-- `TracerBase::write_inline`. The addresses of the callers that follow the message are left
out. -/
def TracerBase.writeInline (t : TracerBase) (msg : Option Chars) : Option (List Record) := do
  let len ← myStrlen msg
  match msg with
  | none => some []
  | some msg =>
    if len = 0 then some []
    else
      let save := if t.isSave && decide (t.traceOs ≠ nullptr) then [.save t.traceOs msg] else []
      some (save ++ [.log msg])

/-- `TracerBase::write` on a `std::string`. -/
def TracerBase.write (t : TracerBase) (msg : List Char) : Option (List Record) :=
  t.writeInline (some (cStr msg))

variable {t : TracerBase} {name : Chars}

/-- The search decides whether the text is a part of the name. -/
theorem found_eq (hname : NUL ∈ name) (find : List Char) :
    found name find = some (decide (text (cStr find) <:+: text name)) := by
  obtain ⟨r, hr, hiff⟩ := myStrstr_eq hname (nul_mem_cStr find)
  rw [found, hr, Option.map_some, Option.some_inj, Bool.eq_iff_iff, hiff, decide_eq_true_iff]

theorem anyM_found (hname : NUL ∈ name) (l : List (List Char)) :
    l.anyM (found name) = some (l.any fun find => decide (text (cStr find) <:+: text name)) := by
  induction l with
  | nil => rfl
  | cons find l ih =>
    rw [List.anyM, found_eq hname, ih]
    by_cases h : text (cStr find) <:+: text name
    · simp [h]
    · simp [h]

/-- The verdict in terms of the texts. -/
theorem isLister_eq (info : DlInfo) : t.isLister (some info) = some (match info.dliFname with
    | none => false
    | some name =>
      decide ("/data/".toList <:+: text name) &&
        !(t.forbidSoList.any fun forbid => decide (text (cStr forbid) <:+: text name)) &&
        (t.isHookAll ||
          t.filterSoList.any fun filter => decide (text (cStr filter) <:+: text name))) := by
  obtain ⟨fname, hterm⟩ := info
  cases fname with
  | none => rfl
  | some name =>
    have hname : NUL ∈ name := hterm name rfl
    have hdata : text (cStr "/data/".toList) = "/data/".toList := by decide
    simp only [TracerBase.isLister, isAppFile, found_eq hname, anyM_found hname, hdata,
      Option.bind_eq_bind, Option.bind_some]
    generalize decide ("/data/".toList <:+: text name) = app
    generalize t.forbidSoList.any _ = forbidden
    cases app <;> cases forbidden <;> cases t.isHookAll <;> rfl

end NativeLib.Tracer
