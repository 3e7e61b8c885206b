import Mathlib.Algebra.Group.Nat.Defs
import NativeLib.Interaction.Nesting
import NativeLib.Linker.LinkerHandler

/-! `linker/linkerHandler.cpp`: the hooks of the functions that load a library. The functions
they replace and the callbacks may load libraries themselves, and so on. -/

namespace NativeLib.Linker

open Interaction Collections
open Prog (call forEach embed)

/-- The `static` members that the hooks read, with the elements of the list. -/
structure LinkerStatics where
  linkerCallBackList : Ptr
  callbacks : List Ptr
  linkerIoRedirect : Option (Path → Path)
  callbacks_null : linkerCallBackList = nullptr → callbacks = []

inductive LoadCall where
  | heap (c : HeapCall)
  | origDlopenCI (filename : Option Path) (flag : Word)
  | origDoDlopenCIV (filename : Option Path) (flag : Word) (extinfo : Ptr)
  | origDoDlopenCIVV (filename : Option Path) (flags : Word) (extinfo callerAddr : Ptr)
  | syscallOpenat (fd : Word) (pathname : Option Path) (flags mode : Word)
  | syscallOpen (pathname : Option Path) (flags mode : Word)
  deriving DecidableEq, Repr

inductive LoadAnswer where
  | heap (r : HeapAnswer)
  | returned (ret : Word)
  deriving DecidableEq, Repr

abbrev LoadProg := Prog LoadCall LoadAnswer

def LoadAnswer.toHeap : LoadAnswer → HeapAnswer
  | .heap r => r
  | .returned _ => .done

/-- The value that the replaced function returns. -/
def original (c : LoadCall) : LoadProg Word := do
  match ← call c with
  | .returned ret => pure ret
  | .heap _ => pure 0

/-- `linkerIORedirect`. -/
def linkerIORedirect (s : LinkerStatics) (path : Option Path) : Path :=
  match path, s.linkerIoRedirect with
  | some path, some linkerRedirect => linkerRedirect path
  | _, _ => []

/-- `relocated_path.empty() ? filename : relocated_path.c_str()`. -/
def relocated (s : LinkerStatics) (filename : Option Path) : Option Path :=
  let relocated_path := linkerIORedirect s filename
  if relocated_path = [] then filename else some relocated_path

/-- What the hooks have in common: `load` is the call of the replaced function, `conv` its
conversion, and `reported` what `onSoLoadedAfter` is told of the outcome. -/
def hookedLoad (s : LinkerStatics) (filename : Option Path) (load : Option Path → LoadCall)
    (conv : Word → Word) (reported : Word → Ptr) : LoadProg Word := do
  (onSoLoadedBefore s.linkerCallBackList filename).embed .heap LoadAnswer.toHeap
  let ret ← original (load (relocated s filename))
  (onSoLoadedAfter s.linkerCallBackList filename (linkerIORedirect s filename)
    (reported (conv ret))).embed .heap LoadAnswer.toHeap
  pure (conv ret)

/-- `(int)` of a `long`. -/
def toInt (w : Word) : Word := w.bmod (2 ^ 32)

def newDlopenCI (s : LinkerStatics) (filename : Option Path) (flag : Word) : LoadProg Word :=
  hookedLoad s filename (fun path => .origDlopenCI path flag) id id

def newDoDlopenCIV (s : LinkerStatics) (filename : Option Path) (flag : Word) (extinfo : Ptr) :
    LoadProg Word :=
  hookedLoad s filename (fun path => .origDoDlopenCIV path flag extinfo) id id

def newDoDlopenCIVV (s : LinkerStatics) (filename : Option Path) (flags : Word)
    (extinfo callerAddr : Ptr) : LoadProg Word :=
  hookedLoad s filename (fun path => .origDoDlopenCIVV path flags extinfo callerAddr) id id

/-- `new___openat`: the callbacks are told `nullptr`, not the descriptor. -/
def newOpenat (s : LinkerStatics) (fd : Word) (pathname : Option Path) (flags mode : Word) :
    LoadProg Word :=
  hookedLoad s pathname (fun path => .syscallOpenat fd path flags mode) toInt fun _ => nullptr

/-- `new___open`: as `new___openat`. -/
def newOpen (s : LinkerStatics) (pathname : Option Path) (flags mode : Word) : LoadProg Word :=
  hookedLoad s pathname (fun path => .syscallOpen path flags mode) toInt fun _ => nullptr

/-- A call of one of the hooks. -/
inductive Load where
  | dlopenCI (filename : Option Path) (flag : Word)
  | doDlopenCIV (filename : Option Path) (flag : Word) (extinfo : Ptr)
  | doDlopenCIVV (filename : Option Path) (flags : Word) (extinfo callerAddr : Ptr)
  | openat (fd : Word) (pathname : Option Path) (flags mode : Word)
  | open (pathname : Option Path) (flags mode : Word)
  deriving DecidableEq, Repr

namespace Load

def filename : Load → Option Path
  | .dlopenCI filename _ => filename
  | .doDlopenCIV filename _ _ => filename
  | .doDlopenCIVV filename _ _ _ => filename
  | .openat _ pathname _ _ => pathname
  | .open pathname _ _ => pathname

def body (s : LinkerStatics) : Load → LoadProg Word
  | .dlopenCI filename flag => newDlopenCI s filename flag
  | .doDlopenCIV filename flag extinfo => newDoDlopenCIV s filename flag extinfo
  | .doDlopenCIVV filename flags extinfo callerAddr =>
      newDoDlopenCIVV s filename flags extinfo callerAddr
  | .openat fd pathname flags mode => newOpenat s fd pathname flags mode
  | .open pathname flags mode => newOpen s pathname flags mode

/-- The call of the replaced function, with the caller's other arguments. -/
def orig : Load → Option Path → LoadCall
  | .dlopenCI _ flag, path => .origDlopenCI path flag
  | .doDlopenCIV _ flag extinfo, path => .origDoDlopenCIV path flag extinfo
  | .doDlopenCIVV _ flags extinfo callerAddr, path =>
      .origDoDlopenCIVV path flags extinfo callerAddr
  | .openat fd _ flags mode, path => .syscallOpenat fd path flags mode
  | .open _ flags mode, path => .syscallOpen path flags mode

/-- The hook's value where the replaced function returns `w`. -/
def returns : Load → Word → Word
  | .openat .., w => toInt w
  | .open .., w => toInt w
  | _, w => w

/-- What the callbacks are told where the hook returns `ret`. -/
def reported : Load → Word → Ptr
  | .openat .., _ => nullptr
  | .open .., _ => nullptr
  | _, ret => ret

theorem body_eq (s : LinkerStatics) (load : Load) :
    load.body s = hookedLoad s load.filename load.orig load.returns load.reported := by
  cases load <;> rfl

end Load

namespace LoadCall

/-- Reading the list of callbacks calls no function. -/
def isCall : LoadCall → Bool
  | .heap (.elements _) => false
  | _ => true

/-- What the callback is told of it. -/
def seenBy (callback : Ptr) : LoadCall → Option (Bracket Path)
  | .heap (.loadBefore cb name) => if cb = callback then some (.opening name) else none
  | .heap (.loadAfter cb path _ _) => if cb = callback then some (.closing path) else none
  | _ => none

/-- The list holds the callbacks, and everything but the list answers as it likes. -/
def Reply (s : LinkerStatics) : LoadCall → LoadAnswer → Prop
  | .heap (.elements list), r => list = s.linkerCallBackList → r = .heap (.elements s.callbacks)
  | .heap _, r => r = .heap .done
  | _, r => ∃ ret, r = .returned ret

end LoadCall

/-- Every command of a hook but the reading of the list can load libraries. -/
def loading (s : LinkerStatics) :
    ℕ → List LoadCall → LoadCall → LoadAnswer → List LoadCall → Prop :=
  nested (LoadCall.Reply s) (LoadCall.isCall ·) (Load.body s)

/-- Loads one after another, `depth` more being under way in each at any time. -/
def Loads (s : LinkerStatics) (depth : ℕ) (log : List LoadCall) : Prop :=
  RunsNested (LoadCall.Reply s) (LoadCall.isCall ·) (Load.body s) depth [] log

/-- The calls of a run. -/
def callsOf (tr : Trace LoadCall LoadAnswer) : List LoadCall :=
  (tr.map Prod.fst).filter LoadCall.isCall

section

variable {s : LinkerStatics} {env : List LoadCall → LoadCall → LoadAnswer → List LoadCall → Prop}
  {log log' : List LoadCall} {tr tr' : Trace LoadCall LoadAnswer}

@[simp] theorem callsOf_append : callsOf (tr ++ tr') = callsOf tr ++ callsOf tr' := by
  simp [callsOf]

theorem exec_original {c : LoadCall} (hc : c.isCall)
    (hr : ∀ r, LoadCall.Reply s c r → ∃ w, r = .returned w)
    (henv : ∀ l c r l', env l c r l' → LoadCall.Reply s c r) {ret : Word}
    (h : (original c).Exec env log tr ret log') :
    callsOf tr = [c] ∧ (c, .returned ret) ∈ tr := by
  obtain ⟨r, u, _, rfl, hstep, h⟩ := h
  obtain ⟨w, rfl⟩ := hr r (henv _ _ _ _ hstep)
  obtain ⟨rfl, rfl, -⟩ := h
  exact ⟨by simp [callsOf, hc], by simp⟩

/-- Without a path nothing is called, and with one every callback once, in order. -/
theorem exec_onSoLoaded (henv : ∀ l c r l', env l c r l' → LoadCall.Reply s c r)
    {path : Option Path} {f : Path → Ptr → HeapCall}
    (hf : ∀ path cb, (LoadCall.heap (f path cb)).isCall) {u : Unit}
    (h : ((onSoLoaded s.linkerCallBackList path f).embed .heap LoadAnswer.toHeap).Exec env
      log tr u log') :
    callsOf tr = path.elim [] fun path => s.callbacks.map fun cb => .heap (f path cb) := by
  cases path with
  | none =>
    obtain ⟨rfl, -, -⟩ := h
    rfl
  | some path =>
    rw [onSoLoaded] at h
    by_cases hlist : s.linkerCallBackList = nullptr
    · rw [if_neg (not_not.mpr hlist)] at h
      obtain ⟨rfl, -, -⟩ := h
      simp [callsOf, s.callbacks_null hlist]
    · rw [if_pos hlist, forEachCallback, Prog.call_bind, Prog.embed_ask] at h
      obtain ⟨r, v, tr, rfl, hstep, h⟩ := h
      obtain rfl := henv _ _ _ _ hstep rfl
      simp only [LoadAnswer.toHeap, Prog.embed_forEach] at h
      have htr : tr.map Prod.fst = s.callbacks.map fun cb => LoadCall.heap (f path cb) :=
        Prog.exec_forEach_call h
      rw [callsOf, List.map_cons, htr, List.filter_cons_of_neg (by simp [LoadCall.isCall])]
      exact List.filter_eq_self.mpr (by simp [hf])

/-- The calls of a hook: every callback before, the replaced function once, every callback
after. -/
theorem exec_load (henv : ∀ l c r l', env l c r l' → LoadCall.Reply s c r)
    (load : Load) {ret : Word} (h : (load.body s).Exec env log tr ret log') :
    ∃ w, (load.orig (relocated s load.filename), .returned w) ∈ tr ∧ ret = load.returns w ∧
      callsOf tr =
        (load.filename.elim [] fun f => s.callbacks.map fun cb => .heap (.loadBefore cb f)) ++
        load.orig (relocated s load.filename) :: load.filename.elim [] fun f =>
          s.callbacks.map fun cb =>
            .heap (.loadAfter cb f (linkerIORedirect s load.filename) (load.reported ret)) := by
  have hcall : (load.orig (relocated s load.filename)).isCall := by cases load <;> rfl
  have hret : ∀ r, LoadCall.Reply s (load.orig (relocated s load.filename)) r →
      ∃ w, r = .returned w := by
    intro r hr
    cases load <;> exact hr
  rw [Load.body_eq] at h
  obtain ⟨_, _, tr₁, _, rfl, hbefore, h⟩ := Prog.exec_bind.mp h
  obtain ⟨w, _, tr₂, _, rfl, horig, h⟩ := Prog.exec_bind.mp h
  obtain ⟨_, _, tr₃, _, rfl, hafter, h⟩ := Prog.exec_bind.mp h
  obtain ⟨rfl, rfl, -⟩ := h
  obtain ⟨horig, hmem⟩ := exec_original hcall hret henv horig
  refine ⟨w, by simp [hmem], rfl, ?_⟩
  rw [callsOf_append, callsOf_append, callsOf_append, horig,
    exec_onSoLoaded henv (fun _ _ => rfl) hbefore, exec_onSoLoaded henv (fun _ _ => rfl) hafter]
  simp [callsOf]

theorem filterMap_seenBy (callback : Ptr) (tr : Trace LoadCall LoadAnswer) :
    (callsOf tr).filterMap (LoadCall.seenBy callback) =
      (tr.map Prod.fst).filterMap (LoadCall.seenBy callback) := by
  rw [callsOf, List.filterMap_filter]
  refine List.filterMap_congr fun c _ => ?_
  cases c with
  | heap c => cases c <;> rfl
  | _ => rfl

/-- A callback hears of a call as often as it is in the list. -/
theorem filterMap_told {callback : Ptr} {b : Bracket Path} {c : Ptr → LoadCall}
    (hc : ∀ cb, (c cb).seenBy callback = if cb = callback then some b else none)
    (callbacks : List Ptr) :
    (callbacks.map c).filterMap (LoadCall.seenBy callback) =
      List.replicate (callbacks.count callback) b := by
  induction callbacks with
  | nil => rfl
  | cons cb callbacks ih =>
    rw [List.map_cons, List.filterMap_cons, hc, ih, List.count_cons]
    by_cases hcb : cb = callback
    · simp [hcb, List.replicate_succ]
    · simp [hcb]

/-- What a hook itself tells a callback is properly nested. -/
theorem exec_load_properlyNested (henv : ∀ l c r l', env l c r l' → LoadCall.Reply s c r)
    (load : Load) {ret : Word} (h : (load.body s).Exec env log tr ret log') (callback : Ptr) :
    ProperlyNested ((tr.map Prod.fst).filterMap (LoadCall.seenBy callback)) := by
  obtain ⟨w, -, -, hcalls⟩ := exec_load henv load h
  have horig : (load.orig (relocated s load.filename)).seenBy callback = none := by
    cases load <;> rfl
  rw [← filterMap_seenBy, hcalls, List.filterMap_append, List.filterMap_cons, horig]
  cases load.filename with
  | none => exact properlyNested_nil
  | some f =>
    simp only [Option.elim_some]
    rw [filterMap_told fun _ => rfl, filterMap_told fun _ => rfl]
    exact properlyNested_replicate f _

end

/-- For loads nested to any depth. A hook with a path calls every callback of the list once
before and once after the one call of the replaced function, which gets the redirected path
if there is one; and what a callback hears of all loads is properly nested. -/
theorem loads_bracketed (s : LinkerStatics) (depth : ℕ) :
    (∀ (load : Load) (f : Path) (log : List LoadCall) (tr : Trace LoadCall LoadAnswer)
      (ret : Word) (log' : List LoadCall), load.filename = some f →
      (load.body s).Exec (loading s depth) log tr ret log' →
      let redirected := linkerIORedirect s (some f)
      let orig := load.orig (some (if redirected = [] then f else redirected))
      ∃ w, (orig, .returned w) ∈ tr ∧ ret = load.returns w ∧
        callsOf tr = (s.callbacks.map fun cb => .heap (.loadBefore cb f)) ++ orig ::
          s.callbacks.map fun cb => .heap (.loadAfter cb f redirected (load.reported ret))) ∧
    ∀ log, Loads s depth log → ∀ callback,
      ProperlyNested (log.filterMap (LoadCall.seenBy callback)) := by
  refine ⟨?_, ?_⟩
  · intro load f log tr ret log' hf hrun redirected orig
    obtain ⟨w, hmem, hret, hcalls⟩ := exec_load (fun _ _ _ _ => nested_reply) load hrun
    have horig : orig = load.orig (relocated s load.filename) := by
      simp only [orig, relocated, hf, redirected]
      split_ifs <;> rfl
    refine ⟨w, horig ▸ hmem, hret, ?_⟩
    rw [horig, hcalls, hf]
    rfl
  · intro log hlog callback
    exact hlog.properlyNested _ fun load _ _ _ _ _ hrun =>
      exec_load_properlyNested (fun _ _ _ _ => nested_reply) load hrun callback

/-- Everything is answered at once. -/
def answerAtOnce (s : LinkerStatics) (log : List LoadCall) (c : LoadCall) :
    LoadAnswer × List LoadCall :=
  (match c with
    | .heap (.elements _) => .heap (.elements s.callbacks)
    | .heap _ => .heap .done
    | _ => .returned 5, log ++ [c])

theorem answerAtOnce_reply (s : LinkerStatics) (log : List LoadCall) (c : LoadCall) :
    LoadCall.Reply s c (answerAtOnce s log c).1 := by
  cases c with
  | heap c => cases c <;> simp [LoadCall.Reply, answerAtOnce]
  | _ => exact ⟨5, rfl⟩

theorem answerAtOnce_loading (s : LinkerStatics) (depth : ℕ) (log : List LoadCall)
    (c : LoadCall) :
    loading s depth log c (answerAtOnce s log c).1 (answerAtOnce s log c).2 :=
  nested_answer (answerAtOnce_reply s log c) depth log

/-- While `outer` is answered `inner` runs. -/
def loadsInside (s : LinkerStatics) (outer : LoadCall) (inner : Load) (log : List LoadCall)
    (c : LoadCall) : LoadAnswer × List LoadCall :=
  let answered := answerAtOnce s log c
  (answered.1, if c = outer then ((inner.body s).runWith (answerAtOnce s) answered.2).2.2
    else answered.2)

theorem loadsInside_loading (s : LinkerStatics) (outer : LoadCall) (houter : outer.isCall)
    (inner : Load) (log : List LoadCall) (c : LoadCall) :
    loading s 1 log c (loadsInside s outer inner log c).1 (loadsInside s outer inner log c).2 := by
  by_cases hc : c = outer
  · subst hc
    have hinner := Prog.runWith_exec (answerAtOnce_loading s 0) (inner.body s) (log ++ [c])
    rw [loadsInside, if_pos rfl]
    exact ⟨answerAtOnce_reply s log c, .single ⟨houter, inner, _, _, hinner⟩⟩
  · rw [loadsInside, if_neg hc]
    exact answerAtOnce_loading s 1 log c

/-- Two callbacks, and a redirection of `a` to `b`. -/
def redirectA : LinkerStatics where
  linkerCallBackList := 1
  callbacks := [7, 8]
  linkerIoRedirect := some fun path => if path = ['a'] then ['b'] else []
  callbacks_null := by simp [nullptr]

theorem loads_bracketed_redirectA :
    let run := ((Load.dlopenCI (some ['a']) 2).body redirectA).runWith
      (loadsInside redirectA (.origDlopenCI (some ['b']) 2) (.openat 3 (some ['c']) 0 0)) []
    callsOf run.1 = [.heap (.loadBefore 7 ['a']), .heap (.loadBefore 8 ['a']),
      .origDlopenCI (some ['b']) 2,
      .heap (.loadAfter 7 ['a'] ['b'] 5), .heap (.loadAfter 8 ['a'] ['b'] 5)] ∧
    ProperlyNested (run.2.2.filterMap (LoadCall.seenBy 7)) := by
  intro run
  have hrun := Prog.runWith_exec (loadsInside_loading redirectA (.origDlopenCI (some ['b']) 2) rfl
    (.openat 3 (some ['c']) 0 0)) ((Load.dlopenCI (some ['a']) 2).body redirectA) []
  obtain ⟨w, -, -, hcalls⟩ := (loads_bracketed redirectA 1).1 _ ['a'] _ _ _ _ rfl hrun
  exact ⟨hcalls, (loads_bracketed redirectA 1).2 _ (.single ⟨_, _, _, hrun⟩) 7⟩

end NativeLib.Linker
