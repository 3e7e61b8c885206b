import Mathlib.Logic.Function.Basic
import NativeLib.ShadowHook.Switches

/-! Functions that several have hooked: the hubs and the stacks of `sh_hub.cpp`. The writers of a
list of proxies take turns, its readers do not wait for them. -/

namespace NativeLib.ShadowHook

def SH_HUB_STACK_FRAME_MAX : ℕ := 127

structure Proxy where
  func : BitVec 64
  enabled : Bool
  deriving DecidableEq, Repr

/-- `sh_hub_t`. The list of proxies is kept from its tail on, so that a proxy stays where it is when
others come in. The proxy at `n` is the first of a list of height `n + 1`, and a pointer into the
list is a height. -/
structure Hub where
  proxies : List Proxy
  origAddr : BitVec 64
  deriving DecidableEq, Repr

/-- `SLIST_FOREACH` until there is one with the property. -/
def findBelow (proxies : List Proxy) (property : Proxy → Bool) : ℕ → Option ℕ
  | 0 => none
  | n + 1 => if (proxies[n]?).any property then some n else findBelow proxies property n

namespace Hub

variable (hub : Hub) (func : BitVec 64)

/-- `sh_hub_add_proxy`. -/
def addProxy (malloc : Bool) : ℤ × Hub :=
  if (findBelow hub.proxies (fun proxy => proxy.enabled && proxy.func == func)
      hub.proxies.length).isSome then (SHADOWHOOK_ERRNO_HOOK_DUP, hub)
  else match findBelow hub.proxies (·.func == func) hub.proxies.length with
    | some n => (0, { hub with proxies := hub.proxies.modify n ({ · with enabled := true }) })
    | none =>
      if malloc = false then (SHADOWHOOK_ERRNO_OOM, hub)
      else (0, { hub with proxies := hub.proxies ++ [⟨func, true⟩] })

/-- The loop of `sh_hub_del_proxy`: what has been deleted, and whether one that is enabled has been
seen. -/
def delProxyLoop (deleted enabled : Bool) (proxies : List Proxy) :
    ℕ → Bool × Bool × List Proxy
  | 0 => (deleted, enabled, proxies)
  | n + 1 =>
    let same := (proxies[n]?).any (·.func == func)
    let proxies := if same then proxies.modify n ({ · with enabled := false }) else proxies
    let deleted := deleted || same
    let enabled := enabled || (proxies[n]?).any (·.enabled)
    if deleted && enabled then (deleted, enabled, proxies)
    else delProxyLoop deleted enabled proxies n

/-- `sh_hub_del_proxy`, with what it says of the proxies that are left. -/
def delProxy : ℤ × Bool × Hub :=
  let (deleted, enabled, proxies) := delProxyLoop func false false hub.proxies hub.proxies.length
  (if deleted then 0 else -1, enabled, { hub with proxies := proxies })

end Hub

/-- `sh_hub_frame_t`. Its list is one of a hub. -/
structure HubFrame (ι : Type) where
  hub : ι
  height : ℕ
  origAddr : BitVec 64
  returnAddress : BitVec 64
  allowReentrant : Bool
  deriving DecidableEq

/-- Where a thread is in a list: `sh_hub_push_stack` looks for a proxy that is enabled and has found
one; `sh_hub_get_prev_func` looks for a function and, past that, for a proxy that is enabled. -/
inductive HubWalk (ι : Type)
  | idle
  | push (hub : ι) (returnAddress : BitVec 64) (height : ℕ)
  | found (hub : ι) (returnAddress : BitVec 64) (n : ℕ)
  | prev (hub : ι) (origAddr func : BitVec 64) (found : Bool) (height : ℕ)
  deriving DecidableEq

/-- What a thread is told to call. -/
inductive HubAnswer
  | proxy (n : ℕ) (func : BitVec 64)
  | orig (origAddr : BitVec 64)
  deriving DecidableEq, Repr

/-- A thread; the last frame of its stack comes first. -/
structure HubThread (ι : Type) where
  stack : Option (List (HubFrame ι))
  walk : HubWalk ι
  deriving DecidableEq

structure Hubs (ι τ : Type) where
  hub : ι → Hub
  thread : τ → HubThread ι

namespace HubThread

variable {ι : Type} (thread : HubThread ι)

def frames : List (HubFrame ι) := thread.stack.getD []

/-- `sh_hub_push_stack` up to its loop. Without a stack, and in a recursive call, there is none. -/
def pushStack (hub : ι) (self : Hub) (returnAddress : BitVec 64) (mmap : Bool) :
    HubThread ι × Option HubAnswer :=
  if thread.stack.isNone && !mmap then (thread, some (.orig self.origAddr))
  else if thread.frames.any fun frame => !frame.allowReentrant && frame.origAddr == self.origAddr
  then (⟨some thread.frames, .idle⟩, some (.orig self.origAddr))
  else (⟨some thread.frames, .push hub returnAddress self.proxies.length⟩, none)

/-- One step in a list. -/
def next (hub : ι → Hub) : HubThread ι × Option HubAnswer :=
  match thread.walk with
  | .idle => (thread, none)
  | .push i _ 0 => ({ thread with walk := .idle }, some (.orig (hub i).origAddr))
  | .push i returnAddress (n + 1) =>
    if ((hub i).proxies[n]?).any (·.enabled) then
      if thread.frames.length < SH_HUB_STACK_FRAME_MAX then
        ({ thread with walk := .found i returnAddress n }, none)
      else ({ thread with walk := .idle }, some (.orig (hub i).origAddr))
    else ({ thread with walk := .push i returnAddress n }, none)
  | .found i returnAddress n =>
    -- The frame gets the list as it is by now.
    let frame := ⟨i, (hub i).proxies.length, (hub i).origAddr, returnAddress, false⟩
    (⟨some (frame :: thread.frames), .idle⟩, ((hub i).proxies[n]?).map (.proxy n ·.func))
  | .prev _ origAddr _ _ 0 => ({ thread with walk := .idle }, some (.orig origAddr))
  | .prev i origAddr func false (n + 1) =>
    let found := ((hub i).proxies[n]?).any (·.func == func)
    ({ thread with walk := .prev i origAddr func found n }, none)
  | .prev i origAddr func true (n + 1) =>
    match (hub i).proxies[n]? with
    | some ⟨func', true⟩ => ({ thread with walk := .idle }, some (.proxy n func'))
    | _ => ({ thread with walk := .prev i origAddr func true n }, none)

/-- `sh_hub_get_prev_func` up to its loop. It aborts outside of a hook. -/
def getPrevFunc (func : BitVec 64) : Option (HubThread ι) :=
  match thread.stack with
  | some (frame :: _) =>
    some { thread with walk := .prev frame.hub frame.origAddr func false frame.height }
  | _ => none

/-- The frame of a function that was called from `returnAddress`, if it is the last, is changed. -/
def onFrame (returnAddress : BitVec 64) (change : HubFrame ι → List (HubFrame ι)) :
    Option (HubThread ι) :=
  match thread.stack with
  | none => none
  | some [] => some thread
  | some (frame :: frames) =>
    if frame.returnAddress = returnAddress then
      some { thread with stack := some (change frame ++ frames) }
    else some thread

/-- `sh_hub_pop_stack`. A thread without a stack does not survive it. -/
def popStack (returnAddress : BitVec 64) : Option (HubThread ι) :=
  thread.onFrame returnAddress fun _ => []

/-- `sh_hub_allow_reentrant`. -/
def doAllowReentrant (returnAddress : BitVec 64) : Option (HubThread ι) :=
  thread.onFrame returnAddress fun frame => [{ frame with allowReentrant := true }]

/-- `sh_hub_disallow_reentrant`. -/
def doDisallowReentrant (returnAddress : BitVec 64) : Option (HubThread ι) :=
  thread.onFrame returnAddress fun frame => [{ frame with allowReentrant := false }]

end HubThread

/-- What happens to the hubs, each of it at once. -/
inductive HubEvent (ι τ : Type)
  | add (hub : ι) (func : BitVec 64) (malloc : Bool)
  | del (hub : ι) (func : BitVec 64)
  | call (thread : τ) (hub : ι) (returnAddress : BitVec 64) (mmap : Bool)
  | prev (thread : τ) (func : BitVec 64)
  | next (thread : τ)
  | pop (thread : τ) (returnAddress : BitVec 64)
  | allow (thread : τ) (returnAddress : BitVec 64)
  | disallow (thread : τ) (returnAddress : BitVec 64)
  deriving DecidableEq

namespace Hubs

variable {ι τ : Type} [DecidableEq ι] [DecidableEq τ] (s : Hubs ι τ)

def setHub (i : ι) (hub : Hub) : Hubs ι τ := { s with hub := Function.update s.hub i hub }

def setThread (t : τ) (thread : HubThread ι) : Hubs ι τ :=
  { s with thread := Function.update s.thread t thread }

/-- May this happen? A thread that walks a list does nothing else. -/
def Enabled : HubEvent ι τ → Prop
  | .add .. | .del .. => True
  | .next t => (s.thread t).walk ≠ .idle
  | .call t .. | .prev t _ | .pop t _ | .allow t _ | .disallow t _ => (s.thread t).walk = .idle

instance (event : HubEvent ι τ) : Decidable (s.Enabled event) :=
  match event with
  | .add .. | .del .. => isTrue trivial
  | .next t => inferInstanceAs (Decidable ((s.thread t).walk ≠ .idle))
  | .call t .. | .prev t _ | .pop t _ | .allow t _ | .disallow t _ =>
    inferInstanceAs (Decidable ((s.thread t).walk = .idle))

/-- What comes of it, and what a thread is told to call; none if the process is no more. -/
def step : HubEvent ι τ → Option (Hubs ι τ × Option HubAnswer)
  | .add i func malloc => some (s.setHub i ((s.hub i).addProxy func malloc).2, none)
  | .del i func => some (s.setHub i ((s.hub i).delProxy func).2.2, none)
  | .call t i returnAddress mmap =>
    let (thread, answer) := (s.thread t).pushStack i (s.hub i) returnAddress mmap
    some (s.setThread t thread, answer)
  | .next t =>
    let (thread, answer) := (s.thread t).next s.hub
    some (s.setThread t thread, answer)
  | .prev t func => ((s.thread t).getPrevFunc func).map fun thread => (s.setThread t thread, none)
  | .pop t returnAddress =>
    ((s.thread t).popStack returnAddress).map fun thread => (s.setThread t thread, none)
  | .allow t returnAddress =>
    ((s.thread t).doAllowReentrant returnAddress).map fun thread => (s.setThread t thread, none)
  | .disallow t returnAddress =>
    ((s.thread t).doDisallowReentrant returnAddress).map fun thread => (s.setThread t thread, none)

/-- Things happen one after the other, and what is asked for holds all the way. -/
inductive Run (holds : Hubs ι τ → Prop) : Hubs ι τ → List (HubEvent ι τ × Option HubAnswer) →
    Hubs ι τ → Prop
  | nil {s : Hubs ι τ} (hs : holds s) : Run holds s [] s
  | cons {s s' q : Hubs ι τ} {event : HubEvent ι τ} {answer : Option HubAnswer}
      {events : List (HubEvent ι τ × Option HubAnswer)} (hs : holds s) (henabled : s.Enabled event)
      (hstep : s.step event = some (s', answer)) (hrun : Run holds s' events q) :
      Run holds s ((event, answer) :: events) q

end Hubs

end NativeLib.ShadowHook
