import Mathlib.Data.List.Nodup
import Mathlib.Tactic.SplitIfs
import NativeLib.ShadowHook.Hubs

/-! What holds of the hubs and of the stacks of the threads, whoever comes first. -/

namespace NativeLib.ShadowHook

variable {ι τ : Type}

section

variable {proxies : List Proxy} {property : Proxy → Bool} {h n : ℕ}

theorem lt_of_findBelow (hfind : findBelow proxies property h = some n) :
    n < h ∧ (proxies[n]?).any property = true := by
  induction h with
  | zero => exact absurd hfind (by simp [findBelow])
  | succ m ih =>
    rw [findBelow] at hfind
    split_ifs at hfind with hm
    · obtain rfl : m = n := Option.some.inj hfind
      exact ⟨Nat.lt_succ_self m, hm⟩
    · obtain ⟨hlt, hn⟩ := ih hfind
      exact ⟨Nat.lt_succ_of_lt hlt, hn⟩

theorem not_of_findBelow (hfind : findBelow proxies property h = none) (hn : n < h) :
    (proxies[n]?).any property = false := by
  induction h with
  | zero => exact absurd hn (Nat.not_lt_zero n)
  | succ m ih =>
    rw [findBelow] at hfind
    split_ifs at hfind with hm
    rcases Nat.lt_succ_iff_lt_or_eq.mp hn with hlt | rfl
    · exact ih hfind hlt
    · exact Bool.eq_false_of_not_eq_true hm

end

namespace Hub

variable {hub hub' : Hub} {func : BitVec 64} {n : ℕ}

def funcs (hub : Hub) : List (BitVec 64) := hub.proxies.map (·.func)

/-- The list only gets more proxies. -/
structure Grows (hub hub' : Hub) : Prop where
  funcs : hub.funcs <+: hub'.funcs
  origAddr : hub'.origAddr = hub.origAddr

theorem Grows.refl (hub : Hub) : Grows hub hub := ⟨List.prefix_refl _, rfl⟩

theorem Grows.trans {hub'' : Hub} (h : Grows hub hub') (h' : Grows hub' hub'') :
    Grows hub hub'' :=
  ⟨h.funcs.trans h'.funcs, h'.origAddr.trans h.origAddr⟩

theorem Grows.length_le (h : Grows hub hub') : hub.proxies.length ≤ hub'.proxies.length := by
  have hle := h.funcs.length_le
  rwa [Hub.funcs, Hub.funcs, List.length_map, List.length_map] at hle

theorem Grows.getElem? (h : Grows hub hub') (hn : hub.funcs[n]? = some func) :
    hub'.funcs[n]? = some func := by
  obtain ⟨more, hmore⟩ := h.funcs
  have hlt := (List.getElem?_eq_some_iff.mp hn).1
  rw [← hmore, List.getElem?_append_left hlt, hn]

theorem map_func_modify (proxies : List Proxy) (enabled : Bool) :
    (proxies.modify n ({ · with enabled := enabled })).map (·.func) = proxies.map (·.func) := by
  apply List.ext_getElem?
  intro m
  rw [List.getElem?_map, List.getElem?_map, List.getElem?_modify]
  split_ifs <;> cases proxies[m]? <;> rfl

theorem grows_addProxy (malloc : Bool) : hub.Grows (hub.addProxy func malloc).2 := by
  rw [addProxy]
  by_cases hdup : (findBelow hub.proxies (fun proxy => proxy.enabled && proxy.func == func)
      hub.proxies.length).isSome
  · rw [if_pos hdup]
    exact .refl hub
  rw [if_neg hdup]
  cases findBelow hub.proxies (·.func == func) hub.proxies.length with
  | some n => exact ⟨by simp only [funcs, map_func_modify, List.prefix_rfl], rfl⟩
  | none =>
    cases malloc with
    | false => exact .refl hub
    | true => exact ⟨⟨[func], by simp [funcs]⟩, rfl⟩

/-- No function is in the list twice, also not one that is disabled. -/
theorem nodup_addProxy {malloc : Bool} (h : hub.funcs.Nodup) :
    (hub.addProxy func malloc).2.funcs.Nodup := by
  rw [addProxy]
  by_cases hdup : (findBelow hub.proxies (fun proxy => proxy.enabled && proxy.func == func)
      hub.proxies.length).isSome
  · rwa [if_pos hdup]
  rw [if_neg hdup]
  cases hfind : findBelow hub.proxies (·.func == func) hub.proxies.length with
  | some n => rwa [funcs, map_func_modify]
  | none =>
    cases malloc with
    | false => exact h
    | true =>
      have hnew : func ∉ hub.funcs := by
        intro hmem
        obtain ⟨proxy, hproxy, rfl⟩ := List.mem_map.mp hmem
        obtain ⟨n, hn, rfl⟩ := List.getElem_of_mem hproxy
        have hnot := not_of_findBelow hfind hn
        rw [List.getElem?_eq_getElem hn] at hnot
        exact absurd hnot (by simp)
      simp only [funcs, List.map_append, Bool.true_eq_false, if_false]
      exact h.append (List.nodup_singleton _) (by simpa using hnew)

theorem map_func_delProxyLoop (proxies : List Proxy) (deleted enabled : Bool) (h : ℕ) :
    (delProxyLoop func deleted enabled proxies h).2.2.map (·.func) = proxies.map (·.func) := by
  induction h generalizing proxies deleted enabled with
  | zero => rfl
  | succ n ih =>
    obtain ⟨proxies', hp⟩ : ∃ proxies', proxies' = if (proxies[n]?).any (·.func == func) then
      proxies.modify n ({ · with enabled := false }) else proxies := ⟨_, rfl⟩
    have hsame : proxies'.map (·.func) = proxies.map (·.func) := by
      rw [hp]
      split_ifs
      · exact map_func_modify proxies false
      · rfl
    rw [delProxyLoop, ← hp]
    split
    · exact hsame
    · exact (ih _ _ _).trans hsame

theorem funcs_delProxy : (hub.delProxy func).2.2.funcs = hub.funcs :=
  map_func_delProxyLoop hub.proxies false false hub.proxies.length

theorem grows_delProxy : hub.Grows (hub.delProxy func).2.2 :=
  ⟨by simp only [funcs_delProxy, List.prefix_rfl], rfl⟩

end Hub

variable {hub hub' : ι → Hub} {thread thread' : HubThread ι} {frame : HubFrame ι} {i : ι}
  {returnAddress func : BitVec 64} {answer : Option HubAnswer}

/-- The frame has a list of its hub. -/
def HubFrame.Fits (hub : ι → Hub) (frame : HubFrame ι) : Prop :=
  frame.height ≤ (hub frame.hub).proxies.length ∧ frame.origAddr = (hub frame.hub).origAddr

namespace HubWalk

def Fits (hub : ι → Hub) : HubWalk ι → Prop
  | idle => True
  | push i _ h => h ≤ (hub i).proxies.length
  | found i _ n => n < (hub i).proxies.length
  | prev i origAddr _ _ h => h ≤ (hub i).proxies.length ∧ origAddr = (hub i).origAddr

/-- The thread is about to enter a proxy of the hub. -/
def Enters (i : ι) : HubWalk ι → Prop
  | push j _ _ | found j _ _ => j = i
  | _ => False

def Found : HubWalk ι → Prop
  | found .. => True
  | _ => False

end HubWalk

/-- What holds of a thread at all times. Of the frames of one function, all but the last allow
re-entry. -/
structure HubThread.Sound (hub : ι → Hub) (thread : HubThread ι) : Prop where
  frames : ∀ frame ∈ thread.frames, frame.Fits hub
  walk : thread.walk.Fits hub
  length : thread.frames.length ≤ SH_HUB_STACK_FRAME_MAX
  room : thread.walk.Found → thread.frames.length < SH_HUB_STACK_FRAME_MAX
  reentrant : thread.frames.Pairwise fun frame below =>
    below.origAddr = frame.origAddr → below.allowReentrant = true
  enters : ∀ i, thread.walk.Enters i → ∀ frame ∈ thread.frames,
    frame.origAddr = (hub i).origAddr → frame.allowReentrant = true

namespace HubThread.Sound

theorem init : (HubThread.mk (ι := ι) none .idle).Sound hub where
  frames _ hmem := absurd hmem List.not_mem_nil
  walk := trivial
  length := Nat.zero_le _
  room := False.elim
  reentrant := .nil
  enters _ h := h.elim

theorem grows (h : thread.Sound hub) (hgrows : ∀ i, (hub i).Grows (hub' i)) :
    thread.Sound hub' := by
  refine ⟨fun frame hmem => ?_, ?_, h.length, h.room, h.reentrant, fun i hi frame hmem he => ?_⟩
  · obtain ⟨hle, horig⟩ := h.frames frame hmem
    exact ⟨Nat.le_trans hle (hgrows _).length_le, horig.trans (hgrows _).origAddr.symm⟩
  · have hwalk := h.walk
    cases hw : thread.walk with
    | idle => trivial
    | push i _ n =>
      rw [hw] at hwalk
      exact Nat.le_trans hwalk (hgrows i).length_le
    | found i _ n =>
      rw [hw] at hwalk
      exact Nat.lt_of_lt_of_le hwalk (hgrows i).length_le
    | prev i origAddr _ _ n =>
      rw [hw] at hwalk
      exact ⟨Nat.le_trans hwalk.1 (hgrows i).length_le, hwalk.2.trans (hgrows i).origAddr.symm⟩
  · exact h.enters i hi frame hmem (he.trans (hgrows i).origAddr)

/-- The thread takes another place in a list, or none. -/
theorem move (h : thread.Sound hub) {walk : HubWalk ι} (hwalk : walk.Fits hub)
    (hroom : walk.Found → thread.frames.length < SH_HUB_STACK_FRAME_MAX)
    (henters : ∀ i, walk.Enters i → ∀ frame ∈ thread.frames,
      frame.origAddr = (hub i).origAddr → frame.allowReentrant = true) :
    HubThread.Sound hub { thread with walk := walk } :=
  ⟨h.frames, hwalk, h.length, hroom, h.reentrant, henters⟩

theorem idle (h : thread.Sound hub) : HubThread.Sound hub { thread with walk := .idle } :=
  h.move trivial False.elim fun _ hi => hi.elim

theorem pushStack (h : thread.Sound hub) {mmap : Bool}
    (hpush : thread.pushStack i (hub i) returnAddress mmap = (thread', answer)) :
    thread'.Sound hub := by
  have hstack : HubThread.Sound hub { thread with stack := some thread.frames } :=
    ⟨h.frames, h.walk, h.length, h.room, h.reentrant, h.enters⟩
  rw [HubThread.pushStack] at hpush
  split_ifs at hpush with hnone hrecursive
  · obtain ⟨rfl, -⟩ := Prod.mk.inj hpush
    exact h
  · obtain ⟨rfl, -⟩ := Prod.mk.inj hpush
    exact hstack.idle
  · obtain ⟨rfl, -⟩ := Prod.mk.inj hpush
    refine hstack.move (Nat.le_refl _) False.elim fun j hj frame hmem he => ?_
    obtain rfl : i = j := hj
    by_contra hnot
    refine hrecursive (List.any_eq_true.mpr ⟨frame, hmem, ?_⟩)
    simpa [he] using hnot

theorem next (h : thread.Sound hub) (hnext : thread.next hub = (thread', answer)) :
    thread'.Sound hub := by
  obtain ⟨stack, walk⟩ := thread
  have hwalk := h.walk
  cases walk with
  | idle =>
    obtain ⟨rfl, -⟩ := Prod.mk.inj hnext
    exact h
  | push i returnAddress height =>
    cases height with
    | zero =>
      obtain ⟨rfl, -⟩ := Prod.mk.inj hnext
      exact h.idle
    | succ n =>
      rw [HubThread.next] at hnext
      simp only at hnext
      split_ifs at hnext with henabled hroom
      · obtain ⟨rfl, -⟩ := Prod.mk.inj hnext
        exact h.move (Nat.lt_of_succ_le hwalk) (fun _ => hroom) h.enters
      · obtain ⟨rfl, -⟩ := Prod.mk.inj hnext
        exact h.idle
      · obtain ⟨rfl, -⟩ := Prod.mk.inj hnext
        exact h.move (Nat.le_of_succ_le hwalk) False.elim h.enters
  | found i returnAddress n =>
    obtain ⟨rfl, -⟩ := Prod.mk.inj hnext
    refine ⟨?_, trivial, h.room trivial, False.elim, ?_, fun _ hi => hi.elim⟩
    · exact List.forall_mem_cons.mpr ⟨⟨Nat.le_refl _, rfl⟩, h.frames⟩
    · exact List.pairwise_cons.mpr ⟨h.enters i rfl, h.reentrant⟩
  | prev i origAddr func found height =>
    cases height with
    | zero =>
      obtain ⟨rfl, -⟩ : _ = thread' ∧ _ := Prod.mk.inj hnext
      exact h.idle
    | succ n =>
      have hlow : n ≤ (hub i).proxies.length ∧ origAddr = (hub i).origAddr :=
        ⟨Nat.le_of_succ_le hwalk.1, hwalk.2⟩
      cases found with
      | false =>
        obtain ⟨rfl, -⟩ := Prod.mk.inj hnext
        exact h.move hlow False.elim fun _ hi => hi.elim
      | true =>
        rw [HubThread.next] at hnext
        simp only at hnext
        split at hnext
        · obtain ⟨rfl, -⟩ := Prod.mk.inj hnext
          exact h.idle
        · obtain ⟨rfl, -⟩ := Prod.mk.inj hnext
          exact h.move hlow False.elim fun _ hi => hi.elim

theorem getPrevFunc (h : thread.Sound hub) (hprev : thread.getPrevFunc func = some thread') :
    thread'.Sound hub := by
  obtain ⟨stack, walk⟩ := thread
  rw [HubThread.getPrevFunc] at hprev
  split at hprev
  · next frame frames hstack =>
    obtain rfl := Option.some.inj hprev
    obtain rfl : stack = some (frame :: frames) := hstack
    exact h.move (h.frames frame List.mem_cons_self) False.elim fun _ hi => hi.elim
  · exact absurd hprev (by simp)

/-- The last frame may go, and it may be made to allow re-entry, or not to. -/
theorem onFrame (h : thread.Sound hub) {change : HubFrame ι → List (HubFrame ι)}
    (hchange : ∀ frame, change frame = [] ∨
      ∃ allowReentrant, change frame = [{ frame with allowReentrant := allowReentrant }])
    (hidle : thread.walk = .idle) (hon : thread.onFrame returnAddress change = some thread') :
    thread'.Sound hub := by
  obtain ⟨stack, walk⟩ := thread
  obtain rfl : walk = .idle := hidle
  rw [HubThread.onFrame] at hon
  split at hon
  · exact absurd hon (by simp)
  · obtain rfl := Option.some.inj hon
    exact h
  · next frame frames hstack =>
    obtain rfl : stack = some (frame :: frames) := hstack
    split_ifs at hon with hreturn
    · obtain rfl := Option.some.inj hon
      obtain ⟨hframe, hframes⟩ := List.forall_mem_cons.mp h.frames
      obtain ⟨hlast, hrest⟩ := List.pairwise_cons.mp h.reentrant
      have hlength := h.length
      rcases hchange frame with hnone | ⟨allowReentrant, hsome⟩
      · rw [hnone]
        refine ⟨hframes, trivial, ?_, False.elim, hrest, fun _ hi => hi.elim⟩
        exact Nat.le_trans (Nat.le_succ _) hlength
      · rw [hsome]
        refine ⟨List.forall_mem_cons.mpr ⟨hframe, hframes⟩, trivial, hlength, False.elim,
          List.pairwise_cons.mpr ⟨hlast, hrest⟩, fun _ hi => hi.elim⟩
    · obtain rfl := Option.some.inj hon
      exact h

end HubThread.Sound

namespace Hubs

/-- What holds at all times. -/
structure Sound (s : Hubs ι τ) : Prop where
  nodup : ∀ i, (s.hub i).funcs.Nodup
  thread : ∀ t, (s.thread t).Sound s.hub

/-- Nothing has been hooked, and nobody is in a hook. -/
structure Fresh (s : Hubs ι τ) : Prop where
  hub : ∀ i, (s.hub i).proxies = []
  thread : ∀ t, s.thread t = ⟨none, .idle⟩

theorem Fresh.sound {s : Hubs ι τ} (h : s.Fresh) : s.Sound :=
  ⟨fun i => by rw [Hub.funcs, h.hub]; exact .nil, fun t => by rw [h.thread]; exact .init⟩

@[simp] theorem setHub_self [DecidableEq ι] {s : Hubs ι τ} {hub : Hub} :
    (s.setHub i hub).hub i = hub :=
  Function.update_self ..

theorem setHub_of_ne [DecidableEq ι] {s : Hubs ι τ} {hub : Hub} {j : ι} (hj : j ≠ i) :
    (s.setHub i hub).hub j = s.hub j :=
  Function.update_of_ne hj ..

@[simp] theorem setThread_self [DecidableEq τ] {s : Hubs ι τ} {t : τ} {thread : HubThread ι} :
    (s.setThread t thread).thread t = thread :=
  Function.update_self ..

theorem setThread_of_ne [DecidableEq τ] {s : Hubs ι τ} {t t' : τ} {thread : HubThread ι}
    (ht : t' ≠ t) : (s.setThread t thread).thread t' = s.thread t' :=
  Function.update_of_ne ht ..

theorem grows_setHub [DecidableEq ι] {s : Hubs ι τ} {hub : Hub} (h : (s.hub i).Grows hub) (j : ι) :
    (s.hub j).Grows ((s.setHub i hub).hub j) := by
  by_cases hj : j = i
  · subst hj
    rwa [setHub_self]
  · rw [setHub_of_ne hj]
    exact .refl _

theorem Sound.setHub [DecidableEq ι] {s : Hubs ι τ} {hub : Hub} (h : s.Sound)
    (hgrows : (s.hub i).Grows hub) (hnodup : hub.funcs.Nodup) : (s.setHub i hub).Sound := by
  refine ⟨fun j => ?_, fun t => (h.thread t).grows (grows_setHub hgrows)⟩
  by_cases hj : j = i
  · subst hj
    rwa [setHub_self]
  · rw [setHub_of_ne hj]
    exact h.nodup j

theorem Sound.setThread [DecidableEq τ] {s : Hubs ι τ} {t : τ} {thread : HubThread ι} (h : s.Sound)
    (hthread : thread.Sound s.hub) : (s.setThread t thread).Sound := by
  refine ⟨h.nodup, fun t' => ?_⟩
  by_cases ht : t' = t
  · subst ht
    rwa [setThread_self]
  · rw [setThread_of_ne ht]
    exact h.thread t'

variable [DecidableEq ι] [DecidableEq τ] {s s' q : Hubs ι τ} {event : HubEvent ι τ}
  {events : List (HubEvent ι τ × Option HubAnswer)} {holds : Hubs ι τ → Prop}

/-- A step keeps what holds, and the lists of the proxies only grow. -/
theorem Sound.step (h : s.Sound) (henabled : s.Enabled event)
    (hstep : s.step event = some (s', answer)) :
    s'.Sound ∧ ∀ i, (s.hub i).Grows (s'.hub i) := by
  have hsame : ∀ {t : τ} {thread : HubThread ι}, thread.Sound s.hub →
      (s.setThread t thread).Sound ∧ ∀ i, (s.hub i).Grows ((s.setThread t thread).hub i) :=
    fun hthread => ⟨h.setThread hthread, fun i => .refl _⟩
  cases event with
  | add i func malloc =>
    obtain ⟨rfl, -⟩ := Prod.mk.inj (Option.some.inj hstep)
    have hgrows : (s.hub i).Grows ((s.hub i).addProxy func malloc).2 := Hub.grows_addProxy malloc
    exact ⟨h.setHub hgrows (Hub.nodup_addProxy (h.nodup i)), grows_setHub hgrows⟩
  | del i func =>
    obtain ⟨rfl, -⟩ := Prod.mk.inj (Option.some.inj hstep)
    have hgrows : (s.hub i).Grows ((s.hub i).delProxy func).2.2 := Hub.grows_delProxy
    refine ⟨h.setHub hgrows ?_, grows_setHub hgrows⟩
    rw [Hub.funcs_delProxy]
    exact h.nodup i
  | call t i returnAddress mmap =>
    obtain ⟨rfl, -⟩ := Prod.mk.inj (Option.some.inj hstep)
    exact hsame ((h.thread t).pushStack rfl)
  | next t =>
    obtain ⟨rfl, -⟩ := Prod.mk.inj (Option.some.inj hstep)
    exact hsame ((h.thread t).next rfl)
  | prev t func =>
    obtain ⟨thread, hthread, heq⟩ := Option.map_eq_some_iff.mp hstep
    obtain ⟨rfl, -⟩ := Prod.mk.inj heq
    exact hsame ((h.thread t).getPrevFunc hthread)
  | pop t returnAddress =>
    obtain ⟨thread, hthread, heq⟩ := Option.map_eq_some_iff.mp hstep
    obtain ⟨rfl, -⟩ := Prod.mk.inj heq
    exact hsame ((h.thread t).onFrame (fun _ => .inl rfl) henabled hthread)
  | allow t returnAddress =>
    obtain ⟨thread, hthread, heq⟩ := Option.map_eq_some_iff.mp hstep
    obtain ⟨rfl, -⟩ := Prod.mk.inj heq
    exact hsame ((h.thread t).onFrame (fun _ => .inr ⟨true, rfl⟩) henabled hthread)
  | disallow t returnAddress =>
    obtain ⟨thread, hthread, heq⟩ := Option.map_eq_some_iff.mp hstep
    obtain ⟨rfl, -⟩ := Prod.mk.inj heq
    exact hsame ((h.thread t).onFrame (fun _ => .inr ⟨false, rfl⟩) henabled hthread)

theorem Sound.run (h : s.Sound) (hrun : Run holds s events q) :
    q.Sound ∧ ∀ i, (s.hub i).Grows (q.hub i) := by
  induction hrun with
  | nil => exact ⟨h, fun i => .refl _⟩
  | cons _ henabled hstep _ ih =>
    obtain ⟨hsound, hgrows⟩ := h.step henabled hstep
    obtain ⟨hsound', hgrows'⟩ := ih hsound
    exact ⟨hsound', fun i => (hgrows i).trans (hgrows' i)⟩

/-- After any run, no list of proxies has a function twice, no stack is too high, and of the frames
of one function that a thread has, all but the last allow re-entry. -/
theorem stacks_safe (hs : s.Fresh) (hrun : Run holds s events q) (t : τ) :
    (∀ i, (q.hub i).funcs.Nodup) ∧ (q.thread t).frames.length ≤ SH_HUB_STACK_FRAME_MAX ∧
      (q.thread t).frames.Pairwise fun frame below =>
        below.origAddr = frame.origAddr → below.allowReentrant = true := by
  have hsound := (hs.sound.run hrun).1
  exact ⟨hsound.nodup, (hsound.thread t).length, (hsound.thread t).reentrant⟩

/-- A proxy that allows re-entry and is entered again. -/
theorem reentered : ∃ q : Hubs Unit Unit,
    (q.thread ()).frames.map (·.allowReentrant) = [false, true] ∧
      (q.thread ()).frames.Pairwise fun frame below =>
        below.origAddr = frame.origAddr → below.allowReentrant = true := by
  have hrun : Run (fun _ => True) (⟨fun _ => ⟨[], 0x9000⟩, fun _ => ⟨none, .idle⟩⟩ : Hubs Unit Unit)
      [(.add () 0x100 true, none), (.call () () 0x40 true, none), (.next (), none),
        (.next (), some (.proxy 0 0x100)), (.allow () 0x40, none), (.call () () 0x80 true, none),
        (.next (), none), (.next (), some (.proxy 0 0x100))] _ :=
    .cons trivial trivial rfl <| .cons trivial (by decide) rfl <| .cons trivial (by decide) rfl <|
    .cons trivial (by decide) rfl <| .cons trivial (by decide) rfl <|
    .cons trivial (by decide) rfl <| .cons trivial (by decide) rfl <|
    .cons trivial (by decide) rfl <| .nil trivial
  exact ⟨_, rfl, (stacks_safe ⟨fun _ => rfl, fun _ => rfl⟩ hrun ()).2.2⟩

end Hubs

end NativeLib.ShadowHook
