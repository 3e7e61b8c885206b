import Mathlib.Data.Set.Basic
import NativeLib.ShadowHook.HubRuns

/-! The proxies that a call goes through while others come and go: none that is enabled all the
time is left out, none is called twice, and in the end there is the original function. A call that
may not go through the list is one of the original. -/

namespace NativeLib.ShadowHook

variable {ι τ : Type}

/-- Who does it; the lists of proxies are changed by nobody in particular. -/
def HubEvent.thread? : HubEvent ι τ → Option τ
  | .add .. | .del .. => none
  | .call t .. | .prev t _ | .next t | .pop t _ | .allow t _ | .disallow t _ => some t

namespace HubThread

variable {hub : ι → Hub} {thread : HubThread ι} {i : ι} {origAddr func returnAddress : BitVec 64}
  {found : Bool} {n : ℕ}

/-- There is no memory for a stack, or a frame of the function does not allow re-entry. -/
def TurnedAway (thread : HubThread ι) (self : Hub) (mmap : Bool) : Prop :=
  thread.stack = none ∧ mmap = false ∨
    ∃ frame ∈ thread.frames, frame.allowReentrant = false ∧ frame.origAddr = self.origAddr

/-- A call that comes to no proxy, whatever there are. -/
def GoesStraight (thread : HubThread ι) (self : Hub) (mmap : Bool) : Prop :=
  thread.TurnedAway self mmap ∨ thread.frames.length = SH_HUB_STACK_FRAME_MAX

/-- `sh_hub_push_stack` answers before its loop, or its loop is still to come. -/
theorem pushStack_cases {self : Hub} {mmap : Bool} :
    (thread.TurnedAway self mmap ∧ ∃ thread', thread.pushStack i self returnAddress mmap =
      (thread', some (.orig self.origAddr))) ∨
    ¬ thread.TurnedAway self mmap ∧ thread.pushStack i self returnAddress mmap =
      (⟨some thread.frames, .push i returnAddress self.proxies.length⟩, none) := by
  have hrecursive : (thread.frames.any fun frame =>
      !frame.allowReentrant && frame.origAddr == self.origAddr) = true ↔
      ∃ frame ∈ thread.frames, frame.allowReentrant = false ∧ frame.origAddr = self.origAddr := by
    simp only [List.any_eq_true, Bool.and_eq_true, Bool.not_eq_true', beq_iff_eq]
  have hmemory : (thread.stack.isNone && !mmap) = true ↔ thread.stack = none ∧ mmap = false := by
    simp only [Bool.and_eq_true, Option.isNone_iff_eq_none, Bool.not_eq_true']
  rw [pushStack, TurnedAway, ← hmemory, ← hrecursive]
  split_ifs with hnone hframe
  · exact .inl ⟨.inl hnone, _, rfl⟩
  · exact .inl ⟨.inr hframe, _, rfl⟩
  · exact .inr ⟨not_or.mpr ⟨hnone, hframe⟩, rfl⟩

theorem next_push_zero (h : thread.walk = .push i returnAddress 0) :
    thread.next hub = ({ thread with walk := .idle }, some (.orig (hub i).origAddr)) := by
  rw [next, h]

theorem next_push_disabled (h : thread.walk = .push i returnAddress (n + 1))
    (hn : ((hub i).proxies[n]?).any (·.enabled) = false) :
    thread.next hub = ({ thread with walk := .push i returnAddress n }, none) := by
  rw [next, h]
  simp only [hn, Bool.false_eq_true, if_false]

theorem next_push_enabled (h : thread.walk = .push i returnAddress (n + 1))
    (hn : ((hub i).proxies[n]?).any (·.enabled) = true)
    (hroom : thread.frames.length < SH_HUB_STACK_FRAME_MAX) :
    thread.next hub = ({ thread with walk := .found i returnAddress n }, none) := by
  rw [next, h]
  simp only [hn, if_true, if_pos hroom]

theorem next_push_full (h : thread.walk = .push i returnAddress (n + 1))
    (hn : ((hub i).proxies[n]?).any (·.enabled) = true)
    (hroom : ¬ thread.frames.length < SH_HUB_STACK_FRAME_MAX) :
    thread.next hub = ({ thread with walk := .idle }, some (.orig (hub i).origAddr)) := by
  rw [next, h]
  simp only [hn, if_true, if_neg hroom]

theorem next_found (h : thread.walk = .found i returnAddress n) :
    thread.next hub =
      (⟨some (⟨i, (hub i).proxies.length, (hub i).origAddr, returnAddress, false⟩ ::
        thread.frames), .idle⟩, ((hub i).proxies[n]?).map (.proxy n ·.func)) := by
  rw [next, h]

theorem next_prev_zero (h : thread.walk = .prev i origAddr func found 0) :
    thread.next hub = ({ thread with walk := .idle }, some (.orig origAddr)) := by
  rw [next, h]

theorem next_prev_looking (h : thread.walk = .prev i origAddr func false (n + 1)) :
    thread.next hub = ({ thread with
      walk := .prev i origAddr func (((hub i).proxies[n]?).any (·.func == func)) n }, none) := by
  rw [next, h]

theorem next_prev_enabled (h : thread.walk = .prev i origAddr func true (n + 1))
    {func' : BitVec 64} (hn : (hub i).proxies[n]? = some ⟨func', true⟩) :
    thread.next hub = ({ thread with walk := .idle }, some (.proxy n func')) := by
  rw [next, h]
  simp only [hn]

theorem next_prev_disabled (h : thread.walk = .prev i origAddr func true (n + 1))
    (hn : ((hub i).proxies[n]?).any (·.enabled) = false) :
    thread.next hub = ({ thread with walk := .prev i origAddr func true n }, none) := by
  cases hproxy : (hub i).proxies[n]? with
  | none =>
    rw [next, h]
    simp only [hproxy]
  | some proxy =>
    obtain ⟨func', enabled⟩ := proxy
    rw [hproxy] at hn
    obtain rfl : enabled = false := hn
    rw [next, h]
    simp only [hproxy]

end HubThread

namespace Hubs

variable [DecidableEq ι] [DecidableEq τ] {holds : Hubs ι τ → Prop} {s s' q : Hubs ι τ}
  {event : HubEvent ι τ} {answer : Option HubAnswer} {ans : HubAnswer} {t : τ} {i : ι}
  {on off : Set ℕ} {k m height : ℕ} {origAddr func returnAddress : BitVec 64} {found : Bool}

/-- The thread goes through a list, and others do what they do, until it is told what to call. -/
inductive Walks (holds : Hubs ι τ → Prop) (t : τ) : Hubs ι τ → HubAnswer → Hubs ι τ → Prop
  | other {s s' q : Hubs ι τ} {event : HubEvent ι τ} {answer : Option HubAnswer} {ans : HubAnswer}
      (hs : holds s) (henabled : s.Enabled event) (hother : event.thread? ≠ some t)
      (hstep : s.step event = some (s', answer)) (hrest : Walks holds t s' ans q) :
      Walks holds t s ans q
  | next {s s' q : Hubs ι τ} {ans : HubAnswer} (hs : holds s) (henabled : s.Enabled (.next t))
      (hstep : s.step (.next t) = some (s', none)) (hrest : Walks holds t s' ans q) :
      Walks holds t s ans q
  | last {s q : Hubs ι τ} {ans : HubAnswer} (hs : holds s) (henabled : s.Enabled (.next t))
      (hstep : s.step (.next t) = some (q, some ans)) : Walks holds t s ans q

/-- A call of `sh_hub_push_stack` that goes through the list. -/
def Call (holds : Hubs ι τ → Prop) (t : τ) (i : ι) (mmap : Bool) (s : Hubs ι τ) (ans : HubAnswer)
    (q : Hubs ι τ) : Prop :=
  ∃ returnAddress s', holds s ∧ s.Enabled (.call t i returnAddress mmap) ∧
    s.step (.call t i returnAddress mmap) = some (s', none) ∧ Walks holds t s' ans q

/-- A call of `sh_hub_get_prev_func`. -/
def Prev (holds : Hubs ι τ → Prop) (t : τ) (func : BitVec 64) (s : Hubs ι τ) (ans : HubAnswer)
    (q : Hubs ι τ) : Prop :=
  ∃ s', holds s ∧ s.Enabled (.prev t func) ∧ s.step (.prev t func) = some (s', none) ∧
    Walks holds t s' ans q

/-- Some proxies of a hub are enabled, and some are not. -/
def Steady (i : ι) (on off : Set ℕ) (s : Hubs ι τ) : Prop :=
  (∀ n ∈ on, ((s.hub i).proxies[n]?).any (·.enabled) = true) ∧
    ∀ n ∈ off, ((s.hub i).proxies[n]?).any (·.enabled) = false

/-- What others do is nothing to a thread. -/
theorem thread_of_other (hother : event.thread? ≠ some t)
    (hstep : s.step event = some (s', answer)) : s'.thread t = s.thread t := by
  have hset : ∀ {t' : τ} {thread : HubThread ι}, event.thread? = some t' →
      (s.setThread t' thread).thread t = s.thread t := by
    intro t' thread hthread
    refine setThread_of_ne ?_
    rintro rfl
    exact hother hthread
  cases event with
  | add i func malloc => obtain ⟨rfl, -⟩ := Prod.mk.inj (Option.some.inj hstep); rfl
  | del i func => obtain ⟨rfl, -⟩ := Prod.mk.inj (Option.some.inj hstep); rfl
  | call t' i returnAddress mmap =>
    obtain ⟨rfl, -⟩ := Prod.mk.inj (Option.some.inj hstep)
    exact hset rfl
  | next t' =>
    obtain ⟨rfl, -⟩ := Prod.mk.inj (Option.some.inj hstep)
    exact hset rfl
  | prev t' func =>
    obtain ⟨thread, -, heq⟩ := Option.map_eq_some_iff.mp hstep
    obtain ⟨rfl, -⟩ := Prod.mk.inj heq
    exact hset rfl
  | pop t' returnAddress =>
    obtain ⟨thread, -, heq⟩ := Option.map_eq_some_iff.mp hstep
    obtain ⟨rfl, -⟩ := Prod.mk.inj heq
    exact hset rfl
  | allow t' returnAddress =>
    obtain ⟨thread, -, heq⟩ := Option.map_eq_some_iff.mp hstep
    obtain ⟨rfl, -⟩ := Prod.mk.inj heq
    exact hset rfl
  | disallow t' returnAddress =>
    obtain ⟨thread, -, heq⟩ := Option.map_eq_some_iff.mp hstep
    obtain ⟨rfl, -⟩ := Prod.mk.inj heq
    exact hset rfl

/-- A step in a list, as a step of the thread. -/
theorem next_eq (hstep : s.step (.next t) = some (s', answer)) {thread : HubThread ι}
    {answer' : Option HubAnswer} (hnext : (s.thread t).next s.hub = (thread, answer')) :
    s' = s.setThread t thread ∧ answer = answer' := by
  rw [step, hnext] at hstep
  obtain ⟨rfl, rfl⟩ := Prod.mk.inj (Option.some.inj hstep)
  exact ⟨rfl, rfl⟩

/-- `sh_hub_push_stack` up to its loop, as a step of the thread. -/
theorem call_eq {mmap : Bool} (hstep : s.step (.call t i returnAddress mmap) = some (s', answer))
    {thread : HubThread ι} {answer' : Option HubAnswer}
    (hpush : (s.thread t).pushStack i (s.hub i) returnAddress mmap = (thread, answer')) :
    s' = s.setThread t thread ∧ answer = answer' := by
  rw [step, hpush] at hstep
  obtain ⟨rfl, rfl⟩ := Prod.mk.inj (Option.some.inj hstep)
  exact ⟨rfl, rfl⟩

theorem Walks.sound (hwalks : Walks holds t s ans q) (h : s.Sound) :
    q.Sound ∧ ∀ i, (s.hub i).Grows (q.hub i) := by
  induction hwalks with
  | other _ henabled _ hstep _ ih | next _ henabled hstep _ ih =>
    obtain ⟨hsound, hgrows⟩ := h.step henabled hstep
    obtain ⟨hsound', hgrows'⟩ := ih hsound
    exact ⟨hsound', fun i => (hgrows i).trans (hgrows' i)⟩
  | last _ henabled hstep => exact h.step henabled hstep

theorem getElem?_funcs {hub : Hub} {n : ℕ} : hub.funcs[n]? = (hub.proxies[n]?).map (·.func) :=
  List.getElem?_map ..

theorem eq_some_of_enabled {proxy : Option Proxy} (h : proxy.any (·.enabled) = true) :
    ∃ func, proxy = some ⟨func, true⟩ := by
  obtain ⟨⟨func, enabled⟩, rfl, henabled⟩ := (Option.any_eq_true ..).mp h
  obtain rfl : enabled = true := henabled
  exact ⟨func, rfl⟩

/-- What may come after the proxy `k`: the next that is enabled all the time, or one before it, and
nothing that is disabled all the time. -/
def After (i : ι) (on off : Set ℕ) (k : ℕ) (q : Hubs ι τ) : HubAnswer → Prop
  | .proxy m func =>
    m < k ∧ (q.hub i).funcs[m]? = some func ∧ m ∉ off ∧ ∀ n ∈ on, n < k → n ≤ m
  | .orig origAddr => origAddr = (q.hub i).origAddr ∧ ∀ n ∈ on, k ≤ n

/-- Past the function, the list is gone through from there on. -/
theorem Walks.prev (hwalks : Walks (Steady i on off) t s ans q) (h : s.Sound)
    (hwalk : (s.thread t).walk = .prev i origAddr func found height)
    (hfunc : (s.hub i).funcs[k]? = some func) (hlow : found = false → k < height)
    (hhigh : found = true → height ≤ k ∧ ∀ n ∈ on, n < k → n < height) :
    After i on off k q ans := by
  induction hwalks generalizing found height with
  | other hs henabled hother hstep _ ih =>
    obtain ⟨hsound, hgrows⟩ := h.step henabled hstep
    refine ih hsound ?_ ((hgrows i).getElem? hfunc) hlow hhigh
    rwa [thread_of_other hother hstep]
  | @next s s' q ans hs henabled hstep _ ih =>
    obtain ⟨hsound, hgrows⟩ := h.step henabled hstep
    have hfunc' := (hgrows i).getElem? hfunc
    cases height with
    | zero => exact absurd (next_eq hstep (HubThread.next_prev_zero hwalk)).2 (by simp)
    | succ n =>
      cases found with
      | false =>
        obtain ⟨rfl, -⟩ := next_eq hstep (HubThread.next_prev_looking hwalk)
        have hlt := hlow rfl
        refine ih hsound (by rw [setThread_self]) hfunc' (fun hnot => ?_) fun hfound => ?_
        · -- The proxy `k` has the function, so the list goes on to it.
          rcases Nat.lt_succ_iff_lt_or_eq.mp hlt with hlt | rfl
          · exact hlt
          · rw [getElem?_funcs] at hfunc
            obtain ⟨proxy, hproxy, rfl⟩ := Option.map_eq_some_iff.mp hfunc
            rw [hproxy] at hnot
            exact absurd hnot (by simp)
        · -- Only the proxy `k` has it.
          have hn : (s.hub i).funcs[n]? = some func := by
            rw [getElem?_funcs]
            obtain ⟨proxy, hproxy, hsame⟩ := (Option.any_eq_true ..).mp hfound
            rw [hproxy]
            exact congrArg some (by simpa using hsame)
          have hlen := (List.getElem?_eq_some_iff.mp hn).1
          obtain rfl : n = k := (List.getElem?_inj hlen (h.nodup i)).mp (hn.trans hfunc.symm)
          exact ⟨Nat.le_refl n, fun _ _ hlt => hlt⟩
      | true =>
        obtain ⟨hle, hon⟩ := hhigh rfl
        cases hn : ((s.hub i).proxies[n]?).any (·.enabled) with
        | true =>
          obtain ⟨func', hproxy⟩ := eq_some_of_enabled hn
          exact absurd (next_eq hstep (HubThread.next_prev_enabled hwalk hproxy)).2 (by simp)
        | false =>
          obtain ⟨rfl, -⟩ := next_eq hstep (HubThread.next_prev_disabled hwalk hn)
          refine ih hsound (by rw [setThread_self]) hfunc' (fun hf => absurd hf (by simp))
            fun _ => ⟨Nat.le_of_succ_le hle, fun n' hn' hlt => ?_⟩
          rcases Nat.lt_succ_iff_lt_or_eq.mp (hon n' hn' hlt) with hlt' | rfl
          · exact hlt'
          · exact absurd (hs.1 n' hn') (by rw [hn]; decide)
  | @last s q ans hs henabled hstep =>
    cases height with
    | zero =>
      obtain ⟨rfl, hans⟩ := next_eq hstep (HubThread.next_prev_zero hwalk)
      obtain rfl := Option.some.inj hans
      have hfits := (h.thread t).walk
      rw [hwalk] at hfits
      refine ⟨hfits.2, fun n hn => ?_⟩
      cases found with
      | false => exact absurd (hlow rfl) (Nat.not_lt_zero k)
      | true =>
        exact Nat.le_of_not_lt fun hlt => absurd ((hhigh rfl).2 n hn hlt) (Nat.not_lt_zero n)
    | succ n =>
      cases found with
      | false => exact absurd (next_eq hstep (HubThread.next_prev_looking hwalk)).2 (by simp)
      | true =>
        obtain ⟨hle, hon⟩ := hhigh rfl
        cases hn : ((s.hub i).proxies[n]?).any (·.enabled) with
        | true =>
          obtain ⟨func', hproxy⟩ := eq_some_of_enabled hn
          obtain ⟨rfl, hans⟩ := next_eq hstep (HubThread.next_prev_enabled hwalk hproxy)
          obtain rfl := Option.some.inj hans
          refine ⟨hle, ?_, fun hoff => ?_, fun n' hn' hlt => Nat.le_of_lt_succ (hon n' hn' hlt)⟩
          · rw [getElem?_funcs]
            exact congrArg _ hproxy
          · exact absurd (hs.2 n hoff) (by rw [hn]; decide)
        | false => exact absurd (next_eq hstep (HubThread.next_prev_disabled hwalk hn)).2 (by simp)

/-- The last frame of the thread has a list of the hub in which there is the proxy `k`. -/
def OnTop (s : Hubs ι τ) (t : τ) (i : ι) (k : ℕ) : Prop :=
  ∃ frame frames, (s.thread t).stack = some (frame :: frames) ∧ frame.hub = i ∧ k < frame.height

/-- What a call may come to when there are `k` proxies and these frames: the last of those that are
enabled all the time or one after it, if there is room for its frame, and the original only if there
are none or there is no room. -/
def Entered (i : ι) (on off : Set ℕ) (k : ℕ) (frames : List (HubFrame ι)) (q : Hubs ι τ) :
    HubAnswer → Prop
  | .proxy m func =>
    m < k ∧ (q.hub i).funcs[m]? = some func ∧ m ∉ off ∧ (∀ n ∈ on, n < k → n ≤ m) ∧
      frames.length < SH_HUB_STACK_FRAME_MAX
  | .orig origAddr =>
    origAddr = (q.hub i).origAddr ∧ ((∀ n ∈ on, k ≤ n) ∨
      frames.length = SH_HUB_STACK_FRAME_MAX)

/-- The proxy has been found; the frame is still to come. -/
theorem Walks.enter (hwalks : Walks (Steady i on off) t s ans q) (h : s.Sound)
    (hwalk : (s.thread t).walk = .found i returnAddress m) (hlt : m < k) (hoff : m ∉ off)
    (hon : ∀ n ∈ on, n < k → n ≤ m) {frames : List (HubFrame ι)}
    (hroom : frames.length < SH_HUB_STACK_FRAME_MAX) : Entered i on off k frames q ans := by
  induction hwalks with
  | other hs henabled hother hstep _ ih =>
    refine ih (h.step henabled hstep).1 ?_
    rwa [thread_of_other hother hstep]
  | @next s s' q ans hs henabled hstep _ ih =>
    have hfits := (h.thread t).walk
    rw [hwalk] at hfits
    have hproxy := List.getElem?_eq_getElem (show m < (s.hub i).proxies.length from hfits)
    have hnone := (next_eq hstep (HubThread.next_found hwalk)).2
    rw [hproxy] at hnone
    exact absurd hnone (by simp)
  | @last s q ans hs henabled hstep =>
    have hfits := (h.thread t).walk
    rw [hwalk] at hfits
    have hproxy := List.getElem?_eq_getElem (show m < (s.hub i).proxies.length from hfits)
    obtain ⟨rfl, hans⟩ := next_eq hstep (HubThread.next_found hwalk)
    rw [hproxy] at hans
    obtain rfl := Option.some.inj hans
    refine ⟨hlt, ?_, hoff, hon, hroom⟩
    rw [getElem?_funcs]
    exact congrArg _ hproxy

/-- The proxies are gone through from the last on. -/
theorem Walks.push (hwalks : Walks (Steady i on off) t s ans q) (h : s.Sound)
    (hwalk : (s.thread t).walk = .push i returnAddress height) (hle : height ≤ k)
    (hon : ∀ n ∈ on, n < k → n < height) : Entered i on off k (s.thread t).frames q ans := by
  induction hwalks generalizing height with
  | other hs henabled hother hstep _ ih =>
    rw [← thread_of_other hother hstep] at hwalk ⊢
    exact ih (h.step henabled hstep).1 hwalk hle hon
  | @next s s' q ans hs henabled hstep hrest ih =>
    have hsound := (h.step henabled hstep).1
    cases height with
    | zero => exact absurd (next_eq hstep (HubThread.next_push_zero hwalk)).2 (by simp)
    | succ n =>
      cases hn : ((s.hub i).proxies[n]?).any (·.enabled) with
      | true =>
        by_cases hroom : (s.thread t).frames.length < SH_HUB_STACK_FRAME_MAX
        · obtain ⟨rfl, -⟩ := next_eq hstep (HubThread.next_push_enabled hwalk hn hroom)
          refine hrest.enter hsound (congrArg HubThread.walk setThread_self) hle (fun hoff => ?_)
            (fun n' hn' hlt => Nat.le_of_lt_succ (hon n' hn' hlt)) hroom
          exact absurd (hs.2 n hoff) (by rw [hn]; decide)
        · exact absurd (next_eq hstep (HubThread.next_push_full hwalk hn hroom)).2 (by simp)
      | false =>
        obtain ⟨rfl, -⟩ := next_eq hstep (HubThread.next_push_disabled hwalk hn)
        have hentered := ih hsound (by rw [setThread_self]) (Nat.le_of_succ_le hle)
          fun n' hn' hlt => ?_
        · rwa [setThread_self] at hentered
        rcases Nat.lt_succ_iff_lt_or_eq.mp (hon n' hn' hlt) with hlt' | rfl
        · exact hlt'
        · exact absurd (hs.1 n' hn') (by rw [hn]; decide)
  | @last s q ans hs henabled hstep =>
    cases height with
    | zero =>
      obtain ⟨rfl, hans⟩ := next_eq hstep (HubThread.next_push_zero hwalk)
      obtain rfl := Option.some.inj hans
      refine ⟨rfl, .inl fun n hn => Nat.le_of_not_lt fun hlt => ?_⟩
      exact absurd (hon n hn hlt) (Nat.not_lt_zero n)
    | succ n =>
      cases hn : ((s.hub i).proxies[n]?).any (·.enabled) with
      | true =>
        by_cases hroom : (s.thread t).frames.length < SH_HUB_STACK_FRAME_MAX
        · exact absurd (next_eq hstep (HubThread.next_push_enabled hwalk hn hroom)).2 (by simp)
        · obtain ⟨rfl, hans⟩ := next_eq hstep (HubThread.next_push_full hwalk hn hroom)
          obtain rfl := Option.some.inj hans
          exact ⟨rfl, .inr (Nat.le_antisymm (h.thread t).length (Nat.le_of_not_lt hroom))⟩
      | false => exact absurd (next_eq hstep (HubThread.next_push_disabled hwalk hn)).2 (by simp)

/-- A call that goes through the list. -/
theorem Call.entered {mmap : Bool} (hcall : Call (Steady i on off) t i mmap s ans q)
    (h : s.Sound) :
    ¬ (s.thread t).TurnedAway (s.hub i) mmap ∧
      Entered i on off (s.hub i).proxies.length (s.thread t).frames q ans := by
  obtain ⟨returnAddress, s', -, henabled, hstep, hwalks⟩ := hcall
  have hsound := (h.step henabled hstep).1
  rcases (s.thread t).pushStack_cases with ⟨-, thread, hpush⟩ | ⟨hnot, hpush⟩
  · exact absurd (call_eq hstep hpush).2 (by simp)
  · obtain ⟨rfl, -⟩ := call_eq hstep hpush
    have hentered := hwalks.push hsound (by rw [setThread_self]) (Nat.le_refl _)
      fun n _ hlt => hlt
    rw [setThread_self] at hentered
    exact ⟨hnot, hentered⟩

theorem Call.sound {mmap : Bool} (hcall : Call holds t i mmap s ans q) (h : s.Sound) :
    q.Sound := by
  obtain ⟨returnAddress, s', -, henabled, hstep, hwalks⟩ := hcall
  exact (hwalks.sound (h.step henabled hstep).1).1

theorem Call.grows {mmap : Bool} (hcall : Call holds t i mmap s ans q) (h : s.Sound) :
    (s.hub i).Grows (q.hub i) := by
  obtain ⟨returnAddress, s', -, henabled, hstep, hwalks⟩ := hcall
  obtain ⟨hsound, hgrows⟩ := h.step henabled hstep
  exact (hgrows i).trans ((hwalks.sound hsound).2 i)

/-- A call for what comes after the proxy `k`. -/
theorem Prev.after (hprev : Prev (Steady i on off) t func s ans q) (h : s.Sound)
    (hfunc : (s.hub i).funcs[k]? = some func) (htop : s.OnTop t i k) : After i on off k q ans := by
  obtain ⟨s', -, henabled, hstep, hwalks⟩ := hprev
  have hsound := (h.step henabled hstep).1
  obtain ⟨thread, hthread, heq⟩ := Option.map_eq_some_iff.mp hstep
  obtain ⟨rfl, -⟩ := Prod.mk.inj heq
  obtain ⟨frame, frames, hstack, rfl, hlt⟩ := htop
  rw [HubThread.getPrevFunc, hstack] at hthread
  obtain rfl := Option.some.inj hthread
  exact hwalks.prev hsound (congrArg HubThread.walk setThread_self) hfunc (fun _ => hlt)
    fun hf => absurd hf (by simp)

/-- From the proxy `k` on, each proxy asks for the one after it, once, and in the end there is the
original at `origAddr`. In between, the proxies may do anything that comes back to their frame. -/
inductive Chain (holds : Hubs ι τ → Prop) (t : τ) (i : ι) (origAddr : BitVec 64) :
    Hubs ι τ → ℕ → List ℕ → Hubs ι τ → Prop
  | last {s q : Hubs ι τ} {k : ℕ} {func : BitVec 64}
      (hfunc : (s.hub i).funcs[k]? = some func) (htop : s.OnTop t i k)
      (hprev : Prev holds t func s (.orig origAddr) q) : Chain holds t i origAddr s k [] q
  | next {s s' s'' q : Hubs ι τ} {k m : ℕ} {func func' : BitVec 64} {rest : List ℕ}
      {events : List (HubEvent ι τ × Option HubAnswer)}
      (hfunc : (s.hub i).funcs[k]? = some func) (htop : s.OnTop t i k)
      (hprev : Prev holds t func s (.proxy m func') s') (hrun : Run holds s' events s'')
      (hrest : Chain holds t i origAddr s'' m rest q) : Chain holds t i origAddr s k (m :: rest) q

/-- A call of the function of a hub: the proxies that it comes to, and the original at the end. -/
inductive Calls (holds : Hubs ι τ → Prop) (t : τ) (i : ι) (mmap : Bool) (origAddr : BitVec 64)
    (s : Hubs ι τ) : List ℕ → Hubs ι τ → Prop
  | atOnce {q : Hubs ι τ} {returnAddress : BitVec 64}
      (henabled : s.Enabled (.call t i returnAddress mmap))
      (hstep : s.step (.call t i returnAddress mmap) = some (q, some (.orig origAddr))) :
      Calls holds t i mmap origAddr s [] q
  | orig {q : Hubs ι τ} (hcall : Call holds t i mmap s (.orig origAddr) q) :
      Calls holds t i mmap origAddr s [] q
  | proxies {s₁ s₂ q : Hubs ι τ} {k : ℕ} {func : BitVec 64} {rest : List ℕ}
      {events : List (HubEvent ι τ × Option HubAnswer)}
      (hcall : Call holds t i mmap s (.proxy k func) s₁) (hrun : Run holds s₁ events s₂)
      (hchain : Chain holds t i origAddr s₂ k rest q) :
      Calls holds t i mmap origAddr s (k :: rest) q

theorem Prev.sound (hprev : Prev holds t func s ans q) (h : s.Sound) : q.Sound := by
  obtain ⟨s', -, henabled, hstep, hwalks⟩ := hprev
  exact (hwalks.sound (h.step henabled hstep).1).1

theorem Prev.grows (hprev : Prev holds t func s ans q) (h : s.Sound) :
    (s.hub i).Grows (q.hub i) := by
  obtain ⟨s', -, henabled, hstep, hwalks⟩ := hprev
  obtain ⟨hsound, hgrows⟩ := h.step henabled hstep
  exact (hgrows i).trans ((hwalks.sound hsound).2 i)

theorem Chain.complete {rest : List ℕ} (hchain : Chain (Steady i on off) t i origAddr s k rest q)
    (h : s.Sound) :
    origAddr = (s.hub i).origAddr ∧ rest.Pairwise (· > ·) ∧ (∀ m ∈ rest, m < k ∧ m ∉ off) ∧
      ∀ n ∈ on, n < k → n ∈ rest := by
  induction hchain with
  | last hfunc htop hprev =>
    obtain ⟨horig, hon⟩ := hprev.after h hfunc htop
    exact ⟨horig.trans (hprev.grows h).origAddr, .nil, fun _ hm => absurd hm List.not_mem_nil,
      fun n hn hlt => absurd hlt (Nat.not_lt_of_le (hon n hn))⟩
  | next hfunc htop hprev hrun _ ih =>
    obtain ⟨hlt, -, hoff, hon⟩ := hprev.after h hfunc htop
    obtain ⟨hsound, hgrows⟩ := (hprev.sound h).run hrun
    obtain ⟨horig, hpairwise, hrest, hall⟩ := ih hsound
    refine ⟨horig.trans ((hgrows i).origAddr.trans (hprev.grows h).origAddr),
      List.pairwise_cons.mpr ⟨fun m hm => (hrest m hm).1, hpairwise⟩,
      List.forall_mem_cons.mpr ⟨⟨hlt, hoff⟩, fun m hm => ?_⟩, fun n hn hnk => ?_⟩
    · exact ⟨Nat.lt_trans (hrest m hm).1 hlt, (hrest m hm).2⟩
    · rcases Nat.lt_or_eq_of_le (hon n hn hnk) with hlt' | rfl
      · exact List.mem_cons_of_mem _ (hall n hn hlt')
      · exact List.mem_cons_self

/-- A call of a hooked function, after any run and while others hook and unhook, ends in the
original. Its proxies are called from the last to the first, none twice and none that is disabled
all the time, and none is left out that is enabled all the time from the call on. Only a call that
is turned away, and one for which there is no room on the stack, calls no proxy whatever. -/
theorem call_complete {events : List (HubEvent ι τ × Option HubAnswer)} {s₀ : Hubs ι τ}
    {called : List ℕ} {mmap : Bool} (hs : s₀.Fresh) (hrun : Run (fun _ => True) s₀ events s)
    (hcalls : Calls (Steady i on off) t i mmap origAddr s called q) :
    origAddr = (s.hub i).origAddr ∧ called.Pairwise (· > ·) ∧
      (∀ m ∈ called, m < (s.hub i).proxies.length ∧ m ∉ off) ∧
      ((s.thread t).GoesStraight (s.hub i) mmap → called = []) ∧
      (¬ (s.thread t).GoesStraight (s.hub i) mmap →
        ∀ n ∈ on, n < (s.hub i).proxies.length → n ∈ called) := by
  have hsound := (hs.sound.run hrun).1
  cases hcalls with
  | atOnce henabled hstep =>
    rcases (s.thread t).pushStack_cases with ⟨haway, thread, hpush⟩ | ⟨-, hpush⟩
    · have horig := HubAnswer.orig.inj (Option.some.inj (call_eq hstep hpush).2)
      exact ⟨horig, .nil, fun _ hm => absurd hm List.not_mem_nil, fun _ => rfl,
        fun hnot => absurd (.inl haway) hnot⟩
    · exact absurd (call_eq hstep hpush).2 (by simp)
  | orig hcall =>
    obtain ⟨-, horig, hon⟩ := hcall.entered hsound
    refine ⟨horig.trans (hcall.grows hsound).origAddr, .nil,
      fun _ hm => absurd hm List.not_mem_nil, fun _ => rfl, fun hnot n hn hlt => ?_⟩
    rcases hon with hon | hfull
    · exact absurd hlt (Nat.not_lt_of_le (hon n hn))
    · exact absurd (.inr hfull) hnot
  | proxies hcall hrun' hchain =>
    obtain ⟨hnot, hlt, -, hoff, hon, hroom⟩ := hcall.entered hsound
    obtain ⟨hsound', hgrows⟩ := (hcall.sound hsound).run hrun'
    obtain ⟨horig, hpairwise, hrest, hall⟩ := hchain.complete hsound'
    refine ⟨horig.trans ((hgrows i).origAddr.trans (hcall.grows hsound).origAddr),
      List.pairwise_cons.mpr ⟨fun m hm => (hrest m hm).1, hpairwise⟩,
      List.forall_mem_cons.mpr ⟨⟨hlt, hoff⟩, fun m hm => ?_⟩,
      fun hstraight => absurd hstraight (not_or.mpr ⟨hnot, Nat.ne_of_lt hroom⟩),
      fun _ n hn hnk => ?_⟩
    · exact ⟨Nat.lt_trans (hrest m hm).1 hlt, (hrest m hm).2⟩
    · rcases Nat.lt_or_eq_of_le (hon n hn hnk) with hlt' | rfl
      · exact List.mem_cons_of_mem _ (hall n hn hlt')
      · exact List.mem_cons_self

/-! Two hooks of one function, called once. -/

def bare : Hubs Unit Unit := ⟨fun _ => ⟨[], 0x9000⟩, fun _ => ⟨none, .idle⟩⟩

def hookedTwice : Hubs Unit Unit :=
  ⟨Function.update bare.hub () ⟨[⟨0x100, true⟩, ⟨0x200, true⟩], 0x9000⟩, bare.thread⟩

theorem steady_of_hub {s : Hubs Unit Unit} (h : s.hub () = hookedTwice.hub ()) :
    s.Steady () {n | n < 2} ∅ := by
  refine ⟨fun n hn => ?_, fun n hn => absurd hn (Set.notMem_empty n)⟩
  rw [h]
  rcases n with _ | _ | n
  · rfl
  · rfl
  · exact absurd (show n + 2 < 2 from hn) (by omega)

theorem hookedTwice_run : Run (fun _ => True) bare
    [(.add () 0x100 true, none), (.add () 0x200 true, none)] hookedTwice := by
  refine .cons trivial trivial rfl (.cons trivial trivial ?_ (.nil trivial))
  rw [step, setHub, setHub, Function.update_idem]
  rfl

/-- Both are called, the newer first, and then the function itself. -/
theorem both_called : (0x9000 : BitVec 64) = (hookedTwice.hub ()).origAddr ∧
    [1, 0].Pairwise (· > ·) ∧ ∀ n < 2, n < (hookedTwice.hub ()).proxies.length → n ∈ [1, 0] := by
  have hsteady := @steady_of_hub
  have hcall : Call (Steady () {n | n < 2} ∅) () () true hookedTwice (.proxy 1 0x200) _ :=
    ⟨0x40, _, hsteady rfl, rfl, rfl, .next (hsteady rfl) (by decide) rfl
      (.last (hsteady rfl) (by decide) rfl)⟩
  have hcalls : Calls (Steady () {n | n < 2} ∅) () () true 0x9000 hookedTwice [1, 0] _ :=
    .proxies hcall (.nil (hsteady rfl))
      (.next rfl ⟨_, _, rfl, rfl, by decide⟩
        ⟨_, hsteady rfl, rfl, rfl, .next (hsteady rfl) (by decide) rfl
          (.last (hsteady rfl) (by decide) rfl)⟩
        (.nil (hsteady rfl))
        (.last rfl ⟨_, _, rfl, rfl, by decide⟩
          ⟨_, hsteady rfl, rfl, rfl, .next (hsteady rfl) (by decide) rfl
            (.next (hsteady rfl) (by decide) rfl (.last (hsteady rfl) (by decide) rfl))⟩))
  obtain ⟨horig, hpairwise, -, -, hall⟩ :=
    call_complete ⟨fun _ => rfl, fun _ => rfl⟩ hookedTwice_run hcalls
  refine ⟨horig, hpairwise, hall ?_⟩
  rintro ((⟨-, hmmap⟩ | ⟨frame, hmem, -⟩) | hfull)
  · exact absurd hmmap (by decide)
  · exact absurd hmem List.not_mem_nil
  · exact absurd hfull (by decide)

end Hubs

end NativeLib.ShadowHook
