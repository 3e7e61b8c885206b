import NativeLib.Collections.Ledger
import NativeLib.ShadowHook.Guarantees
import NativeLib.ShadowHook.HubProxies
import NativeLib.ShadowHook.Shared

/-! Shared mode: who is hooked by whom, and what a process in shared mode has of the guarantees that
functions with one owner have. -/

namespace NativeLib.ShadowHook

open Arm64 Collections Interaction

section

variable {inst : Inst} {mem : Mem} {targetAddr newAddr : BitVec 64} {ssize : ℕ}

/-- A write comes out well, or says why not. -/
theorem writeInst_cases {insts : List (BitVec 32)} {ans : WriteAnswer} :
    (writeInst mem targetAddr insts ans).1 ∈
      [0, SHADOWHOOK_ERRNO_MPROT, SHADOWHOOK_ERRNO_WRITE_CRASH] := by
  cases ans <;> simp [writeInst]

/-- Only a tree of switches says that there is no switch. -/
theorem instUnhook_ne_notFound {ans : UnhookAnswers} :
    (instUnhook inst mem targetAddr ans).1 ≠ SHADOWHOOK_ERRNO_UNHOOK_NOTFOUND := by
  have hexit : ∀ mem, (exitFree mem inst ans.exitReadable ans.exitMprotect).1 ≠
      SHADOWHOOK_ERRNO_UNHOOK_NOTFOUND := by
    intro mem
    rw [exitFree]
    split
    · exact (by decide : (0 : ℤ) ≠ SHADOWHOOK_ERRNO_UNHOOK_NOTFOUND)
    · split_ifs <;> dsimp only <;> decide
  have hwrite := @writeInst_cases mem targetAddr inst.backup ans.write
  rw [instUnhook]
  split
  · exact (by decide : SHADOWHOOK_ERRNO_UNHOOK_CMP_CRASH ≠ SHADOWHOOK_ERRNO_UNHOOK_NOTFOUND)
  split
  · exact (by decide : SHADOWHOOK_ERRNO_UNHOOK_TRAMPO_MISMATCH ≠ SHADOWHOOK_ERRNO_UNHOOK_NOTFOUND)
  simp only
  split
  · intro h
    rw [h] at hwrite
    exact absurd hwrite (by decide)
  split
  · exact hexit _
  · exact (by decide : (0 : ℤ) ≠ SHADOWHOOK_ERRNO_UNHOOK_NOTFOUND)

theorem instPatch_ne_dup {trampo : List (BitVec 32)} {ans : PatchAnswers} :
    (instPatch inst mem targetAddr trampo ans).1 ≠ SHADOWHOOK_ERRNO_HOOK_DUP := by
  have hwrite := fun mem => @writeInst_cases mem targetAddr trampo ans.write
  rw [instPatch]
  split
  · exact (by decide : SHADOWHOOK_ERRNO_MPROT ≠ SHADOWHOOK_ERRNO_HOOK_DUP)
  split
  · exact (by decide : SHADOWHOOK_ERRNO_HOOK_REWRITE_CRASH ≠ SHADOWHOOK_ERRNO_HOOK_DUP)
  simp only
  split
  next hr =>
    rw [instHookRewrite] at hr ⊢
    revert hr
    simp only
    split
    · exact fun _ => (by decide : SHADOWHOOK_ERRNO_HOOK_REWRITE_FAILED ≠ SHADOWHOOK_ERRNO_HOOK_DUP)
    · exact fun hr => absurd rfl hr
  · intro h
    have hw := hwrite (instHookRewrite inst mem targetAddr trampo.length).2.2
    rw [h] at hw
    exact absurd hw (by decide)

/-- Only a tree of switches says that there is one already. -/
theorem instHook_ne_dup {ans : HookAnswers} :
    (instHook inst mem targetAddr ssize newAddr ans).1 ≠ SHADOWHOOK_ERRNO_HOOK_DUP := by
  have hwithout : ∀ inst mem, (instHookWithoutExit inst mem targetAddr ssize newAddr ans).1 ≠
      SHADOWHOOK_ERRNO_HOOK_DUP := by
    intro inst mem
    rw [instHookWithoutExit]
    split_ifs
    · exact (by decide : SHADOWHOOK_ERRNO_HOOK_SYMSZ ≠ SHADOWHOOK_ERRNO_HOOK_DUP)
    · exact instPatch_ne_dup
  rw [instHook]
  simp only
  split
  · exact (by decide : SHADOWHOOK_ERRNO_HOOK_ENTER ≠ SHADOWHOOK_ERRNO_HOOK_DUP)
  split
  next hr => simp only [hr]; decide
  split
  next hr => simp only [hr]; decide
  · exact hwithout _ _

end

/-! The switches after a step of the system. -/

namespace System

variable {s s' : System} {targetAddr : BitVec 64} {switch : Switch}

theorem process_of_step {sysOp : SysOp} (h : s.step sysOp = some s') :
    s'.process = (s.process.step (s.op sysOp)).2 := by
  obtain ⟨managers, -, rfl⟩ := Option.map_eq_some_iff.mp h
  rfl

theorem run_cons {sysOp : SysOp} {ops : List SysOp} (h : s.step sysOp = some s') :
    s.run (sysOp :: ops) = s'.run ops := by
  rw [run, h, Option.bind_some]

theorem run_append {ops ops' : List SysOp} :
    s.run (ops ++ ops') = (s.run ops).bind fun s => s.run ops' := by
  induction ops generalizing s with
  | nil => rfl
  | cons sysOp ops ih =>
    rw [List.cons_append, run, run]
    cases s.step sysOp with
    | none => rfl
    | some s' => exact ih

theorem mem_of_find (h : s.find targetAddr = some switch) :
    switch ∈ s.process.switches ∧ switch.targetAddr = targetAddr :=
  find_eq_some h

theorem find_eq_none : s.find targetAddr = none ↔
    ∀ switch ∈ s.process.switches, switch.targetAddr ≠ targetAddr := by
  rw [find, Process.find, List.find?_eq_none]
  simp

/-- The first hook of a function: a switch, or none. -/
theorem switches_of_hook {call : SharedHook} {trampo : BitVec 64}
    (hfind : s.find call.targetAddr = none) (h : s.step (call.sysOp trampo) = some s') :
    (s'.find call.targetAddr = none ∧ s.result (call.sysOp trampo) ≠ 0 ∧
        s'.process.switches = s.process.switches) ∨
      ∃ switch, s'.find call.targetAddr = some switch ∧ switch.targetAddr = call.targetAddr ∧
        s'.process.switches = switch :: s.process.switches := by
  have hprocess := process_of_step h
  rw [find] at hfind
  rw [SharedHook.sysOp, op, Process.step, Process.switchHookUnique] at hprocess
  obtain ⟨r, inst, mem', orig, hhook⟩ : ∃ r inst mem' orig, ShadowHook.instHook .zero s.process.mem
    call.targetAddr call.ssize trampo (s.answers call.targetAddr call.env) =
      (r, inst, mem', orig) := ⟨_, _, _, _, rfl⟩
  rw [hfind, hhook] at hprocess
  rw [result, SharedHook.sysOp, op, Process.step, Process.switchHookUnique, hfind, hhook]
  simp only [Bool.false_eq_true, Bool.true_eq_false, Option.isSome_none, if_false] at hprocess ⊢
  split_ifs at hprocess ⊢ with hr
  · refine .inl ⟨?_, hr, by rw [hprocess]⟩
    rw [find, hprocess]
    exact hfind
  · refine .inr ⟨⟨call.targetAddr, trampo, inst⟩, ?_, rfl, by rw [hprocess]⟩
    rw [find, hprocess, Process.find, List.find?_cons_of_pos (by simp)]

theorem result_ne_dup {call : SharedHook} {trampo : BitVec 64}
    (hfind : s.find call.targetAddr = none) :
    s.result (call.sysOp trampo) ≠ SHADOWHOOK_ERRNO_HOOK_DUP := by
  rw [find] at hfind
  have hhook := @instHook_ne_dup .zero s.process.mem call.targetAddr trampo call.ssize
    (s.answers call.targetAddr call.env)
  rw [result, SharedHook.sysOp, op, Process.step, Process.switchHookUnique, hfind]
  simp only [Bool.false_eq_true, Bool.true_eq_false, Option.isSome_none, if_false]
  split_ifs <;> exact hhook

theorem switches_of_unhook {env : UnhookEnv} (hfind : s.find targetAddr = some switch)
    (h : s.step (.unhook targetAddr env) = some s') :
    s.result (.unhook targetAddr env) ≠ SHADOWHOOK_ERRNO_UNHOOK_NOTFOUND ∧
      s'.process.switches = s.process.switches.filter (·.targetAddr ≠ targetAddr) := by
  have hprocess := process_of_step h
  rw [find] at hfind
  rw [op, Process.step, Process.switchUnhookUnique, hfind] at hprocess
  rw [result, op, Process.step, Process.switchUnhookUnique, hfind]
  exact ⟨instUnhook_ne_notFound, by rw [hprocess]⟩

theorem switches_of_store {a : BitVec 64} {byte : BitVec 8} (h : s.step (.store a byte) = some s') :
    s'.process.switches = s.process.switches := by
  rw [process_of_step h]
  rfl

end System

/-- What the hub of a switch is for. -/
structure Hub.Serves (hub : Hub) (switch : Switch) : Prop where
  enables : ∃ func, hub.Enables func
  origAddr : hub.origAddr = switch.inst.enterAddr
  nodup : hub.funcs.Nodup

namespace Shared

variable {s s' q : Shared} {op : SharedOp} {out : HookOutcome} {targetAddr func : BitVec 64}

/-- What holds in shared mode between the calls. -/
structure Sound (s : Shared) : Prop where
  keys : (s.system.process.switches.map (·.targetAddr)).Nodup
  serves : ∀ switch ∈ s.system.process.switches, (s.hub switch.targetAddr).Serves switch

/-- The function is hooked, and the other is among those that are called in its place. -/
def Hooked (s : Shared) (targetAddr func : BitVec 64) : Prop :=
  s.system.find targetAddr ≠ none ∧ (s.hub targetAddr).Enables func

/-- All that a step can do. -/
inductive Does (s : Shared) : SharedOp → ℤ → Shared → Prop
  | store {a : BitVec 64} {byte : BitVec 8} {system : System}
      (hstep : s.system.step (.store a byte) = some system) :
      Does s (.store a byte) 0 { s with system := system }
  | oom {call : SharedHook} : Does s (.hook call) SHADOWHOOK_ERRNO_OOM s
  | add {call : SharedHook} {r : ℤ} {hub : Hub} (hfind : s.system.find call.targetAddr ≠ none)
      (hadd : (s.hub call.targetAddr).addProxy call.newAddr call.malloc = (r, hub)) :
      Does s (.hook call) r (s.setHub call.targetAddr hub)
  | first {call : SharedHook} {trampo : BitVec 64} {switch : Switch} {system : System}
      (hfind : s.system.find call.targetAddr = none)
      (hstep : s.system.step (call.sysOp trampo) = some system)
      (hswitch : system.find call.targetAddr = some switch) :
      Does s (.hook call) 0 ({ s with system := system }.setHub call.targetAddr
        ⟨[⟨call.newAddr, true⟩], switch.inst.enterAddr⟩)
  | failed {call : SharedHook} {trampo : BitVec 64} {system : System}
      (hfind : s.system.find call.targetAddr = none)
      (hstep : s.system.step (call.sysOp trampo) = some system)
      (hnone : system.find call.targetAddr = none) :
      Does s (.hook call) (s.system.result (call.sysOp trampo)) { s with system := system }
  | undone {call : SharedHook} {trampo : BitVec 64} {switch : Switch} {system system' : System}
      (hfind : s.system.find call.targetAddr = none)
      (hstep : s.system.step (call.sysOp trampo) = some system)
      (hswitch : system.find call.targetAddr = some switch)
      (hundo : system.step (.unhook call.targetAddr call.undo) = some system') :
      Does s (.hook call) SHADOWHOOK_ERRNO_OOM { s with system := system' }
  | missing {targetAddr newAddr : BitVec 64} {env : UnhookEnv}
      (hfind : s.system.find targetAddr = none) :
      Does s (.unhook targetAddr newAddr env) SHADOWHOOK_ERRNO_UNHOOK_NOTFOUND s
  | delete {targetAddr newAddr : BitVec 64} {env : UnhookEnv} {r : ℤ} {haveEnabledProxy : Bool}
      {hub : Hub} (hfind : s.system.find targetAddr ≠ none)
      (hdel : (s.hub targetAddr).delProxy newAddr = (r, haveEnabledProxy, hub))
      (hrest : r ≠ 0 ∨ haveEnabledProxy = true) :
      Does s (.unhook targetAddr newAddr env)
        (if r ≠ 0 then SHADOWHOOK_ERRNO_UNHOOK_NOTFOUND else 0) (s.setHub targetAddr hub)
  | last {targetAddr newAddr : BitVec 64} {env : UnhookEnv} {switch : Switch} {hub : Hub}
      {system : System} (hfind : s.system.find targetAddr = some switch)
      (hdel : (s.hub targetAddr).delProxy newAddr = (0, false, hub))
      (hstep : s.system.step (.unhook targetAddr env) = some system) :
      Does s (.unhook targetAddr newAddr env) (s.system.result (.unhook targetAddr env))
        { s with system := system }

theorem does_of_step (h : s.step op = some (out, s')) : s.Does op out.r s' := by
  cases op with
  | store a byte =>
    rw [step] at h
    obtain ⟨system, hstep, heq⟩ := Option.map_eq_some_iff.mp h
    obtain ⟨rfl, rfl⟩ := Prod.mk.inj heq
    exact .store hstep
  | hook call =>
    have hadd : ∀ {switch}, s.system.find call.targetAddr = some switch →
        some (s.addProxy switch call) = some (out, s') → s.Does (.hook call) out.r s' := by
      intro switch hfind heq
      obtain ⟨rfl, rfl⟩ := Prod.mk.inj (Option.some.inj heq)
      exact .add (by rw [hfind]; exact Option.some_ne_none switch) rfl
    rw [step, switchHookShared] at h
    split at h
    next switch hsearch =>
      split_ifs at hsearch
      exact hadd hsearch h
    split_ifs at h
    · obtain ⟨rfl, rfl⟩ := Prod.mk.inj (Option.some.inj h)
      exact .oom
    split at h
    · exact absurd h (by simp)
    next trampo _ =>
    split at h
    next switch hfind => exact hadd hfind h
    next hfind =>
    obtain ⟨system, hstep, h⟩ := Option.bind_eq_some_iff.mp h
    split at h
    next hnone =>
      obtain ⟨rfl, rfl⟩ := Prod.mk.inj (Option.some.inj h)
      exact .failed hfind hstep hnone
    next switch hswitch =>
      simp only [Hub.addProxy, List.length_nil, findBelow] at h
      cases hmalloc : call.malloc with
      | true =>
        simp only [hmalloc] at h
        obtain ⟨rfl, rfl⟩ := Prod.mk.inj (Option.some.inj h)
        exact .first hfind hstep hswitch
      | false =>
        simp only [hmalloc] at h
        obtain ⟨system', hundo, heq⟩ := Option.map_eq_some_iff.mp h
        obtain ⟨rfl, rfl⟩ := Prod.mk.inj heq
        exact .undone hfind hstep hswitch hundo
  | unhook targetAddr newAddr env =>
    rw [step] at h
    obtain ⟨⟨r, s''⟩, hunhook, heq⟩ := Option.map_eq_some_iff.mp h
    obtain ⟨rfl, rfl⟩ := Prod.mk.inj heq
    rw [switchUnhookShared] at hunhook
    split at hunhook
    next hfind =>
      obtain ⟨rfl, rfl⟩ := Prod.mk.inj (Option.some.inj hunhook)
      exact .missing hfind
    next switch hfind =>
    obtain ⟨deleted, haveEnabledProxy, hub, hdel⟩ : ∃ deleted haveEnabledProxy hub,
      (s.hub targetAddr).delProxy newAddr = (deleted, haveEnabledProxy, hub) := ⟨_, _, _, rfl⟩
    have hsome : s.system.find targetAddr ≠ none := by
      rw [hfind]
      exact Option.some_ne_none switch
    simp only [hdel] at hunhook
    split_ifs at hunhook with hdeleted hrest
    · obtain ⟨rfl, rfl⟩ := Prod.mk.inj (Option.some.inj hunhook)
      have hdoes := @Does.delete s targetAddr newAddr env _ _ _ hsome hdel (.inl hdeleted)
      rwa [if_pos hdeleted] at hdoes
    · obtain ⟨rfl, rfl⟩ := Prod.mk.inj (Option.some.inj hunhook)
      have hdoes := @Does.delete s targetAddr newAddr env _ _ _ hsome hdel (.inr hrest)
      rwa [if_neg hdeleted] at hdoes
    · obtain ⟨system, hstep, heq⟩ := Option.map_eq_some_iff.mp hunhook
      obtain ⟨rfl, rfl⟩ := Prod.mk.inj heq
      rw [not_not.mp hdeleted, Bool.eq_false_of_not_eq_true hrest] at hdel
      exact .last hfind hdel hstep

theorem find_ne_none : s.system.find targetAddr ≠ none ↔
    targetAddr ∈ s.system.process.switches.map (·.targetAddr) := by
  rw [Ne, System.find_eq_none, List.mem_map]
  push Not
  rfl

@[simp] theorem setHub_self {hub : Hub} : (s.setHub targetAddr hub).hub targetAddr = hub :=
  Function.update_self ..

theorem setHub_of_ne {hub : Hub} {other : BitVec 64} (hne : other ≠ targetAddr) :
    (s.setHub targetAddr hub).hub other = s.hub other :=
  Function.update_of_ne hne ..

theorem Sound.congr (h : s.Sound)
    (hswitches : s'.system.process.switches = s.system.process.switches) (hhub : s'.hub = s.hub) :
    s'.Sound := by
  refine ⟨?_, ?_⟩
  · rw [hswitches]
    exact h.keys
  · rw [hswitches, hhub]
    exact h.serves

theorem Sound.setHub (h : s.Sound) {hub : Hub}
    (hserves : ∀ switch ∈ s.system.process.switches, switch.targetAddr = targetAddr →
      hub.Serves switch) : (s.setHub targetAddr hub).Sound := by
  refine ⟨h.keys, fun switch hswitch => ?_⟩
  by_cases ht : switch.targetAddr = targetAddr
  · rw [ht, setHub_self]
    exact hserves switch hswitch ht
  · rw [setHub_of_ne ht]
    exact h.serves switch hswitch

/-- A hub of the tree lists no function twice. -/
theorem Sound.nodup (h : s.Sound) (hfind : s.system.find targetAddr ≠ none) :
    (s.hub targetAddr).funcs.Nodup := by
  obtain ⟨switch, hswitch, rfl⟩ := List.mem_map.mp (find_ne_none.mp hfind)
  exact (h.serves switch hswitch).nodup

/-- The switches after the first hook of a function has been taken back. -/
theorem switches_of_undone {system system' : System} {switch : Switch} {env : UnhookEnv}
    (hfind : s.system.find targetAddr = none) (hswitch : system.find targetAddr = some switch)
    (hcons : system.process.switches = switch :: s.system.process.switches)
    (hundo : system.step (.unhook targetAddr env) = some system') :
    system'.process.switches = s.system.process.switches := by
  have hkey := (System.mem_of_find hswitch).2
  have hold := System.find_eq_none.mp hfind
  rw [(System.switches_of_unhook hswitch hundo).2, hcons, List.filter_cons_of_neg (by simp [hkey])]
  exact List.filter_eq_self.mpr fun switch hs => by simpa using hold switch hs

/-- Every switch goes on to have a hub that calls somebody. -/
theorem Does.sound {r : ℤ} (hdoes : s.Does op r s') (h : s.Sound) : s'.Sound := by
  cases hdoes with
  | store hstep => exact h.congr (System.switches_of_store hstep) rfl
  | oom => exact h
  | add hfind hadd =>
    obtain ⟨-, -, rfl⟩ | ⟨-, -, rfl⟩ | ⟨-, hadded⟩ := Hub.addProxy_cases (h.nodup hfind) hadd
    · exact h.setHub fun switch hs ht => ht ▸ h.serves switch hs
    · exact h.setHub fun switch hs ht => ht ▸ h.serves switch hs
    · refine h.setHub fun switch hs ht => ⟨⟨_, (hadded.enables _).mpr (.inl rfl)⟩, ?_, hadded.nodup⟩
      rw [hadded.origAddr, ← ht]
      exact (h.serves switch hs).origAddr
  | @first call trampo switch system hfind hstep hswitch =>
    obtain ⟨hnone, -⟩ | ⟨switch', hswitch', hkey, hcons⟩ := System.switches_of_hook hfind hstep
    · exact absurd (hswitch.symm.trans hnone) (Option.some_ne_none switch)
    obtain rfl : switch = switch' := Option.some.inj (hswitch.symm.trans hswitch')
    have hold := System.find_eq_none.mp hfind
    refine ⟨?_, fun other hother => ?_⟩
    · rw [setHub, hcons, List.map_cons, List.nodup_cons, hkey]
      exact ⟨fun hmem => find_ne_none.mpr hmem hfind, h.keys⟩
    · rw [setHub, hcons] at hother
      rcases List.mem_cons.mp hother with rfl | hother
      · rw [hkey, setHub_self]
        exact ⟨⟨call.newAddr, List.mem_singleton_self _⟩, rfl, List.nodup_singleton _⟩
      · rw [setHub_of_ne (hold other hother)]
        exact h.serves other hother
  | failed hfind hstep hnone =>
    obtain ⟨-, -, hswitches⟩ | ⟨switch, hswitch, -⟩ := System.switches_of_hook hfind hstep
    · exact h.congr hswitches rfl
    · exact absurd (hswitch.symm.trans hnone) (Option.some_ne_none switch)
  | @undone call trampo switch system system' hfind hstep hswitch hundo =>
    obtain ⟨hnone, -⟩ | ⟨switch', hswitch', -, hcons⟩ := System.switches_of_hook hfind hstep
    · exact absurd (hswitch.symm.trans hnone) (Option.some_ne_none switch)
    obtain rfl : switch = switch' := Option.some.inj (hswitch.symm.trans hswitch')
    exact h.congr (switches_of_undone hfind hswitch hcons hundo) rfl
  | missing => exact h
  | delete hfind hdel hrest =>
    have hdeleted := Hub.delProxy_deleted (h.nodup hfind) hdel
    refine h.setHub fun switch hs ht => ⟨?_, ?_, hdeleted.nodup⟩
    · rcases hrest with hr | hrest
      · -- Nothing has been deleted, so whoever was called still is.
        obtain ⟨func, hfunc⟩ := (h.serves switch hs).enables
        rw [ht] at hfunc
        refine ⟨func, (hdeleted.enables func).mpr ⟨?_, hfunc⟩⟩
        rintro rfl
        exact hdeleted.missing hr hfunc
      · exact hdeleted.rest.mp hrest
    · rw [hdeleted.origAddr, ← ht]
      exact (h.serves switch hs).origAddr
  | last hfind hdel hstep =>
    have hswitches := (System.switches_of_unhook hfind hstep).2
    refine ⟨?_, fun switch hs => ?_⟩
    · rw [hswitches]
      exact h.keys.sublist (List.filter_sublist.map _)
    · rw [hswitches] at hs
      exact h.serves switch (List.mem_filter.mp hs).1

/-! Who is hooked: what has been hooked and not been unhooked since. -/

/-- What a call is to the ledger of the pairs that are hooked. -/
def entry : SharedOp → ℤ → List (Entry (BitVec 64 × BitVec 64))
  | .hook call, r => if r = 0 then [.added (call.targetAddr, call.newAddr)] else []
  | .unhook targetAddr newAddr _, r =>
    if r = SHADOWHOOK_ERRNO_UNHOOK_NOTFOUND then [] else [.removed (targetAddr, newAddr)]
  | .store .., _ => []

def ledger : List SharedOp → List ℤ → List (Entry (BitVec 64 × BitVec 64))
  | op :: ops, r :: rs => entry op r ++ ledger ops rs
  | _, _ => []

/-- The ledger says who is hooked. -/
def Kept (l : List (Entry (BitVec 64 × BitVec 64))) (s : Shared) : Prop :=
  ∀ targetAddr func, (targetAddr, func) ∈ survivors l ↔ s.Hooked targetAddr func

variable {l : List (Entry (BitVec 64 × BitVec 64))}

theorem hooked_congr (hswitches : s'.system.process.switches = s.system.process.switches)
    (hhub : s'.hub = s.hub) : s'.Hooked targetAddr func ↔ s.Hooked targetAddr func := by
  rw [Hooked, Hooked, find_ne_none, find_ne_none, hswitches, hhub]

theorem hooked_setHub {hub : Hub} (hfind : s.system.find targetAddr ≠ none) {t : BitVec 64} :
    (s.setHub targetAddr hub).Hooked t func ↔
      if t = targetAddr then hub.Enables func else s.Hooked t func := by
  split_ifs with ht
  · subst ht
    rw [Hooked, setHub_self]
    exact and_iff_right hfind
  · rw [Hooked, setHub_of_ne ht]
    rfl

theorem Kept.congr (hl : Kept l s)
    (hhooked : ∀ t f, s'.Hooked t f ↔ s.Hooked t f) : Kept l s' :=
  fun t f => (hl t f).trans (hhooked t f).symm

theorem Kept.added (hl : Kept l s) {pair : BitVec 64 × BitVec 64}
    (hhooked : ∀ t f, s'.Hooked t f ↔ (t, f) = pair ∨ s.Hooked t f) :
    Kept (l ++ [.added pair]) s' := by
  intro t f
  rw [survivors_added, List.mem_append, List.mem_singleton, hl t f, hhooked t f, or_comm]

theorem Kept.removed (hl : Kept l s) {pair : BitVec 64 × BitVec 64}
    (hhooked : ∀ t f, s'.Hooked t f ↔ (t, f) ≠ pair ∧ s.Hooked t f) :
    Kept (l ++ [.removed pair]) s' := by
  intro t f
  rw [survivors_removed, List.mem_filter, hl t f, hhooked t f, decide_eq_true_iff, and_comm]

theorem Does.kept {r : ℤ} (hdoes : s.Does op r s') (h : s.Sound) (hl : Kept l s) :
    Kept (l ++ entry op r) s' := by
  cases hdoes with
  | store hstep =>
    rw [entry, List.append_nil]
    exact hl.congr fun t f => hooked_congr (System.switches_of_store hstep) rfl
  | oom =>
    rw [entry, if_neg (by decide), List.append_nil]
    exact hl
  | @add call r hub hfind hadd =>
    obtain ⟨rfl, -, rfl⟩ | ⟨rfl, -, rfl⟩ | ⟨rfl, hadded⟩ := Hub.addProxy_cases (h.nodup hfind) hadd
    · rw [entry, if_neg (by decide), List.append_nil, setHub, Function.update_eq_self]
      exact hl
    · rw [entry, if_neg (by decide), List.append_nil, setHub, Function.update_eq_self]
      exact hl
    · rw [entry, if_pos rfl]
      refine hl.added fun t f => ?_
      rw [hooked_setHub hfind, Prod.mk.injEq]
      split_ifs with ht
      · rw [hadded.enables, ht, Hooked]
        exact or_congr (and_iff_right rfl).symm (and_iff_right hfind).symm
      · exact ⟨.inr, fun hor => hor.resolve_left fun heq => ht heq.1⟩
  | @first call trampo switch system hfind hstep hswitch =>
    obtain ⟨hnone, -⟩ | ⟨switch', hswitch', hkey, hcons⟩ := System.switches_of_hook hfind hstep
    · exact absurd (hswitch.symm.trans hnone) (Option.some_ne_none switch)
    have hsome : system.find call.targetAddr ≠ none := hswitch ▸ Option.some_ne_none switch
    rw [entry, if_pos rfl]
    refine hl.added fun t f => ?_
    rw [hooked_setHub hsome, Prod.mk.injEq]
    split_ifs with ht
    · subst ht
      simp [Hub.Enables, Hooked, hfind]
    · rw [Hooked, find_ne_none, hcons, List.map_cons, List.mem_cons, hkey, Hooked, find_ne_none]
      simp [ht]
  | @failed call trampo system hfind hstep hnone =>
    obtain ⟨-, hr, hswitches⟩ | ⟨switch, hswitch, -⟩ := System.switches_of_hook hfind hstep
    · rw [entry, if_neg hr, List.append_nil]
      exact hl.congr fun t f => hooked_congr hswitches rfl
    · exact absurd (hswitch.symm.trans hnone) (Option.some_ne_none switch)
  | @undone call trampo switch system system' hfind hstep hswitch hundo =>
    obtain ⟨hnone, -⟩ | ⟨switch', hswitch', -, hcons⟩ := System.switches_of_hook hfind hstep
    · exact absurd (hswitch.symm.trans hnone) (Option.some_ne_none switch)
    obtain rfl : switch = switch' := Option.some.inj (hswitch.symm.trans hswitch')
    rw [entry, if_neg (by decide), List.append_nil]
    exact hl.congr fun t f => hooked_congr (switches_of_undone hfind hswitch hcons hundo) rfl
  | missing hfind =>
    rw [entry, if_pos rfl, List.append_nil]
    exact hl
  | @delete targetAddr newAddr env r haveEnabledProxy hub hfind hdel hrest =>
    have hdeleted := Hub.delProxy_deleted (h.nodup hfind) hdel
    by_cases hr : r ≠ 0
    · rw [if_pos hr, entry, if_pos rfl, List.append_nil]
      refine hl.congr fun t f => ?_
      rw [hooked_setHub hfind]
      split_ifs with ht
      · rw [hdeleted.enables, ht, Hooked, and_iff_right hfind, and_iff_right_iff_imp]
        rintro hen rfl
        exact hdeleted.missing hr hen
      · rfl
    · rw [if_neg hr, entry, if_neg (by decide)]
      refine hl.removed fun t f => ?_
      rw [hooked_setHub hfind, Ne, Prod.mk.injEq]
      split_ifs with ht
      · rw [hdeleted.enables, ht, Hooked, and_iff_right hfind, and_iff_right rfl]
      · simp [ht]
  | @last targetAddr newAddr env switch hub system hfind hdel hstep =>
    have hsome : s.system.find targetAddr ≠ none := hfind ▸ Option.some_ne_none switch
    have hdeleted := Hub.delProxy_deleted (h.nodup hsome) hdel
    obtain ⟨hr, hswitches⟩ := System.switches_of_unhook hfind hstep
    rw [entry, if_neg hr]
    refine hl.removed fun t f => ?_
    have hrest : ∀ f, f ≠ newAddr → ¬ (s.hub targetAddr).Enables f := fun f hf hen =>
      absurd (hdeleted.rest.mpr ⟨f, (hdeleted.enables f).mpr ⟨hf, hen⟩⟩) Bool.false_ne_true
    have hmem : t ∈ (s.system.process.switches.filter (·.targetAddr ≠ targetAddr)).map
        (·.targetAddr) ↔ t ≠ targetAddr ∧ t ∈ s.system.process.switches.map (·.targetAddr) := by
      simp only [List.mem_map, List.mem_filter, decide_eq_true_iff]
      constructor
      · rintro ⟨switch, ⟨hswitch, hne⟩, rfl⟩
        exact ⟨hne, switch, hswitch, rfl⟩
      · rintro ⟨hne, switch, hswitch, rfl⟩
        exact ⟨switch, ⟨hswitch, hne⟩, rfl⟩
    rw [Hooked, Hooked, find_ne_none, find_ne_none, hswitches, hmem, and_assoc, ne_eq (t, f),
      Prod.mk.injEq]
    by_cases ht : t = targetAddr
    · subst ht
      exact ⟨fun h => absurd rfl h.1, fun h => absurd h.2.2 (hrest f fun hf => h.1 ⟨rfl, hf⟩)⟩
    · exact and_congr_left fun _ => ⟨fun _ heq => ht heq.1, fun _ => ht⟩

theorem Sound.kept_run {ops : List SharedOp} {outs : List HookOutcome} (h : s.Sound)
    (hl : Kept l s) (hrun : s.run ops = some (outs, q)) :
    q.Sound ∧ Kept (l ++ ledger ops (outs.map (·.r))) q := by
  induction ops generalizing s l outs with
  | nil =>
    obtain ⟨rfl, rfl⟩ := Prod.mk.inj (Option.some.inj hrun)
    rw [List.map_nil, ledger, List.append_nil]
    · exact ⟨h, hl⟩
    · exact fun _ _ _ _ heq => absurd heq (List.cons_ne_nil _ _).symm
  | cons op ops ih =>
    rw [run] at hrun
    obtain ⟨⟨out, s'⟩, hstep, hrest⟩ := Option.bind_eq_some_iff.mp hrun
    obtain ⟨⟨outs', q'⟩, hrun', heq⟩ := Option.map_eq_some_iff.mp hrest
    obtain ⟨rfl, rfl⟩ := Prod.mk.inj heq
    have hdoes := does_of_step hstep
    have hkept := ih (hdoes.sound h) (hdoes.kept h hl) hrun'
    rwa [List.append_assoc] at hkept

theorem sound_of_fresh (h : s.system.Fresh) : s.Sound ∧ Kept [] s := by
  have hnone : s.system.process.switches = [] := (List.append_eq_nil_iff.mp h.patches).1
  refine ⟨⟨?_, fun switch hs => ?_⟩, fun t f => ?_⟩
  · rw [hnone]
    exact List.nodup_nil
  · rw [hnone] at hs
    exact absurd hs List.not_mem_nil
  · rw [Hooked, find_ne_none, hnone]
    exact ⟨fun hmem => absurd hmem List.not_mem_nil, fun h => absurd h.1 List.not_mem_nil⟩

/-- What a hook answers says whether the pair has been hooked before. -/
theorem Does.answer {call : SharedHook} {r : ℤ} (hdoes : s.Does (.hook call) r s') (h : s.Sound) :
    (r = 0 → ¬ s.Hooked call.targetAddr call.newAddr) ∧
      (r = SHADOWHOOK_ERRNO_HOOK_DUP → s.Hooked call.targetAddr call.newAddr) := by
  have hnot : s.system.find call.targetAddr = none → ¬ s.Hooked call.targetAddr call.newAddr :=
    fun hfind hhooked => hhooked.1 hfind
  cases hdoes with
  | oom => exact ⟨fun h => absurd h (by decide), fun h => absurd h (by decide)⟩
  | add hfind hadd =>
    obtain ⟨rfl, hen, -⟩ | ⟨rfl, -, -⟩ | ⟨rfl, hadded⟩ := Hub.addProxy_cases (h.nodup hfind) hadd
    · exact ⟨fun h => absurd h (by decide), fun _ => ⟨hfind, hen⟩⟩
    · exact ⟨fun h => absurd h (by decide), fun h => absurd h (by decide)⟩
    · exact ⟨fun _ hhooked => hadded.new hhooked.2, fun h => absurd h (by decide)⟩
  | first hfind => exact ⟨fun _ => hnot hfind, fun h => absurd h (by decide)⟩
  | failed hfind =>
    exact ⟨fun _ => hnot hfind, fun hdup => absurd hdup (System.result_ne_dup hfind)⟩
  | undone hfind => exact ⟨fun _ => hnot hfind, fun h => absurd h (by decide)⟩

/-- After any run, who is hooked is what the ledger says: what has been hooked and has not been
unhooked since. A further hook comes to `0` only where there is none, and says that there is one
only where there is. -/
theorem hooked_iff {ops : List SharedOp} {outs : List HookOutcome} (hs : s.system.Fresh)
    (hrun : s.run ops = some (outs, q)) :
    (∀ targetAddr func, q.Hooked targetAddr func ↔
      (targetAddr, func) ∈ survivors (ledger ops (outs.map (·.r)))) ∧
    ∀ call out q', q.step (.hook call) = some (out, q') →
      (out.r = 0 → (call.targetAddr, call.newAddr) ∉ survivors (ledger ops (outs.map (·.r)))) ∧
      (out.r = SHADOWHOOK_ERRNO_HOOK_DUP →
        (call.targetAddr, call.newAddr) ∈ survivors (ledger ops (outs.map (·.r)))) := by
  obtain ⟨hsound, hkept⟩ := (sound_of_fresh hs).1.kept_run (sound_of_fresh hs).2 hrun
  rw [List.nil_append] at hkept
  refine ⟨fun t f => (hkept t f).symm, fun call out q' hstep => ?_⟩
  obtain ⟨hnew, hdup⟩ := (does_of_step hstep).answer hsound
  exact ⟨fun hr hmem => hnew hr ((hkept _ _).mp hmem), fun hr => (hkept _ _).mpr (hdup hr)⟩

/-! Two hook the function of the sample, and one of them, who has tried again, goes. -/

def sharedFresh : Shared := ⟨fresh, fun _ => ⟨[], 0⟩⟩

def sharedCall (func : BitVec 64) : SharedHook where
  targetAddr := 0x1000
  newAddr := func
  ssize := 64
  found := false
  memalign := true
  hubTrampo := some 0x3000
  malloc := true
  env := freshEnv
  undo := ⟨⟨true, .ok, true, true⟩, 0, 0⟩

def sharedOps : List SharedOp :=
  [.hook (sharedCall 0x100), .hook (sharedCall 0x200), .hook (sharedCall 0x100),
    .unhook 0x1000 0x100 ⟨⟨true, .ok, true, true⟩, 0, 0⟩]

theorem shared_answers : (sharedFresh.run sharedOps).map (fun p => p.1.map (·.r)) =
    some [0, 0, SHADOWHOOK_ERRNO_HOOK_DUP, 0] := by
  decide +kernel

/-- The other stays. -/
theorem sharedFresh_hooked : ∃ outs q, sharedFresh.run sharedOps = some (outs, q) ∧
    ¬ q.Hooked 0x1000 0x100 ∧ q.Hooked 0x1000 0x200 := by
  obtain ⟨⟨outs, q⟩, hrun, hrs⟩ := Option.map_eq_some_iff.mp shared_answers
  have hhooked := (hooked_iff fresh_fresh hrun).1
  rw [show outs.map (·.r) = _ from hrs] at hhooked
  exact ⟨outs, q, hrun, fun h => absurd ((hhooked _ _).mp h) (by decide),
    (hhooked _ _).mpr (by decide)⟩

/-! Shared mode on top of unique mode: the trampolines of the hubs are the new functions. -/

section

variable {text gaps : Set (BitVec 64)} {pastEnters pastExits : List TrampoEvent}

/-- What is asked of the threads: besides what is asked of them in unique mode, that a new hub gets
its trampoline. -/
def Allows (text gaps : Set (BitVec 64)) (s : Shared) : SharedOp → Prop
  | .hook call =>
    (call.memalign = true → call.hubTrampo ≠ none) ∧
      (s.system.find call.targetAddr = none →
        s.system.Fit text gaps call.targetAddr call.ssize call.env)
  | .unhook .. => True
  | .store a _ => ∀ switch ∈ s.system.process.patches, ¬ switch.Region a

def AllowsAll (text gaps : Set (BitVec 64)) : Shared → List SharedOp → Prop
  | _, [] => True
  | s, op :: ops =>
    s.Allows text gaps op ∧ ∀ out s', s.step op = some (out, s') → s'.AllowsAll text gaps ops

/-- What the program itself has written. -/
def stores (mem : Mem) : List SharedOp → Mem
  | [] => mem
  | .store a byte :: ops => stores (Function.update mem a byte) ops
  | _ :: ops => stores mem ops

end

end Shared

end NativeLib.ShadowHook
