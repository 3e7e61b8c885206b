import Mathlib.Data.Finset.Image
import NativeLib.Hook.HookUtils

/-! What the registry may assume of the two engines: each keeps its own set of patched
addresses, and a call either does what it was asked to or fails with no change. -/

namespace NativeLib.Hook

/-- The patches both engines hold. ShadowHook hands out a stub for each of its own. -/
structure Engines where
  dobby : Finset Ptr
  shadow : Finset (Ptr × Ptr)
  addr_inj : ∀ p ∈ shadow, ∀ q ∈ shadow, p.1 = q.1 → p = q
  stub_inj : ∀ p ∈ shadow, ∀ q ∈ shadow, p.2 = q.2 → p = q
  stub_ne : ∀ p ∈ shadow, p.2 ≠ nullptr

namespace Engines

/-- No patches. -/
def none : Engines := ⟨∅, ∅, by simp, by simp, by simp⟩

/-- `a` is patched by the engine `m`. -/
def Patched (e : Engines) (a : Ptr) : HookModel → Prop
  | .dobby => a ∈ e.dobby
  | .shadowhook => a ∈ e.shadow.image Prod.fst

instance (e : Engines) (a : Ptr) : (m : HookModel) → Decidable (e.Patched a m)
  | .dobby => inferInstanceAs (Decidable (a ∈ e.dobby))
  | .shadowhook => inferInstanceAs (Decidable (a ∈ e.shadow.image Prod.fst))

/-- A stub that ShadowHook can hand out for `a`. -/
def Free (e : Engines) (a stub : Ptr) : Prop :=
  stub ≠ nullptr ∧ ∀ p ∈ e.shadow, p.1 ≠ a ∧ p.2 ≠ stub

instance (e : Engines) (a stub : Ptr) : Decidable (e.Free a stub) :=
  inferInstanceAs (Decidable (_ ∧ ∀ p ∈ e.shadow, _))

def patchDobby (e : Engines) (a : Ptr) : Engines := { e with dobby := insert a e.dobby }

def unpatchDobby (e : Engines) (a : Ptr) : Engines := { e with dobby := e.dobby.erase a }

def patchShadow (e : Engines) (a stub : Ptr) (h : e.Free a stub) : Engines where
  dobby := e.dobby
  shadow := insert (a, stub) e.shadow
  addr_inj := by
    intro p hp q hq hpq
    rw [Finset.mem_insert] at hp hq
    rcases hp with rfl | hp <;> rcases hq with rfl | hq
    · rfl
    · exact absurd hpq.symm (h.2 q hq).1
    · exact absurd hpq (h.2 p hp).1
    · exact e.addr_inj p hp q hq hpq
  stub_inj := by
    intro p hp q hq hpq
    rw [Finset.mem_insert] at hp hq
    rcases hp with rfl | hp <;> rcases hq with rfl | hq
    · rfl
    · exact absurd hpq.symm (h.2 q hq).2
    · exact absurd hpq (h.2 p hp).2
    · exact e.stub_inj p hp q hq hpq
  stub_ne := by
    intro p hp
    rw [Finset.mem_insert] at hp
    rcases hp with rfl | hp
    · exact h.1
    · exact e.stub_ne p hp

/-- ShadowHook takes back the patch it handed the stub out for. -/
def unpatchShadow (e : Engines) (stub : Ptr) : Engines where
  dobby := e.dobby
  shadow := e.shadow.filter (·.2 ≠ stub)
  addr_inj p hp q hq :=
    e.addr_inj p (Finset.mem_of_mem_filter p hp) q (Finset.mem_of_mem_filter q hq)
  stub_inj p hp q hq :=
    e.stub_inj p (Finset.mem_of_mem_filter p hp) q (Finset.mem_of_mem_filter q hq)
  stub_ne p hp := e.stub_ne p (Finset.mem_of_mem_filter p hp)

/-- The record `info` stands for a patch that its engine holds. -/
def Holds (e : Engines) (info : HookAddrInfo) : Prop :=
  match info.hookMoudle with
  | .dobby => info.hookRet = nullptr ∧ info.hookOrig ∈ e.dobby
  | .shadowhook => (info.hookOrig, info.hookRet) ∈ e.shadow

theorem patched_iff {e : Engines} {a : Ptr} {m : HookModel} :
    e.Patched a m ↔ ∃ info, e.Holds info ∧ info.hookOrig = a ∧ info.hookMoudle = m := by
  refine ⟨?_, ?_⟩
  · intro h
    cases m with
    | dobby => exact ⟨⟨a, nullptr, .dobby⟩, ⟨rfl, h⟩, rfl, rfl⟩
    | shadowhook =>
      obtain ⟨⟨b, stub⟩, hp, rfl⟩ := Finset.mem_image.mp h
      exact ⟨⟨b, stub, .shadowhook⟩, hp, rfl, rfl⟩
  · rintro ⟨⟨orig, ret, moudle⟩, h, rfl, rfl⟩
    cases moudle with
    | dobby => exact h.2
    | shadowhook => exact Finset.mem_image.mpr ⟨_, h, rfl⟩

theorem holds_none (info : HookAddrInfo) : ¬ none.Holds info := by
  obtain ⟨orig, ret, moudle⟩ := info
  cases moudle <;> simp [Holds, none]

theorem holds_patchDobby {e : Engines} {a : Ptr} {info : HookAddrInfo} :
    (e.patchDobby a).Holds info ↔ e.Holds info ∨ info = ⟨a, nullptr, .dobby⟩ := by
  obtain ⟨orig, ret, moudle⟩ := info
  cases moudle with
  | dobby =>
    simp only [Holds, patchDobby, Finset.mem_insert, HookAddrInfo.mk.injEq]
    tauto
  | shadowhook => simp [Holds, patchDobby]

theorem holds_patchShadow {e : Engines} {a stub : Ptr} {h : e.Free a stub}
    {info : HookAddrInfo} :
    (e.patchShadow a stub h).Holds info ↔ e.Holds info ∨ info = ⟨a, stub, .shadowhook⟩ := by
  obtain ⟨orig, ret, moudle⟩ := info
  cases moudle with
  | dobby => simp [Holds, patchShadow]
  | shadowhook =>
    simp only [Holds, patchShadow, Finset.mem_insert, Prod.mk.injEq, HookAddrInfo.mk.injEq]
    tauto

theorem holds_unpatchDobby {e : Engines} {a : Ptr} {info : HookAddrInfo} :
    (e.unpatchDobby a).Holds info ↔ e.Holds info ∧ info ≠ ⟨a, nullptr, .dobby⟩ := by
  obtain ⟨orig, ret, moudle⟩ := info
  cases moudle with
  | dobby =>
    simp only [Holds, unpatchDobby, Finset.mem_erase, ne_eq, HookAddrInfo.mk.injEq]
    tauto
  | shadowhook => simp [Holds, unpatchDobby]

/-- A stub stands for one patch. -/
theorem holds_unpatchShadow {e : Engines} {a stub : Ptr} (h : (a, stub) ∈ e.shadow)
    {info : HookAddrInfo} :
    (e.unpatchShadow stub).Holds info ↔ e.Holds info ∧ info ≠ ⟨a, stub, .shadowhook⟩ := by
  obtain ⟨orig, ret, moudle⟩ := info
  cases moudle with
  | dobby => simp [Holds, unpatchShadow]
  | shadowhook =>
    simp only [Holds, unpatchShadow, Finset.mem_filter, ne_eq, HookAddrInfo.mk.injEq, and_true]
    have hinj : (orig, ret) ∈ e.shadow → ret = stub → orig = a := fun h' hr =>
      (Prod.mk.inj (e.stub_inj _ h' _ h hr)).1
    tauto

/-- The answers the engines may give, and what they do to the patches. -/
inductive Step (e : Engines) : EngineCall → Word → Engines → Prop
  | init (mode debuggable ret) : Step e (.shadowhookInit mode debuggable) ret e
  | dobbyHooked {a} (newrep org) (h : a ∉ e.dobby) :
      Step e (.dobbyHook a newrep org) RT_SUCCESS (e.patchDobby a)
  | dobbyHookFailed {ret} (a newrep org) (h : ret ≠ RT_SUCCESS) :
      Step e (.dobbyHook a newrep org) ret e
  | dobbyDestroyed {a} (h : a ∈ e.dobby) :
      Step e (.dobbyDestroy a) RT_SUCCESS (e.unpatchDobby a)
  | dobbyDestroyFailed {ret} (a) (h : ret ≠ RT_SUCCESS) : Step e (.dobbyDestroy a) ret e
  | shadowHooked {a stub} (newrep org) (h : e.Free a stub) :
      Step e (.shadowhookHookFuncAddr a newrep org) stub (e.patchShadow a stub h)
  | shadowHookFailed (a newrep org) : Step e (.shadowhookHookFuncAddr a newrep org) nullptr e
  | shadowUnhooked {stub} (h : stub ∈ e.shadow.image Prod.snd) :
      Step e (.shadowhookUnhook stub) SHADOWHOOK_ERRNO_OK (e.unpatchShadow stub)
  | shadowUnhookFailed {ret} (stub) (h : ret ≠ SHADOWHOOK_ERRNO_OK) :
      Step e (.shadowhookUnhook stub) ret e

/-- Engines that do what they are asked whenever they can; a stub lies behind its address. -/
def oblige (e : Engines) : EngineCall → Word × Engines
  | .shadowhookInit _ _ => (SHADOWHOOK_ERRNO_OK, e)
  | .dobbyHook a _ _ => if a ∈ e.dobby then (-1, e) else (RT_SUCCESS, e.patchDobby a)
  | .dobbyDestroy a => if a ∈ e.dobby then (RT_SUCCESS, e.unpatchDobby a) else (-1, e)
  | .shadowhookHookFuncAddr a _ _ =>
      if h : e.Free a (a + 0x10000) then (a + 0x10000, e.patchShadow a (a + 0x10000) h)
      else (nullptr, e)
  | .shadowhookUnhook stub =>
      if stub ∈ e.shadow.image Prod.snd then (SHADOWHOOK_ERRNO_OK, e.unpatchShadow stub)
      else (-1, e)

theorem oblige_step (e : Engines) (c : EngineCall) : e.Step c (e.oblige c).1 (e.oblige c).2 := by
  cases c with
  | shadowhookInit mode debuggable => exact .init _ _ _
  | dobbyHook a newrep org =>
    rw [oblige]
    split
    · exact .dobbyHookFailed _ _ _ (by simp [RT_SUCCESS])
    · next h => exact .dobbyHooked _ _ h
  | dobbyDestroy a =>
    rw [oblige]
    split
    · next h => exact .dobbyDestroyed h
    · exact .dobbyDestroyFailed _ (by simp [RT_SUCCESS])
  | shadowhookHookFuncAddr a newrep org =>
    rw [oblige]
    split
    · next h => exact .shadowHooked _ _ h
    · exact .shadowHookFailed _ _ _
  | shadowhookUnhook stub =>
    rw [oblige]
    split
    · next h => exact .shadowUnhooked h
    · exact .shadowUnhookFailed _ (by simp [SHADOWHOOK_ERRNO_OK])

end Engines

end NativeLib.Hook
