import NativeLib.Hook.HookUtils

/-! What one call of each `HookUtils` function can do, guards and engine calls included.
Every fact about runs of the registry is derived from these cases. -/

namespace NativeLib.Hook

open Interaction

variable {ε : Type} {env : ε → EngineCall → Word → ε → Prop}

namespace HookUtils

@[simp] theorem putPtr_hookedList (s : HookUtils) (orig ret : Ptr) (moudle : HookModel) :
    (s.putPtr orig ret moudle).hookedList = s.hookedList ++ [⟨orig, ret, moudle⟩] := rfl

theorem recorded_iff {s : HookUtils} {dysym : Ptr} :
    s.recorded dysym = true ↔ dysym ∈ s.hookedList.map HookAddrInfo.hookOrig := by
  simp [recorded]

/-- What the first block of `Hooker` can do. -/
inductive InitStep (env : ε → EngineCall → Word → ε → Prop) (s : HookUtils) (e : ε) :
    Trace EngineCall Word → HookUtils → ε → Prop
  | done (h : s.isInted = true) : InitStep env s e [] s e
  | dobby (h : s.isInted = false) (hm : s.hookutilsModel = .dobby) :
      InitStep env s e [] { s with isInted := true } e
  | shadowhook {ret e'} (h : s.isInted = false) (hm : s.hookutilsModel = .shadowhook)
      (hr : env e (.shadowhookInit SHADOWHOOK_MODE_UNIQUE false) ret e') :
      InitStep env s e [(.shadowhookInit SHADOWHOOK_MODE_UNIQUE false, ret)]
        { s with isInted := decide (ret = SHADOWHOOK_ERRNO_OK) } e'

theorem initEngine_step {s s' : HookUtils} {e e' : ε} {tr : Trace EngineCall Word}
    (h : s.initEngine.Exec env e tr s' e') : InitStep env s e tr s' e' := by
  unfold initEngine at h
  split at h
  · next hi =>
    obtain ⟨rfl, rfl, rfl⟩ := h
    exact .done hi
  · next hi =>
    have hi : s.isInted = false := by simpa using hi
    split at h
    · next hm =>
      obtain ⟨ret, u, tr', rfl, hr, h⟩ := Prog.exec_call_bind.mp h
      split at h
      · next hok =>
        obtain ⟨rfl, rfl, rfl⟩ := h
        simpa [hok] using InitStep.shadowhook hi hm hr
      · next hok =>
        obtain ⟨rfl, rfl, rfl⟩ := h
        simpa [hok, ← hi] using InitStep.shadowhook hi hm hr
    · next hm =>
      obtain ⟨rfl, rfl, rfl⟩ := h
      exact .dobby hi hm

/-- What `Hooker` can do. `s₀` and `e₀` are the states after its first block. -/
inductive HookerStep (env : ε → EngineCall → Word → ε → Prop) (s : HookUtils)
    (dysym newrep org : Ptr) (e : ε) : Trace EngineCall Word → Bool → HookUtils → ε → Prop
  | null (h : dysym = nullptr) : HookerStep env s dysym newrep org e [] false s e
  | recorded {tr s₀ e₀} (h : dysym ≠ nullptr) (hi : InitStep env s e tr s₀ e₀)
      (hr : s.recorded dysym = true) : HookerStep env s dysym newrep org e tr true s₀ e₀
  | dobby {tr s₀ e₀ ret e'} (h : dysym ≠ nullptr) (hi : InitStep env s e tr s₀ e₀)
      (hr : s.recorded dysym = false) (hm : s.hookutilsModel = .dobby)
      (hc : env e₀ (.dobbyHook dysym newrep org) ret e') :
      HookerStep env s dysym newrep org e (tr ++ [(.dobbyHook dysym newrep org, ret)])
        (decide (ret = RT_SUCCESS))
        (if ret = RT_SUCCESS then s₀.putPtr dysym nullptr .dobby else s₀) e'
  | shadowhook {tr s₀ e₀ sub e'} (h : dysym ≠ nullptr) (hi : InitStep env s e tr s₀ e₀)
      (hr : s.recorded dysym = false) (hm : s.hookutilsModel = .shadowhook)
      (hc : env e₀ (.shadowhookHookFuncAddr dysym newrep org) sub e') :
      HookerStep env s dysym newrep org e
        (tr ++ [(.shadowhookHookFuncAddr dysym newrep org, sub)])
        (decide (sub ≠ nullptr))
        (if sub ≠ nullptr then s₀.putPtr dysym sub .shadowhook else s₀) e'

theorem InitStep.keeps {s s₀ : HookUtils} {e e₀ : ε} {tr : Trace EngineCall Word}
    (h : InitStep env s e tr s₀ e₀) :
    s₀.hookedList = s.hookedList ∧ s₀.hookutilsModel = s.hookutilsModel := by
  cases h <;> exact ⟨rfl, rfl⟩

theorem hooker_step {s s' : HookUtils} {dysym newrep org : Ptr} {e e' : ε}
    {tr : Trace EngineCall Word} {b : Bool}
    (h : (s.hooker dysym newrep org).Exec env e tr (b, s') e') :
    HookerStep env s dysym newrep org e tr b s' e' := by
  unfold hooker at h
  split at h
  · next hn =>
    obtain ⟨rfl, ⟨rfl, rfl⟩, rfl⟩ := Prog.exec_pure_pair.mp h
    exact .null hn
  · next hn =>
    obtain ⟨s₀, e₀, tr₁, tr₂, rfl, hinit, h⟩ := Prog.exec_bind.mp h
    have hi := initEngine_step hinit
    obtain ⟨hlist, hmodel⟩ := hi.keeps
    have hrec : s₀.recorded dysym = s.recorded dysym := by simp only [recorded, hlist]
    split at h
    · next hr =>
      obtain ⟨rfl, ⟨rfl, rfl⟩, rfl⟩ := Prog.exec_pure_pair.mp h
      rw [List.append_nil]
      exact .recorded hn hi (hrec ▸ hr)
    · next hr' =>
      have hr : s.recorded dysym = false := by simpa [hrec] using hr'
      split at h
      · next hm' =>
        obtain ⟨ret, u, tr', rfl, hc, h⟩ := Prog.exec_call_bind.mp h
        have hm := hmodel ▸ hm'
        split at h
        · next hok =>
          obtain ⟨rfl, ⟨rfl, rfl⟩, rfl⟩ := Prog.exec_pure_pair.mp h
          simpa [hok] using HookerStep.dobby hn hi hr hm hc
        · next hok =>
          obtain ⟨rfl, ⟨rfl, rfl⟩, rfl⟩ := Prog.exec_pure_pair.mp h
          simpa [hok] using HookerStep.dobby hn hi hr hm hc
      · next hm' =>
        obtain ⟨sub, u, tr', rfl, hc, h⟩ := Prog.exec_call_bind.mp h
        have hm := hmodel ▸ hm'
        split at h
        · next hok =>
          obtain ⟨rfl, ⟨rfl, rfl⟩, rfl⟩ := Prog.exec_pure_pair.mp h
          simpa [hok] using HookerStep.shadowhook hn hi hr hm hc
        · next hok =>
          obtain ⟨rfl, ⟨rfl, rfl⟩, rfl⟩ := Prog.exec_pure_pair.mp h
          simpa [hok] using HookerStep.shadowhook hn hi hr hm hc

/-- The record `unHook` works on. -/
def selected (s : HookUtils) (sym : Ptr) : Option HookAddrInfo :=
  if sym = nullptr then none else s.hookedList.find? (keyedBy sym)

/-- What `unHook` can do. -/
inductive UnHookStep (env : ε → EngineCall → Word → ε → Prop) (s : HookUtils) (sym : Ptr)
    (e : ε) : Trace EngineCall Word → Bool → HookUtils → ε → Prop
  | absent (h : s.selected sym = none) : UnHookStep env s sym e [] false s e
  | found {info code e'} (h : s.selected sym = some info)
      (hc : env e (s.unhookCall info) code e') :
      UnHookStep env s sym e [(s.unhookCall info, code)]
        (code == unhookOk s.hookutilsModel)
        { s with hookedList := s.hookedList.filter (· ≠ info) } e'

theorem unHook_none {s : HookUtils} {sym : Ptr} (h : s.selected sym = none) :
    s.unHook sym = pure (false, s) := by
  unfold selected at h
  unfold unHook
  split at h
  · next hn => rw [if_pos hn]
  · next hn => rw [if_neg hn, h]

theorem unHook_some {s : HookUtils} {sym : Ptr} {info : HookAddrInfo}
    (h : s.selected sym = some info) :
    s.unHook sym = Prog.call (s.unhookCall info) >>= fun code =>
      pure (code == unhookOk s.hookutilsModel,
        { s with hookedList := s.hookedList.filter (· ≠ info) }) := by
  unfold selected at h
  unfold unHook
  split at h
  · simp at h
  · next hn => rw [if_neg hn, h]

theorem unHook_step {s s' : HookUtils} {sym : Ptr} {e e' : ε} {tr : Trace EngineCall Word}
    {b : Bool} (h : (s.unHook sym).Exec env e tr (b, s') e') :
    UnHookStep env s sym e tr b s' e' := by
  cases hsel : s.selected sym with
  | none =>
    rw [unHook_none hsel] at h
    obtain ⟨rfl, ⟨rfl, rfl⟩, rfl⟩ := Prog.exec_pure_pair.mp h
    exact .absent hsel
  | some info =>
    rw [unHook_some hsel] at h
    obtain ⟨code, u, tr', rfl, hc, hret⟩ := Prog.exec_call_bind.mp h
    obtain ⟨rfl, ⟨rfl, rfl⟩, rfl⟩ := Prog.exec_pure_pair.mp hret
    exact .found hsel hc

theorem selected_mem {s : HookUtils} {sym : Ptr} {info : HookAddrInfo}
    (h : s.selected sym = some info) : info ∈ s.hookedList ∧ keyedBy sym info = true := by
  unfold selected at h
  split at h
  · simp at h
  · exact ⟨List.mem_of_find?_eq_some h, List.find?_some h⟩

end HookUtils

/-- The record an operation selects for removal. -/
def removedBy (s : HookUtils) : HookOp → Option HookAddrInfo
  | .unHook sym => s.selected sym
  | _ => none

/-- What one operation of a run can do. -/
inductive HookStep (env : ε → EngineCall → Word → ε → Prop) (s : HookUtils) (e : ε) :
    HookOp → Trace EngineCall Word → Option Bool → HookUtils → ε → Prop
  | setHookerModle (modle) :
      HookStep env s e (.setHookerModle modle) [] none (s.setHookerModle modle) e
  | hooker {dysym newrep org tr b s' e'} (h : s.HookerStep env dysym newrep org e tr b s' e') :
      HookStep env s e (.hooker dysym newrep org) tr (some b) s' e'
  | unHook {sym tr b s' e'} (h : s.UnHookStep env sym e tr b s' e') :
      HookStep env s e (.unHook sym) tr (some b) s' e'

theorem HookOp.body_step {op : HookOp} {s s' : HookUtils} {e e' : ε}
    {tr : Trace EngineCall Word} {b : Option Bool}
    (h : (op.body s).Exec env e tr (b, s') e') : HookStep env s e op tr b s' e' := by
  cases op with
  | setHookerModle modle =>
    obtain ⟨rfl, ⟨rfl, rfl⟩, rfl⟩ := Prog.exec_pure_pair.mp h
    exact .setHookerModle modle
  | hooker dysym newrep org =>
    obtain ⟨⟨b', s₁⟩, e₁, tr₁, tr₂, rfl, hx, hret⟩ := Prog.exec_bind.mp h
    obtain ⟨rfl, ⟨rfl, rfl⟩, rfl⟩ := Prog.exec_pure_pair.mp hret
    rw [List.append_nil]
    exact .hooker (HookUtils.hooker_step hx)
  | unHook sym =>
    obtain ⟨⟨b', s₁⟩, e₁, tr₁, tr₂, rfl, hx, hret⟩ := Prog.exec_bind.mp h
    obtain ⟨rfl, ⟨rfl, rfl⟩, rfl⟩ := Prog.exec_pure_pair.mp hret
    rw [List.append_nil]
    exact .unHook (HookUtils.unHook_step hx)

end NativeLib.Hook
