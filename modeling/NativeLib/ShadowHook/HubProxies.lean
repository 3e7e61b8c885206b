import NativeLib.ShadowHook.HubRuns

/-! What `sh_hub_add_proxy` and `sh_hub_del_proxy` make of the functions that a hub calls. -/

namespace NativeLib.ShadowHook

section

variable {proxies : List Proxy} {func g : BitVec 64} {h n : ℕ}

/-- The proxies with one function switched on or off. -/
def setEnabled (func : BitVec 64) (enabled : Bool) (proxies : List Proxy) : List Proxy :=
  proxies.map fun proxy => if proxy.func = func then { proxy with enabled := enabled } else proxy

theorem mem_setEnabled {enabled : Bool} : ⟨g, true⟩ ∈ setEnabled func enabled proxies ↔
    if g = func then enabled = true ∧ func ∈ proxies.map (·.func) else ⟨g, true⟩ ∈ proxies := by
  rw [setEnabled, List.mem_map]
  split_ifs with hg
  · subst hg
    constructor
    · rintro ⟨proxy, hproxy, heq⟩
      split_ifs at heq with hf
      · exact ⟨congrArg Proxy.enabled heq, List.mem_map.mpr ⟨proxy, hproxy, hf⟩⟩
      · exact absurd (congrArg Proxy.func heq) hf
    · rintro ⟨rfl, hmem⟩
      obtain ⟨proxy, hproxy, rfl⟩ := List.mem_map.mp hmem
      exact ⟨proxy, hproxy, by rw [if_pos rfl]⟩
  · constructor
    · rintro ⟨proxy, hproxy, heq⟩
      split_ifs at heq with hf
      · exact absurd ((congrArg Proxy.func heq).symm.trans hf) hg
      · exact heq ▸ hproxy
    · intro hmem
      exact ⟨⟨g, true⟩, hmem, if_neg hg⟩

/-- Where no function is listed twice, the first proxy of a function is its only one. -/
theorem modify_eq_setEnabled (hnodup : (proxies.map (·.func)).Nodup)
    (hn : (proxies[n]?).any (·.func == func) = true) (enabled : Bool) :
    proxies.modify n ({ · with enabled := enabled }) = setEnabled func enabled proxies := by
  apply List.ext_getElem?
  intro m
  rw [setEnabled, List.getElem?_modify, List.getElem?_map]
  cases hm : proxies[m]? with
  | none => rfl
  | some proxy =>
    by_cases heq : n = m
    · subst heq
      rw [hm] at hn
      simp [show proxy.func = func by simpa using hn]
    · have hne : proxy.func ≠ func := by
        intro hf
        obtain ⟨other, hother, hf'⟩ : ∃ other, proxies[n]? = some other ∧ other.func = func := by
          simpa [Option.any_eq_true] using hn
        have hlt : m < (proxies.map (·.func)).length := by
          rw [List.length_map]
          exact (List.getElem?_eq_some_iff.mp hm).1
        refine heq ((List.getElem?_inj hlt hnodup).mp ?_).symm
        rw [List.getElem?_map, List.getElem?_map, hm, hother]
        exact congrArg some (hf.trans hf'.symm)
      simp [heq, hne]

theorem findBelow_eq_none {property : Proxy → Bool} :
    findBelow proxies property proxies.length = none ↔
      ∀ proxy ∈ proxies, property proxy = false := by
  constructor
  · intro hfind proxy hproxy
    obtain ⟨n, hn, rfl⟩ := List.getElem_of_mem hproxy
    simpa [List.getElem?_eq_getElem hn] using not_of_findBelow hfind hn
  · intro hall
    cases hfind : findBelow proxies property proxies.length with
    | none => rfl
    | some n =>
      obtain ⟨hn, hp⟩ := lt_of_findBelow hfind
      rw [List.getElem?_eq_getElem hn] at hp
      exact absurd (hall _ (List.getElem_mem hn)) (by simpa using hp)

theorem map_func_setEnabled {enabled : Bool} :
    (setEnabled func enabled proxies).map (·.func) = proxies.map (·.func) := by
  rw [setEnabled, List.map_map]
  refine List.map_congr_left fun proxy _ => ?_
  simp only [Function.comp_apply]
  split_ifs <;> rfl

theorem setEnabled_setEnabled {enabled : Bool} :
    setEnabled func enabled (setEnabled func enabled proxies) =
      setEnabled func enabled proxies := by
  rw [setEnabled, setEnabled, List.map_map]
  refine List.map_congr_left fun proxy _ => ?_
  simp only [Function.comp_apply]
  split_ifs <;> rfl

theorem setEnabled_of_notMem {enabled : Bool} (h : ∀ proxy ∈ proxies, proxy.func ≠ func) :
    setEnabled func enabled proxies = proxies := by
  rw [setEnabled]
  exact (List.map_congr_left fun proxy hproxy => if_neg (h proxy hproxy)).trans (List.map_id _)

theorem any_of_drop {property : Proxy → Bool} (hany : (proxies.drop n).any property = true) :
    proxies.any property = true := by
  obtain ⟨proxy, hproxy, hp⟩ := List.any_eq_true.mp hany
  exact List.any_eq_true.mpr ⟨proxy, List.mem_of_mem_drop hproxy, hp⟩

/-- The loop switches the function off, and stops early only if that makes no difference. -/
theorem delProxyLoop_eq (hnodup : (proxies.map (·.func)).Nodup) (hle : h ≤ proxies.length)
    (hdone : (proxies.drop h).any (·.func == func) = true →
      setEnabled func false proxies = proxies) :
    Hub.delProxyLoop func ((proxies.drop h).any (·.func == func)) ((proxies.drop h).any (·.enabled))
        proxies h =
      (proxies.any (·.func == func), (setEnabled func false proxies).any (·.enabled),
        setEnabled func false proxies) := by
  induction h generalizing proxies with
  | zero =>
    have hall : setEnabled func false proxies = proxies := by
      by_cases hany : proxies.any (·.func == func) = true
      · exact hdone hany
      · refine setEnabled_of_notMem fun proxy hproxy hf => hany ?_
        exact List.any_eq_true.mpr ⟨proxy, hproxy, by simpa using hf⟩
    rw [Hub.delProxyLoop, hall]
    rfl
  | succ n ih =>
    obtain ⟨proxies', hp⟩ : ∃ proxies', proxies' = if (proxies[n]?).any (·.func == func) then
      proxies.modify n ({ · with enabled := false }) else proxies := ⟨_, rfl⟩
    have hoff : setEnabled func false proxies' = setEnabled func false proxies := by
      rw [hp]
      split_ifs with hsame
      · rw [modify_eq_setEnabled hnodup hsame, setEnabled_setEnabled]
      · rfl
    have hfuncs : proxies'.map (·.func) = proxies.map (·.func) := by
      rw [hp]
      split_ifs
      · exact Hub.map_func_modify proxies false
      · rfl
    have hlength : proxies'.length = proxies.length := by
      simpa using congrArg List.length hfuncs
    have hdrop : proxies'.drop (n + 1) = proxies.drop (n + 1) := by
      rw [hp]
      split_ifs
      · exact List.drop_modify_of_lt _ _ _ _ (Nat.lt_succ_self n)
      · rfl
    -- What has been done of the list now begins with the proxy at `n`.
    have hlt : n < proxies.length := hle
    have hlt' : n < proxies'.length := hlength ▸ hlt
    have hsame : (proxies[n]?).any (·.func == func) = (proxies'[n].func == func) := by
      have hfunc := congrArg (·[n]?) hfuncs
      simp only [List.getElem?_map, List.getElem?_eq_getElem hlt, List.getElem?_eq_getElem hlt',
        Option.map_some, Option.some.injEq] at hfunc
      rw [List.getElem?_eq_getElem hlt, Option.any_some, hfunc]
    have hcons : proxies'.drop n = proxies'[n] :: proxies.drop (n + 1) := by
      rw [List.drop_eq_getElem_cons hlt', hdrop]
    have hdeleted : ((proxies.drop (n + 1)).any (·.func == func) ||
        (proxies[n]?).any (·.func == func)) = (proxies'.drop n).any (·.func == func) := by
      rw [hcons, List.any_cons, hsame, Bool.or_comm]
    have henabled : ((proxies.drop (n + 1)).any (·.enabled) || (proxies'[n]?).any (·.enabled)) =
        (proxies'.drop n).any (·.enabled) := by
      rw [hcons, List.any_cons, List.getElem?_eq_getElem hlt', Option.any_some, Bool.or_comm]
    have hdone' : (proxies'.drop n).any (·.func == func) = true →
        setEnabled func false proxies' = proxies' := by
      rw [← hdeleted, Bool.or_eq_true, hoff]
      by_cases hf : (proxies[n]?).any (·.func == func) = true
      · intro _
        rw [hp, if_pos hf, modify_eq_setEnabled hnodup hf]
      · rintro (hany | hany)
        · rw [hp, if_neg hf, hdone hany]
        · exact absurd hany hf
    have hany : proxies'.any (·.func == func) = proxies.any (·.func == func) := by
      have hmap := congrArg (List.any · (· == func)) hfuncs
      rwa [List.any_map, List.any_map] at hmap
    rw [Hub.delProxyLoop, ← hp, hdeleted, henabled]
    split_ifs with hstop
    · obtain ⟨hd, he⟩ := Bool.and_eq_true_iff.mp hstop
      have hall := hdone' hd
      rw [hoff] at hall
      rw [hall, ← hany, hd, he, any_of_drop hd, any_of_drop he]
    · rw [ih (hfuncs ▸ hnodup) (Nat.le_of_lt hlt') hdone', hany, hoff]

end

namespace Hub

variable {hub hub' : Hub} {func : BitVec 64} {malloc haveEnabledProxy : Bool} {r : ℤ}

/-- The hub calls the function. -/
def Enables (hub : Hub) (func : BitVec 64) : Prop := ⟨func, true⟩ ∈ hub.proxies

theorem exists_enables : (∃ func, hub.Enables func) ↔ hub.proxies.any (·.enabled) = true := by
  rw [List.any_eq_true]
  constructor
  · rintro ⟨func, hfunc⟩
    exact ⟨_, hfunc, rfl⟩
  · rintro ⟨⟨func, enabled⟩, hproxy, henabled⟩
    obtain rfl : enabled = true := henabled
    exact ⟨func, hproxy⟩

/-- A hub that has got a proxy. -/
structure Added (hub : Hub) (func : BitVec 64) (hub' : Hub) : Prop where
  new : ¬ hub.Enables func
  enables : ∀ g, hub'.Enables g ↔ g = func ∨ hub.Enables g
  origAddr : hub'.origAddr = hub.origAddr
  nodup : hub'.funcs.Nodup

theorem addProxy_cases (hnodup : hub.funcs.Nodup) (hadd : hub.addProxy func malloc = (r, hub')) :
    (r = SHADOWHOOK_ERRNO_HOOK_DUP ∧ hub.Enables func ∧ hub' = hub) ∨
      (r = SHADOWHOOK_ERRNO_OOM ∧ ¬ hub.Enables func ∧ hub' = hub) ∨
      (r = 0 ∧ hub.Added func hub') := by
  have hgrows : hub.Grows hub' := by
    have h : hub.Grows (hub.addProxy func malloc).2 := grows_addProxy malloc
    rwa [hadd] at h
  have hnodup' : hub'.funcs.Nodup := by
    have h : (hub.addProxy func malloc).2.funcs.Nodup := nodup_addProxy hnodup
    rwa [hadd] at h
  have hdup : (findBelow hub.proxies (fun proxy => proxy.enabled && proxy.func == func)
      hub.proxies.length).isSome = true ↔ hub.Enables func := by
    rw [Option.isSome_iff_ne_none, Ne, findBelow_eq_none]
    push Not
    constructor
    · rintro ⟨⟨f, enabled⟩, hproxy, hp⟩
      obtain ⟨rfl, rfl⟩ : enabled = true ∧ f = func := by simpa using hp
      exact hproxy
    · exact fun h => ⟨_, h, by simp⟩
  rw [addProxy] at hadd
  split at hadd
  next h =>
    obtain ⟨rfl, rfl⟩ := Prod.mk.inj hadd
    exact .inl ⟨rfl, hdup.mp h, rfl⟩
  next h =>
  have hnew : ¬ hub.Enables func := fun hen => h (hdup.mpr hen)
  cases hfind : findBelow hub.proxies (·.func == func) hub.proxies.length with
  | some n =>
    rw [hfind] at hadd
    obtain ⟨rfl, rfl⟩ := Prod.mk.inj hadd
    have hn := (lt_of_findBelow hfind).2
    refine .inr (.inr ⟨rfl, hnew, fun g => ?_, hgrows.origAddr, hnodup'⟩)
    rw [Enables, modify_eq_setEnabled hnodup hn, mem_setEnabled]
    obtain ⟨proxy, hproxy, hf⟩ := (Option.any_eq_true ..).mp hn
    have hlisted : func ∈ hub.proxies.map (·.func) :=
      List.mem_map.mpr ⟨proxy, List.mem_of_getElem? hproxy, by simpa using hf⟩
    split_ifs with hg
    · exact ⟨fun _ => .inl hg, fun _ => ⟨rfl, hlisted⟩⟩
    · exact ⟨.inr, fun h => h.resolve_left hg⟩
  | none =>
    rw [hfind] at hadd
    cases malloc with
    | false =>
      obtain ⟨rfl, rfl⟩ := Prod.mk.inj hadd
      exact .inr (.inl ⟨rfl, hnew, rfl⟩)
    | true =>
      obtain ⟨rfl, rfl⟩ := Prod.mk.inj hadd
      refine .inr (.inr ⟨rfl, hnew, fun g => ?_, hgrows.origAddr, hnodup'⟩)
      simp only [Enables, List.mem_append, List.mem_singleton, Proxy.mk.injEq, and_true]
      exact or_comm

/-- A hub that has lost a proxy, if it had it. -/
structure Deleted (hub : Hub) (func : BitVec 64) (r : ℤ) (haveEnabledProxy : Bool) (hub' : Hub) :
    Prop where
  enables : ∀ g, hub'.Enables g ↔ g ≠ func ∧ hub.Enables g
  rest : haveEnabledProxy = true ↔ ∃ g, hub'.Enables g
  missing : r ≠ 0 → ¬ hub.Enables func
  origAddr : hub'.origAddr = hub.origAddr
  nodup : hub'.funcs.Nodup

theorem delProxy_deleted (hnodup : hub.funcs.Nodup)
    (hdel : hub.delProxy func = (r, haveEnabledProxy, hub')) :
    hub.Deleted func r haveEnabledProxy hub' := by
  have hloop := @delProxyLoop_eq hub.proxies func _ hnodup (Nat.le_refl hub.proxies.length)
    (by rw [List.drop_length]; exact fun h => absurd h Bool.false_ne_true)
  rw [List.drop_length] at hloop
  rw [delProxy, show delProxyLoop func false false hub.proxies hub.proxies.length = _ from hloop]
    at hdel
  dsimp only at hdel
  obtain ⟨hr, hrest⟩ := Prod.mk.inj hdel
  obtain ⟨hhave, hhub⟩ := Prod.mk.inj hrest
  subst hr hhave hhub
  refine ⟨fun g => ?_, ?_, fun hr hen => hr (if_pos ?_), rfl, ?_⟩
  · rw [Enables, mem_setEnabled]
    split_ifs with hg
    · exact ⟨fun h => h.1.elim, fun h => absurd hg h.1⟩
    · exact ⟨fun h => ⟨hg, h⟩, fun h => h.2⟩
  · exact (@exists_enables ⟨setEnabled func false hub.proxies, hub.origAddr⟩).symm
  · exact List.any_eq_true.mpr ⟨_, hen, by simp⟩
  · rw [funcs, map_func_setEnabled]
    exact hnodup

end Hub

end NativeLib.ShadowHook
