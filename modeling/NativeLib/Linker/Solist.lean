import Mathlib.Data.Finset.Basic
import NativeLib.Linker.LinkerHandler
import NativeLib.Memory.Chains

/-! `linker/solist_util.cpp`: the linker's list of loaded libraries, and how libraries are
taken out of it. A loop runs at most `fuel` times; where it would run longer, or a null
pointer is written through, there is no result. -/

namespace NativeLib.Linker

open Memory

/-- The linker's list. `next` and `realpath` are read at a node, `sonext` is `*sonext`. -/
structure Solist where
  initialized : Bool
  solist : Ptr
  sonext : Ptr
  next : Ptr → Ptr
  realpath : Ptr → Option Path

namespace Solist

/-- The loop of `solist_remove_soinfo`: `prev` and `trav` where it ends. -/
def findSoinfo (s : Solist) (si : Ptr) : ℕ → Ptr → Ptr → Option (Ptr × Ptr)
  | 0, _, _ => none
  | fuel + 1, prev, trav =>
      if trav = nullptr then some (prev, trav)
      else if trav = si then some (prev, trav)
      else s.findSoinfo si fuel trav (s.next trav)

/-- `soinfo::next(soinfo *si)`. -/
def setNext (s : Solist) (node si : Ptr) : Solist :=
  { s with next := Function.update s.next node si }

@[simp] theorem setNext_sonext (s : Solist) (node si : Ptr) :
    (s.setNext node si).sonext = s.sonext := rfl

/-- `solist_remove_soinfo`. -/
def solistRemoveSoinfo (fuel : ℕ) (s : Solist) (si : Ptr) : Option (Bool × Solist) := do
  let (prev, trav) ← s.findSoinfo si fuel nullptr s.solist
  if trav = nullptr then some (false, s)
  else if prev = nullptr then none
  else
    let s := s.setNext prev (s.next si)
    some (true, if si = s.sonext then { s with sonext := prev } else s)

/-- `linker_get_solist`, from a node on. -/
def linkerGetSolist (s : Solist) : ℕ → Ptr → Option (List Ptr)
  | 0, _ => none
  | fuel + 1, iter =>
      if iter = nullptr then some []
      else (s.linkerGetSolist fuel (s.next iter)).map (iter :: ·)

/-- `real_path && names.count(real_path)`. -/
def named (s : Solist) (names : Finset Path) (soinfo : Ptr) : Bool :=
  match s.realpath soinfo with
  | none => false
  | some real_path => decide (real_path ∈ names)

/-- One round of the loop of `RemovePathsFromSolist`. -/
def removeNamed (fuel : ℕ) (names : Finset Path) (s : Solist) (soinfo : Ptr) : Option Solist :=
  if s.named names soinfo then (s.solistRemoveSoinfo fuel soinfo).map Prod.snd else some s

/-- `RemovePathsFromSolist`. -/
def removePathsFromSolist (fuel : ℕ) (names : Finset Path) (s : Solist) : Option Solist :=
  if !s.initialized then some s
  else do
    let list ← s.linkerGetSolist fuel s.solist
    list.foldlM (removeNamed fuel names) s

/-- `RemoveFromSoList`. -/
def removeFromSoList (fuel : ℕ) (names : Finset Path) (s : Solist) : Option Solist :=
  s.removePathsFromSolist fuel names

variable {s s' : Solist} {names : Finset Path} {fuel : ℕ}

theorem findSoinfo_eq {si prev trav : Ptr} {pre post : List Ptr}
    (h : Chain s.next nullptr trav (pre ++ si :: post)) (hfuel : pre.length < fuel) :
    s.findSoinfo si fuel prev trav = some (pre.getLast?.getD prev, si) := by
  induction pre generalizing prev trav fuel with
  | nil =>
    obtain ⟨fuel, rfl⟩ := Nat.exists_eq_add_one_of_ne_zero (Nat.ne_of_gt hfuel)
    cases h with
    | cons hp _ => rw [findSoinfo, if_neg hp, if_pos rfl, List.getLast?_nil, Option.getD_none]
  | cons a pre ih =>
    obtain ⟨fuel, rfl⟩ := Nat.exists_eq_add_one_of_ne_zero (Nat.ne_of_gt (Nat.zero_lt_of_lt hfuel))
    have hnodup := h.nodup
    cases h with
    | cons hp h =>
      have hne : a ≠ si := by
        rintro rfl
        exact (List.nodup_cons.mp hnodup).1 (by simp)
      rw [findSoinfo, if_neg hp, if_neg hne, ih h (Nat.lt_of_succ_lt_succ hfuel),
        List.getLast?_cons, Option.getD_some]

theorem linkerGetSolist_eq {iter : Ptr} {nodes : List Ptr}
    (h : Chain s.next nullptr iter nodes) (hfuel : nodes.length < fuel) :
    s.linkerGetSolist fuel iter = some nodes := by
  induction h generalizing fuel with
  | nil =>
    obtain ⟨fuel, rfl⟩ := Nat.exists_eq_add_one_of_ne_zero (Nat.ne_of_gt hfuel)
    rw [linkerGetSolist, if_pos rfl]
  | cons hp _ ih =>
    obtain ⟨fuel, rfl⟩ := Nat.exists_eq_add_one_of_ne_zero (Nat.ne_of_gt (Nat.zero_lt_of_lt hfuel))
    rw [linkerGetSolist, if_neg hp, ih (Nat.lt_of_succ_lt_succ hfuel), Option.map_some]

/-- The list of the linker is `nodes`, and `*sonext` its last node. -/
structure Holds (s : Solist) (nodes : List Ptr) : Prop where
  chain : Chain s.next nullptr s.solist nodes
  last : nodes.getLast? = some s.sonext

/-- A node behind the first one is taken out. -/
theorem solistRemoveSoinfo_eq {init rest : List Ptr} {a x : Ptr}
    (h : s.Holds (init ++ a :: x :: rest)) (hfuel : init.length + 1 < fuel) :
    ∃ s', s.solistRemoveSoinfo fuel x = some (true, s') ∧ s'.Holds (init ++ a :: rest) ∧
      s'.realpath = s.realpath := by
  have hsplit : init ++ a :: x :: rest = (init ++ [a]) ++ x :: rest := by simp
  have hfind : s.findSoinfo x fuel nullptr s.solist = some (a, x) := by
    have hchain := h.chain
    rw [hsplit] at hchain
    rw [findSoinfo_eq hchain (by simpa using hfuel), List.getLast?_concat, Option.getD_some]
  have hne := h.chain.ne_null
  have ha : a ≠ nullptr := hne a (by simp)
  have hx : x ≠ nullptr := hne x (by simp)
  have hlast := h.last
  rw [solistRemoveSoinfo, hfind, Option.bind_eq_bind, Option.bind_some]
  simp only [if_neg hx, if_neg ha]
  by_cases hsonext : x = s.sonext
  · have hrest : rest = [] := by
      by_contra hne
      have hnodup := h.chain.nodup
      rw [hsplit, List.getLast?_append_of_ne_nil _ (List.cons_ne_nil _ _),
        List.getLast?_cons_of_ne_nil hne] at hlast
      rw [hsplit, List.nodup_append, List.nodup_cons] at hnodup
      exact hnodup.2.1.1 (hsonext ▸ List.mem_of_getLast? hlast)
    subst hrest
    refine ⟨_, rfl, ?_, ?_⟩
    · rw [setNext_sonext, if_pos hsonext]
      exact ⟨h.chain.unlink, by simp⟩
    · rw [setNext_sonext, if_pos hsonext]
      rfl
  · have hrest : rest ≠ [] := by
      rintro rfl
      rw [hsplit, List.getLast?_concat] at hlast
      exact hsonext (Option.some_inj.mp hlast)
    refine ⟨_, rfl, ?_, ?_⟩
    · rw [setNext_sonext, if_neg hsonext]
      refine ⟨h.chain.unlink, ?_⟩
      rw [hsplit, List.getLast?_append_of_ne_nil _ (List.cons_ne_nil _ _),
        List.getLast?_cons_of_ne_nil hrest] at hlast
      rw [List.getLast?_append_of_ne_nil _ (List.cons_ne_nil _ _),
        List.getLast?_cons_of_ne_nil hrest, hlast]
      rfl
    · rw [setNext_sonext, if_neg hsonext]
      rfl

theorem named_congr (h : s'.realpath = s.realpath) : s'.named names = s.named names := by
  funext x
  rw [named, named, h]

/-- The loop: `kept` stays, of the rest what is not named. -/
theorem removeNamed_foldlM {kept rest : List Ptr} (hkept : kept ≠ [])
    (h : s.Holds (kept ++ rest)) (hfuel : (kept ++ rest).length < fuel) :
    ∃ s', rest.foldlM (removeNamed fuel names) s = some s' ∧
      s'.Holds (kept ++ rest.filter fun x => !s.named names x) := by
  induction rest generalizing kept s with
  | nil => exact ⟨s, rfl, h⟩
  | cons x rest ih =>
    rw [List.foldlM_cons, removeNamed]
    by_cases hx : s.named names x = true
    · obtain ⟨init, a, rfl⟩ := (List.eq_nil_or_concat' kept).resolve_left hkept
      rw [List.append_assoc, List.singleton_append] at h hfuel
      simp only [List.length_append, List.length_cons] at hfuel
      obtain ⟨s₁, hremove, hholds, hpath⟩ := solistRemoveSoinfo_eq h (by omega : _ < fuel)
      rw [if_pos hx, hremove, Option.map_some, Option.bind_eq_bind, Option.bind_some,
        List.filter_cons_of_neg (by simp [hx]), ← named_congr hpath]
      rw [List.append_cons] at hholds
      refine ih hkept hholds ?_
      simp only [List.length_append, List.length_cons, List.length_nil]
      omega
    · rw [if_neg hx, Option.bind_eq_bind, Option.bind_some,
        List.filter_cons_of_pos (by simp [hx]), List.append_cons]
      rw [List.append_cons] at h hfuel
      exact ih (by simp) h hfuel

/-- Once `initialized`, `RemoveFromSoList` on any list whose first node is not named: it ends, no
null pointer is written through, and the nodes that are not named are left, in their order. -/
theorem removeFromSoList_filters {first : Ptr} {rest : List Ptr}
    (hinit : s.initialized = true) (h : s.Holds (first :: rest))
    (hfirst : s.named names first = false) :
    ∃ n, ∀ fuel ≥ n, ∃ s', removeFromSoList fuel names s = some s' ∧
      s'.Holds ((first :: rest).filter fun x => !s.named names x) := by
  refine ⟨(first :: rest).length + 1, fun fuel hfuel => ?_⟩
  have hlist := linkerGetSolist_eq h.chain hfuel
  obtain ⟨s', hloop, hholds⟩ : ∃ s', rest.foldlM (removeNamed fuel names) s = some s' ∧
      s'.Holds ([first] ++ rest.filter fun x => !s.named names x) :=
    removeNamed_foldlM (List.cons_ne_nil first []) h hfuel
  refine ⟨s', ?_, ?_⟩
  · rw [removeFromSoList, removePathsFromSolist, hinit, Bool.not_true, if_neg (by decide), hlist,
      Option.bind_eq_bind, Option.bind_some, List.foldlM_cons, removeNamed,
      if_neg (by simp [hfirst]), Option.bind_eq_bind, Option.bind_some]
    exact hloop
  · rw [List.filter_cons_of_pos (by simp [hfirst])]
    exact hholds

/-- Four libraries, the second and the last with one name, the third without a name. -/
def fourNodes : Solist where
  initialized := true
  solist := 1
  sonext := 4
  next p := if p < 4 then p + 1 else nullptr
  realpath p :=
    if p = 1 then some "libdl.so".toList
    else if p = 3 then none
    else some "libapp.so".toList

theorem fourNodes_holds : fourNodes.Holds [1, 2, 3, 4] where
  chain := .cons (by decide) (.cons (by decide) (.cons (by decide) (.cons (by decide) .nil)))
  last := rfl

theorem removeFromSoList_filters_fourNodes :
    ∃ n, ∀ fuel ≥ n, ∃ s', removeFromSoList fuel {"libapp.so".toList} fourNodes = some s' ∧
      s'.Holds [1, 3] :=
  removeFromSoList_filters rfl fourNodes_holds (by decide)

/-- The list and `sonext` were found, but `initialized` is false: `somain` or `get_realpath` was
not. -/
def fourNodesUnready : Solist := { fourNodes with initialized := false }

/-- Without `initialized` the named nodes stay. -/
theorem fourNodesUnready_keeps :
    fourNodesUnready.Holds [1, 2, 3, 4] ∧
      fourNodesUnready.named {"libapp.so".toList} 1 = false ∧
      ¬ ∃ n, ∀ fuel ≥ n, ∃ s',
        removeFromSoList fuel {"libapp.so".toList} fourNodesUnready = some s' ∧
          s'.Holds ([1, 2, 3, 4].filter fun x =>
            !fourNodesUnready.named {"libapp.so".toList} x) := by
  refine ⟨⟨fourNodes_holds.chain, rfl⟩, by decide, ?_⟩
  rintro ⟨n, h⟩
  obtain ⟨s', hrun, hholds⟩ := h n (Nat.le_refl n)
  obtain rfl : fourNodesUnready = s' := Option.some.inj hrun
  have hnodes := hholds.chain.unique fourNodes_holds.chain
  exact absurd (congrArg List.length hnodes) (by decide)

end Solist

end NativeLib.Linker
