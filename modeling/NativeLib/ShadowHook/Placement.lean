import Mathlib.Data.Set.Insert
import NativeLib.ShadowHook.Detours
import NativeLib.ShadowHook.Systems
import NativeLib.ShadowHook.TrampoRuns

/-! Where the enters and the exits of a process lie: in pages of their own, apart from the text of
the program and from the gaps of its libraries. -/

namespace NativeLib.ShadowHook

open Arm64

/-- The number is an address of the page. -/
def InPage (ptr n : ℕ) : Prop := ptr ≤ n ∧ n < ptr + SH_TRAMPO_PAGE_SZ

namespace TrampoMgr

/-- Where the pages are. -/
def starts (mgr : TrampoMgr) : List ℕ := mgr.pages.map (·.ptr)

variable {mgr mgr' : TrampoMgr} {past : List TrampoEvent} {call : TrampoCall}
  {ans : TrampoAnswers} {result : TrampoResult} {cleared : ℕ × ℕ} {a ptr : ℕ} {now : ℤ}

theorem freeIn_starts (pages : List TrampoPage) :
    (mgr.freeIn now a pages).map (·.ptr) = pages.map (·.ptr) := by
  induction pages with
  | nil => rfl
  | cons page pages ih =>
    by_cases hhas : page.ptr ≤ a ∧ a < page.ptr + SH_TRAMPO_PAGE_SZ
    · rw [freeIn, if_pos hhas]
      rfl
    · rw [freeIn, if_neg hhas, List.map_cons, List.map_cons, ih]

@[simp] theorem starts_free : (mgr.free now a).starts = mgr.starts := freeIn_starts mgr.pages

theorem findUnused_starts {pages pages' : List TrampoPage} {cur : ℕ}
    (h : mgr.findUnused call pages = some (cur, pages')) :
    pages'.map (·.ptr) = pages.map (·.ptr) := by
  obtain ⟨before, page, after, i, rfl, -, -, -, rfl⟩ := findUnused_eq_some h
  simp

/-- What a call does to the pages, and what it clears. -/
theorem starts_alloc (h : mgr.alloc call ans = (result, mgr', cleared)) :
    (mgr'.starts = mgr.starts ∨
      ∃ ptr, ans.mmap = some ptr ∧ mgr'.starts = ptr :: mgr.starts) ∧
    (cleared.2 = 0 ∨ (∃ cur, result = .ok cur ∧ cleared = (cur, mgr.trampoSize)) ∨
      ∃ ptr, ans.mmap = some ptr ∧ cleared = (ptr, SH_TRAMPO_PAGE_SZ)) := by
  rw [alloc] at h
  split at h
  · next cur pages' hfound =>
    obtain ⟨rfl, rfl, rfl⟩ : _ ∧ _ ∧ _ := by simpa using h
    exact ⟨.inl (findUnused_starts hfound), .inr (.inl ⟨cur, rfl, rfl⟩)⟩
  · rw [allocPage] at h
    split at h
    · obtain ⟨rfl, rfl, rfl⟩ : _ ∧ _ ∧ _ := by simpa using h
      exact ⟨.inl rfl, .inl rfl⟩
    · next ptr hmmap =>
      simp only at h
      split_ifs at h
      · obtain ⟨rfl, rfl, rfl⟩ : _ ∧ _ ∧ _ := by simpa using h
        exact ⟨.inl rfl, .inl rfl⟩
      · obtain ⟨rfl, rfl, rfl⟩ : _ ∧ _ ∧ _ := by simpa using h
        exact ⟨.inl rfl, .inl rfl⟩
      · obtain ⟨rfl, rfl, rfl⟩ : _ ∧ _ ∧ _ := by simpa using h
        exact ⟨.inl rfl, .inr (.inr ⟨ptr, hmmap, rfl⟩)⟩
      · split at h
        · obtain ⟨rfl, rfl, rfl⟩ : _ ∧ _ ∧ _ := by simpa using h
          exact ⟨.inr ⟨ptr, hmmap, rfl⟩, .inr (.inr ⟨ptr, hmmap, rfl⟩)⟩
        · split_ifs at h
          · obtain ⟨rfl, rfl, rfl⟩ : _ ∧ _ ∧ _ := by simpa using h
            exact ⟨.inr ⟨ptr, hmmap, rfl⟩, .inr (.inr ⟨ptr, hmmap, rfl⟩)⟩
          · obtain ⟨rfl, rfl, rfl⟩ : _ ∧ _ ∧ _ := by simpa using h
            exact ⟨.inr ⟨ptr, hmmap, rfl⟩, .inr (.inr ⟨ptr, hmmap, rfl⟩)⟩

end TrampoMgr

/-- A block that is in use lies in a page. -/
theorem Tracks.inPage {mgr : TrampoMgr} {past : List TrampoEvent} {a : ℕ} (h : Tracks mgr past)
    (ha : a ∈ ShadowHook.live past) :
    ∃ ptr ∈ mgr.starts, ptr ≤ a ∧ a + mgr.trampoSize ≤ ptr + SH_TRAMPO_PAGE_SZ ∧
      mgr.trampoSize ∣ a - ptr := by
  obtain ⟨t, page, hpage, i, hi, rfl, -, -⟩ := (h.live a).mp ha
  have hend := TrampoMgr.end_le hi
  refine ⟨page.ptr, List.mem_map.mpr ⟨page, hpage, rfl⟩, by omega, by omega, ?_⟩
  rw [Nat.add_sub_cancel_left]
  exact Nat.dvd_mul_right ..

/-- The pages lie apart from each other, from the text and from the gaps, and none is the first
page of memory or runs over the last. -/
structure Placed (text gaps : Set (BitVec 64)) (enters exits : TrampoMgr) : Prop where
  bound : ∀ ptr ∈ enters.starts ++ exits.starts,
    SH_TRAMPO_PAGE_SZ ≤ ptr ∧ ptr % 4 = 0 ∧ ptr + SH_TRAMPO_PAGE_SZ ≤ 2 ^ 64
  other : ∀ ptr ∈ enters.starts ++ exits.starts, ∀ b : BitVec 64, InPage ptr b.toNat →
    b ∉ text ∧ b ∉ gaps
  apart : ∀ ptr ∈ enters.starts, ∀ ptr' ∈ exits.starts, ∀ n, InPage ptr n → ¬ InPage ptr' n

/-- What `mmap` hands out is a page that nothing is in. -/
def Mapped (text gaps : Set (BitVec 64)) (enters exits : TrampoMgr) (ans : TrampoAnswers) :
    Prop :=
  ∀ ptr, ans.mmap = some ptr →
    SH_TRAMPO_PAGE_SZ ≤ ptr ∧ ptr % 4 = 0 ∧ ptr + SH_TRAMPO_PAGE_SZ ≤ 2 ^ 64 ∧
    (∀ b : BitVec 64, InPage ptr b.toNat → b ∉ text ∧ b ∉ gaps) ∧
    ∀ ptr' ∈ enters.starts ++ exits.starts, ∀ n, InPage ptr n → ¬ InPage ptr' n

variable {text gaps : Set (BitVec 64)} {enters exits mgr' : TrampoMgr} {ans : TrampoAnswers}
  {call : TrampoCall} {result : TrampoResult} {cleared : ℕ × ℕ}

theorem Mapped.fresh_enters (h : Mapped text gaps enters exits ans) : enters.Fresh ans := by
  intro ptr hmmap page hpage b hb hb' hhas
  have hmem : page.ptr ∈ enters.starts ++ exits.starts :=
    List.mem_append_left _ (List.mem_map.mpr ⟨page, hpage, rfl⟩)
  exact (h ptr hmmap).2.2.2.2 page.ptr hmem b ⟨hb, hb'⟩ hhas

theorem Mapped.fresh_exits (h : Mapped text gaps enters exits ans) : exits.Fresh ans := by
  intro ptr hmmap page hpage b hb hb' hhas
  have hmem : page.ptr ∈ enters.starts ++ exits.starts :=
    List.mem_append_right _ (List.mem_map.mpr ⟨page, hpage, rfl⟩)
  exact (h ptr hmmap).2.2.2.2 page.ptr hmem b ⟨hb, hb'⟩ hhas

theorem Placed.congr {enters' exits' : TrampoMgr} (h : Placed text gaps enters exits)
    (henters : enters'.starts = enters.starts) (hexits : exits'.starts = exits.starts) :
    Placed text gaps enters' exits' :=
  ⟨by rw [henters, hexits]; exact h.bound, by rw [henters, hexits]; exact h.other,
    by rw [henters, hexits]; exact h.apart⟩

theorem Placed.enters_alloc (h : Placed text gaps enters exits)
    (hmapped : Mapped text gaps enters exits ans)
    (halloc : enters.alloc call ans = (result, mgr', cleared)) : Placed text gaps mgr' exits := by
  rcases (TrampoMgr.starts_alloc halloc).1 with hsame | ⟨ptr, hmmap, hnew⟩
  · exact h.congr hsame rfl
  · obtain ⟨hpos, halign, hend, hother, hapart⟩ := hmapped ptr hmmap
    refine ⟨?_, ?_, ?_⟩ <;> rw [hnew]
    · exact List.forall_mem_cons.mpr ⟨⟨hpos, halign, hend⟩, h.bound⟩
    · exact List.forall_mem_cons.mpr ⟨hother, h.other⟩
    · refine List.forall_mem_cons.mpr ⟨fun ptr' hptr' n hn => ?_, h.apart⟩
      exact hapart ptr' (List.mem_append_right _ hptr') n hn

theorem Placed.exits_alloc (h : Placed text gaps enters exits)
    (hmapped : Mapped text gaps enters exits ans)
    (halloc : exits.alloc call ans = (result, mgr', cleared)) : Placed text gaps enters mgr' := by
  rcases (TrampoMgr.starts_alloc halloc).1 with hsame | ⟨ptr, hmmap, hnew⟩
  · exact h.congr rfl hsame
  · obtain ⟨hpos, halign, hend, hother, hapart⟩ := hmapped ptr hmmap
    refine ⟨fun ptr' hptr' => ?_, fun ptr' hptr' => ?_, fun ptr₁ hptr₁ ptr₂ hptr₂ n hn hn' => ?_⟩
    · rw [hnew, List.mem_append, List.mem_cons] at hptr'
      rcases hptr' with hptr' | rfl | hptr'
      exacts [h.bound ptr' (List.mem_append_left _ hptr'), ⟨hpos, halign, hend⟩,
        h.bound ptr' (List.mem_append_right _ hptr')]
    · rw [hnew, List.mem_append, List.mem_cons] at hptr'
      rcases hptr' with hptr' | rfl | hptr'
      exacts [h.other ptr' (List.mem_append_left _ hptr'), hother,
        h.other ptr' (List.mem_append_right _ hptr')]
    · rw [hnew] at hptr₂
      rcases List.mem_cons.mp hptr₂ with rfl | hptr₂
      · exact hapart ptr₁ (List.mem_append_left _ hptr₁) n hn' hn
      · exact h.apart ptr₁ hptr₁ ptr₂ hptr₂ n hn hn'

end NativeLib.ShadowHook
