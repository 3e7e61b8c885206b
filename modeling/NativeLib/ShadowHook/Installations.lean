import NativeLib.ShadowHook.Placement

/-! The allocators keep what the hooks of a process ask for. -/

namespace NativeLib.ShadowHook

open Arm64

/-- The text and the gaps of the libraries: they have nothing in common, and the first page of
memory is part of neither. -/
structure World (text gaps : Set (BitVec 64)) : Prop where
  text : ∀ b ∈ text, b ∉ gaps ∧ SH_TRAMPO_PAGE_SZ ≤ b.toNat
  gaps : ∀ b ∈ gaps, SH_TRAMPO_PAGE_SZ ≤ b.toNat

/-- The number is in a block. -/
def InBlock (size a n : ℕ) : Prop := a ≤ n ∧ n < a + size

/-- The byte is one of an exit in a gap. -/
def Switch.InGap (switch : Switch) (b : BitVec 64) : Prop :=
  switch.inst.exitAddr ≠ 0 ∧ switch.inst.exitType = .inLibrary ∧ Spans switch.inst.exitAddr 16 b

/-- A patch on a function of the text has its enter and its exit from the allocators, unless the
exit is in a gap. -/
structure Held (text gaps : Set (BitVec 64)) (pastEnters pastExits : List TrampoEvent)
    (switch : Switch) : Prop where
  head : ∀ b, switch.Head b → b ∈ text
  enter : switch.inst.enterAddr.toNat ∈ live pastEnters
  exit : switch.inst.exitAddr ≠ 0 → switch.inst.exitType = .outLibrary →
    switch.inst.exitAddr.toNat ∈ live pastExits
  gap : ∀ b, switch.InGap b → b ∈ gaps

namespace System

/-- What holds of a process and its allocators at all times. -/
structure Sound (text gaps : Set (BitVec 64)) (pastEnters pastExits : List TrampoEvent)
    (s : System) : Prop where
  process : s.process.Sound
  enters : TrampoRun SH_ENTER_SZ SH_ENTER_DELAY_SEC pastEnters s.enters
  exits : TrampoRun SH_EXIT_SZ SH_EXIT_DELAY_SEC pastExits s.exits
  placed : Placed text gaps s.enters s.exits
  held : ∀ switch ∈ s.process.patches, Held text gaps pastEnters pastExits switch

/-- What is asked of a hook: that the function is part of the text and does not overlap a patched
one, that `mmap` hands out what nothing is in, and that an exit in a gap lies apart from the others
there. -/
structure Fit (text gaps : Set (BitVec 64)) (s : System) (targetAddr : BitVec 64) (ssize : ℕ)
    (env : HookEnv) : Prop where
  pos : 0 < targetAddr.toNat
  aligned : targetAddr.toNat % 4 = 0
  noWrap : targetAddr.toNat + 16 < 2 ^ 64
  head : ∀ b, Spans targetAddr (min ssize 16) b → b ∈ text
  apart : ∀ switch ∈ s.process.patches, ∀ b, Spans targetAddr (min ssize 16) b → ¬ switch.Head b
  enter : Mapped text gaps s.enters s.exits env.enter
  exit : Mapped text gaps (s.enterAlloc env).2.1 s.exits env.exit
  failed : ∀ r, env.gap = .inl r → r ≠ 0
  gap : ∀ a, env.gap = .inr a → a ≠ 0 ∧ InReach targetAddr a ∧ ∀ b, Spans a 16 b →
    b ∈ gaps ∧ ∀ switch ∈ s.process.patches, ¬ switch.InGap b
  gapBytes : ∀ cell ∈ env.gapBytes,
    cell.1 ∈ gaps ∧ ∀ switch ∈ s.process.patches, ¬ switch.InGap cell.1

end System

/-! One allocator. -/

section

variable {mgr mgr' : TrampoMgr} {past : List TrampoEvent} {call : TrampoCall}
  {ans : TrampoAnswers} {result : TrampoResult} {cleared : ℕ × ℕ} {cur n : ℕ} {b : BitVec 64}

/-- A block is in one of the pages after the call. -/
theorem Tracks.block_inPage (h : Tracks mgr past) (hfresh : mgr.Fresh ans)
    (halloc : mgr.alloc call ans = (.ok cur, mgr', cleared)) :
    ∃ ptr ∈ mgr'.starts, ptr ≤ cur ∧ cur + mgr.trampoSize ≤ ptr + SH_TRAMPO_PAGE_SZ ∧
      mgr.trampoSize ∣ cur - ptr := by
  have hspec := TrampoMgr.allocated_of_ok h.fits hfresh halloc
  have hin := (h.alloc hfresh halloc).inPage
    (show cur ∈ ShadowHook.live (.alloc cur :: past) from List.mem_cons_self)
  rwa [hspec.size] at hin

/-- What is cleared is in a page, and nothing that is in use. -/
theorem Tracks.cleared_inPage (h : Tracks mgr past) (hfresh : mgr.Fresh ans)
    (halloc : mgr.alloc call ans = (result, mgr', cleared)) (hn : cleared.1 ≤ n)
    (hn' : n < cleared.1 + cleared.2) :
    (∃ ptr, (ptr ∈ mgr.starts ∨ ans.mmap = some ptr) ∧ InPage ptr n) ∧
      ∀ a ∈ ShadowHook.live past, ¬ InBlock mgr.trampoSize a n := by
  obtain ⟨hstarts, hcleared⟩ := TrampoMgr.starts_alloc halloc
  rcases hcleared with hnone | ⟨cur, rfl, rfl⟩ | ⟨ptr, hmmap, rfl⟩
  · omega
  · obtain ⟨ptr, hptr, hle, hend, -⟩ := h.block_inPage hfresh halloc
    refine ⟨⟨ptr, ?_, ?_⟩, fun a ha hin => ?_⟩
    · rcases hstarts with hsame | ⟨ptr', hmmap, hnew⟩
      · exact .inl (hsame ▸ hptr)
      · rw [hnew] at hptr
        exact (List.mem_cons.mp hptr).symm.imp id fun he : ptr = ptr' => he ▸ hmmap
    · unfold InPage
      omega
    · have hlie := h.apart_new hfresh halloc ha
      unfold InBlock at hin
      omega
  · refine ⟨⟨ptr, .inr hmmap, hn, hn'⟩, fun a ha hin => ?_⟩
    have hlie := h.apart_page hfresh hmmap ha
    unfold InBlock at hin
    omega

theorem mem_zeros {range : ℕ × ℕ} {cell : BitVec 64 × BitVec 8} (h : cell ∈ zeros range)
    (hend : range.1 + range.2 ≤ 2 ^ 64) :
    range.1 ≤ cell.1.toNat ∧ cell.1.toNat < range.1 + range.2 := by
  obtain ⟨i, hi, rfl⟩ := List.mem_map.mp h
  have hi' := List.mem_range.mp hi
  rw [BitVec.toNat_ofNat, Nat.mod_eq_of_lt (by omega)]
  omega

/-- What is cleared does not run over the end of memory. -/
theorem Tracks.cleared_end (h : Tracks mgr past) (hfresh : mgr.Fresh ans)
    (halloc : mgr.alloc call ans = (result, mgr', cleared))
    (hbound : ∀ ptr, ptr ∈ mgr.starts ∨ ans.mmap = some ptr → ptr + SH_TRAMPO_PAGE_SZ ≤ 2 ^ 64)
    (hpos : 0 < cleared.2) : cleared.1 + cleared.2 ≤ 2 ^ 64 := by
  obtain ⟨⟨ptr, hptr, hin⟩, -⟩ := h.cleared_inPage hfresh halloc
    (show cleared.1 ≤ cleared.1 + cleared.2 - 1 by omega) (by omega)
  have hend := hbound ptr hptr
  unfold InPage at hin
  omega

end

/-! One hook. -/

variable {text gaps : Set (BitVec 64)} {pastEnters pastExits : List TrampoEvent} {s : System}
  {targetAddr newAddr b : BitVec 64} {ssize : ℕ} {env : HookEnv} {switch : Switch}

namespace System

/-- A page of enters that is there, or that may be added. -/
def EnterPage (s : System) (env : HookEnv) (ptr : ℕ) : Prop :=
  ptr ∈ s.enters.starts ∨ env.enter.mmap = some ptr

/-- A page of exits, likewise. -/
def ExitPage (s : System) (env : HookEnv) (ptr : ℕ) : Prop :=
  ptr ∈ s.exits.starts ∨ env.exit.mmap = some ptr

theorem Sound.enterPage (h : s.Sound text gaps pastEnters pastExits)
    (hfit : s.Fit text gaps targetAddr ssize env) {ptr : ℕ} (hptr : s.EnterPage env ptr) :
    (SH_TRAMPO_PAGE_SZ ≤ ptr ∧ ptr % 4 = 0 ∧ ptr + SH_TRAMPO_PAGE_SZ ≤ 2 ^ 64) ∧
      (∀ b : BitVec 64, InPage ptr b.toNat → b ∉ text ∧ b ∉ gaps) ∧
      ∀ ptr' ∈ s.exits.starts, ∀ n, InPage ptr n → ¬ InPage ptr' n := by
  rcases hptr with hptr | hmmap
  · have hmem := List.mem_append_left s.exits.starts hptr
    exact ⟨h.placed.bound ptr hmem, h.placed.other ptr hmem, h.placed.apart ptr hptr⟩
  · obtain ⟨hpos, halign, hend, hother, hapart⟩ := hfit.enter ptr hmmap
    exact ⟨⟨hpos, halign, hend⟩, hother,
      fun ptr' hptr' => hapart ptr' (List.mem_append_right _ hptr')⟩

/-- The pages of enters after the call. -/
theorem enterPage_of_starts {enter : TrampoResult} {enters' : TrampoMgr} {cleared : ℕ × ℕ}
    (henter : s.enterAlloc env = (enter, enters', cleared)) {ptr : ℕ} :
    (ptr ∈ s.enters.starts → ptr ∈ enters'.starts) ∧
      (ptr ∈ enters'.starts → s.EnterPage env ptr) := by
  rcases (TrampoMgr.starts_alloc henter).1 with hsame | ⟨ptr', hmmap, hnew⟩
  · rw [hsame]
    exact ⟨id, .inl⟩
  · rw [hnew, List.mem_cons]
    exact ⟨.inr, fun hptr => hptr.elim (fun he => .inr (he ▸ hmmap)) .inl⟩

theorem Sound.exitPage {enter : TrampoResult} {enters' : TrampoMgr} {cleared : ℕ × ℕ}
    (h : s.Sound text gaps pastEnters pastExits)
    (hfit : s.Fit text gaps targetAddr ssize env)
    (henter : s.enterAlloc env = (enter, enters', cleared)) {ptr : ℕ}
    (hptr : s.ExitPage env ptr) :
    (SH_TRAMPO_PAGE_SZ ≤ ptr ∧ ptr % 4 = 0 ∧ ptr + SH_TRAMPO_PAGE_SZ ≤ 2 ^ 64) ∧
      (∀ b : BitVec 64, InPage ptr b.toNat → b ∉ text ∧ b ∉ gaps) ∧
      ∀ ptr' ∈ enters'.starts, ∀ n, InPage ptr n → ¬ InPage ptr' n := by
  have hplaced := h.placed.enters_alloc hfit.enter henter
  rcases hptr with hptr | hmmap
  · have hmem := List.mem_append_right enters'.starts hptr
    exact ⟨hplaced.bound ptr hmem, hplaced.other ptr hmem,
      fun ptr' hptr' n hn hn' => hplaced.apart ptr' hptr' ptr hptr n hn' hn⟩
  · have hexit := hfit.exit
    rw [henter] at hexit
    obtain ⟨hpos, halign, hend, hother, hapart⟩ := hexit ptr hmmap
    exact ⟨⟨hpos, halign, hend⟩, hother,
      fun ptr' hptr' => hapart ptr' (List.mem_append_left _ hptr')⟩

theorem Sound.tracks_enters (h : s.Sound text gaps pastEnters pastExits) :
    Tracks s.enters pastEnters ∧ s.enters.trampoSize = 256 :=
  ⟨(h.enters.tracks (by decide)).1, (h.enters.tracks (by decide)).2.1⟩

theorem Sound.tracks_exits (h : s.Sound text gaps pastEnters pastExits) :
    Tracks s.exits pastExits ∧ s.exits.trampoSize = 16 :=
  ⟨(h.exits.tracks (by decide)).1, (h.exits.tracks (by decide)).2.1⟩

/-- A byte that a hook may write to without harm. -/
inductive Spare (s : System) (env : HookEnv) (gaps : Set (BitVec 64))
    (pastEnters pastExits : List TrampoEvent) (b : BitVec 64) : Prop
  | enter {ptr : ℕ} (hptr : s.EnterPage env ptr) (hin : InPage ptr b.toNat)
      (hfree : ∀ a ∈ live pastEnters, ¬ InBlock 256 a b.toNat)
  | exit {ptr : ℕ} (hptr : s.ExitPage env ptr) (hin : InPage ptr b.toNat)
      (hfree : ∀ a ∈ live pastExits, ¬ InBlock 16 a b.toNat)
  | gap (hgap : b ∈ gaps) (hfree : ∀ switch ∈ s.process.patches, ¬ switch.InGap b)
  | none (hlow : b.toNat < SH_TRAMPO_PAGE_SZ)

variable {enter exit : TrampoResult} {enters' exits' : TrampoMgr}
  {enterCleared exitCleared : ℕ × ℕ}

theorem Spare.not_text (h : s.Sound text gaps pastEnters pastExits) (hworld : World text gaps)
    (hfit : s.Fit text gaps targetAddr ssize env)
    (henter : s.enterAlloc env = (enter, enters', enterCleared))
    (hb : s.Spare env gaps pastEnters pastExits b) : b ∉ text := by
  intro htext
  obtain ⟨hgap, hlow⟩ := hworld.text b htext
  cases hb with
  | enter hptr hin hfree => exact ((h.enterPage hfit hptr).2.1 b hin).1 htext
  | exit hptr hin hfree => exact ((h.exitPage hfit henter hptr).2.1 b hin).1 htext
  | gap hmem hfree => exact hgap hmem
  | none hlow' => omega

/-- Where a byte of a patch is. -/
theorem Sound.region (h : s.Sound text gaps pastEnters pastExits) (hs : switch ∈ s.process.patches)
    (hb : switch.Region b) :
    (b ∈ text ∧ switch.Head b) ∨
      (∃ ptr ∈ s.enters.starts, InPage ptr b.toNat ∧
        ∃ a ∈ live pastEnters, InBlock 256 a b.toNat) ∨
      (∃ ptr ∈ s.exits.starts, InPage ptr b.toNat ∧
        ∃ a ∈ live pastExits, InBlock 16 a b.toNat) ∨ b ∈ gaps ∧ switch.InGap b := by
  have hheld := h.held switch hs
  rcases hb with hhead | henter | ⟨hne, hexit⟩
  · exact .inl ⟨hheld.head b hhead, hhead⟩
  · obtain ⟨htracks, hsize⟩ := h.tracks_enters
    obtain ⟨ptr, hptr, hle, hend, -⟩ := htracks.inPage hheld.enter
    have hbound := h.placed.bound ptr (List.mem_append_left _ hptr)
    have hblock := (spans_iff_toNat (by omega)).mp henter
    exact .inr (.inl ⟨ptr, hptr, ⟨by omega, by omega⟩, _, hheld.enter, hblock⟩)
  · cases htype : switch.inst.exitType with
    | outLibrary =>
      obtain ⟨htracks, hsize⟩ := h.tracks_exits
      have hlive := hheld.exit hne htype
      obtain ⟨ptr, hptr, hle, hend, -⟩ := htracks.inPage hlive
      have hbound := h.placed.bound ptr (List.mem_append_right _ hptr)
      have hblock := (spans_iff_toNat (by omega)).mp hexit
      exact .inr (.inr (.inl ⟨ptr, hptr, ⟨by omega, by omega⟩, _, hlive, hblock⟩))
    | inLibrary => exact .inr (.inr (.inr ⟨hheld.gap b ⟨hne, htype, hexit⟩, hne, htype, hexit⟩))

/-- No byte of a patch is spare. -/
theorem Spare.not_region (h : s.Sound text gaps pastEnters pastExits) (hworld : World text gaps)
    (hfit : s.Fit text gaps targetAddr ssize env)
    (henter : s.enterAlloc env = (enter, enters', enterCleared))
    (hb : s.Spare env gaps pastEnters pastExits b) (hs : switch ∈ s.process.patches) :
    ¬ switch.Region b := by
  intro hregion
  rcases h.region hs hregion with ⟨htext, -⟩ | ⟨ptr, hptr, hin, a, ha, hblock⟩ |
    ⟨ptr, hptr, hin, a, ha, hblock⟩ | ⟨hgap, hingap⟩
  · exact hb.not_text h hworld hfit henter htext
  · cases hb with
    | enter hptr' hin' hfree => exact hfree a ha hblock
    | exit hptr' hin' hfree =>
      exact (h.exitPage hfit henter hptr').2.2 ptr ((enterPage_of_starts henter).1 hptr) _ hin' hin
    | gap hmem hfree => exact ((h.enterPage hfit (.inl hptr)).2.1 b hin).2 hmem
    | none hlow =>
      have hpos := (h.enterPage hfit (.inl hptr)).1.1
      unfold InPage at hin
      omega
  · cases hb with
    | enter hptr' hin' hfree => exact (h.enterPage hfit hptr').2.2 ptr hptr _ hin' hin
    | exit hptr' hin' hfree => exact hfree a ha hblock
    | gap hmem hfree => exact ((h.exitPage hfit henter (.inl hptr)).2.1 b hin).2 hmem
    | none hlow =>
      have hpos := (h.exitPage hfit henter (.inl hptr)).1.1
      unfold InPage at hin
      omega
  · cases hb with
    | enter hptr hin hfree => exact ((h.enterPage hfit hptr).2.1 b hin).2 hgap
    | exit hptr hin hfree => exact ((h.exitPage hfit henter hptr).2.1 b hin).2 hgap
    | gap hmem hfree => exact hfree switch hs hingap
    | none hlow =>
      have hpos := hworld.gaps b hgap
      omega

/-- A block as bytes of memory. -/
theorem spans_block {cur size : ℕ} (hend : cur + size ≤ 2 ^ 64) (hsize : 0 < size) :
    Spans (BitVec.ofNat 64 cur) size b ↔ InBlock size cur b.toNat := by
  have hcur : (BitVec.ofNat 64 cur).toNat = cur := by
    rw [BitVec.toNat_ofNat, Nat.mod_eq_of_lt (by omega)]
  rw [spans_iff_toNat (by rw [hcur]; exact hend), hcur]
  rfl

/-- The enter of a hook. -/
theorem Sound.enter_block (h : s.Sound text gaps pastEnters pastExits)
    (hfit : s.Fit text gaps targetAddr ssize env) {cur : ℕ}
    (henter : s.enterAlloc env = (.ok cur, enters', enterCleared)) :
    ∃ ptr ∈ enters'.starts, SH_TRAMPO_PAGE_SZ ≤ ptr ∧ ptr ≤ cur ∧
      cur + 256 ≤ ptr + SH_TRAMPO_PAGE_SZ ∧ ptr + SH_TRAMPO_PAGE_SZ ≤ 2 ^ 64 ∧
      ∀ a ∈ live pastEnters, cur + 256 ≤ a ∨ a + 256 ≤ cur := by
  obtain ⟨htracks, hsize⟩ := h.tracks_enters
  have hfresh := hfit.enter.fresh_enters
  obtain ⟨ptr, hptr, hle, hend, -⟩ := htracks.block_inPage hfresh henter
  have hbound := (h.enterPage hfit ((enterPage_of_starts henter).2 hptr)).1
  have hapart := fun a ha => htracks.apart_new hfresh henter (a := a) ha
  rw [hsize] at hend hapart
  exact ⟨ptr, hptr, hbound.1, hle, hend, hbound.2.2, hapart⟩

/-- The exit of a hook, if it is not in a gap. -/
theorem Sound.exit_block (h : s.Sound text gaps pastEnters pastExits)
    (hfit : s.Fit text gaps targetAddr ssize env)
    (henter : s.enterAlloc env = (enter, enters', enterCleared)) {cur : ℕ}
    (hexit : s.exitAllocOutLibrary targetAddr env = (.ok cur, exits', exitCleared)) :
    ∃ ptr, s.ExitPage env ptr ∧ SH_TRAMPO_PAGE_SZ ≤ ptr ∧ ptr ≤ cur ∧
      cur + 16 ≤ ptr + SH_TRAMPO_PAGE_SZ ∧ ptr + SH_TRAMPO_PAGE_SZ ≤ 2 ^ 64 ∧ cur % 4 = 0 ∧
      ∀ a ∈ live pastExits, cur + 16 ≤ a ∨ a + 16 ≤ cur := by
  obtain ⟨htracks, hsize⟩ := h.tracks_exits
  have hmapped : Mapped text gaps enters' s.exits env.exit := by
    have hexit' := hfit.exit
    rwa [henter] at hexit'
  have hfresh := hmapped.fresh_exits
  obtain ⟨ptr, hptr, hle, hend, hdvd⟩ := htracks.block_inPage hfresh hexit
  have hpage : s.ExitPage env ptr := by
    rcases (TrampoMgr.starts_alloc hexit).1 with hsame | ⟨ptr', hmmap, hnew⟩
    · exact .inl (hsame ▸ hptr)
    · rw [hnew, List.mem_cons] at hptr
      exact hptr.elim (fun he => .inr (he ▸ hmmap)) .inl
  have hbound := (h.exitPage hfit henter hpage).1
  have hapart := fun a ha => htracks.apart_new hfresh hexit (a := a) ha
  rw [hsize] at hend hapart hdvd
  exact ⟨ptr, hpage, hbound.1, hle, hend, hbound.2.2, by omega, hapart⟩

/-- What a hook writes to is spare, but for the head of the function. -/
theorem Sound.spare (h : s.Sound text gaps pastEnters pastExits)
    (hfit : s.Fit text gaps targetAddr ssize env)
    (henter : s.enterAlloc env = (enter, enters', enterCleared))
    (hexit : s.exitAllocOutLibrary targetAddr env = (exit, exits', exitCleared))
    (hb : (s.answers targetAddr env).Private b) :
    s.Spare env gaps pastEnters pastExits b := by
  obtain ⟨htracks, hsize⟩ := h.tracks_enters
  obtain ⟨htracks', hsize'⟩ := h.tracks_exits
  have hmapped : Mapped text gaps enters' s.exits env.exit := by
    have hexit' := hfit.exit
    rwa [henter] at hexit'
  rw [answers, henter, hexit] at hb
  rcases hb with hin | ⟨exitAddr, haddr, hin⟩ | ⟨cell, hcell, rfl⟩
  · cases enter with
    | ok cur =>
      obtain ⟨ptr, hptr, hpos, hle, hend, hbound, hapart⟩ := h.enter_block hfit henter
      have hblock := (spans_block (by omega) (by decide)).mp hin
      unfold InBlock at hblock
      refine .enter ((enterPage_of_starts henter).2 hptr) ⟨by omega, by omega⟩ fun a ha hin' => ?_
      have hlie := hapart a ha
      unfold InBlock at hin'
      omega
    | failed | aborted =>
      refine .none ?_
      have hlow := (spans_iff_toNat (show (0 : BitVec 64).toNat + 256 ≤ 2 ^ 64 by decide)).mp hin
      exact Nat.lt_trans hlow.2 (by decide)
  · cases exit with
    | ok cur =>
      obtain rfl : BitVec.ofNat 64 cur = exitAddr := Option.some.inj haddr
      obtain ⟨ptr, hptr, hpos, hle, hend, hbound, -, hapart⟩ := h.exit_block hfit henter hexit
      have hblock := (spans_block (by omega) (by decide)).mp hin
      unfold InBlock at hblock
      refine .exit hptr ⟨by omega, by omega⟩ fun a ha hin' => ?_
      have hlie := hapart a ha
      unfold InBlock at hin'
      omega
    | failed | aborted =>
      cases hgap : env.gap with
      | inl r =>
        simp only [HookAnswers.exitAddr?, hgap] at haddr
        exact absurd haddr (by simp)
      | inr a =>
        simp only [HookAnswers.exitAddr?, hgap] at haddr
        obtain rfl : a = exitAddr := Option.some.inj haddr
        obtain ⟨hmem, hfree⟩ := (hfit.gap a hgap).2.2 b hin
        exact .gap hmem hfree
  · have hzeros : ∀ cell ∈ zeros enterCleared, s.Spare env gaps pastEnters pastExits cell.1 := by
      intro cell hcell
      have hfresh := hfit.enter.fresh_enters
      have hpos : 0 < enterCleared.2 := by
        obtain ⟨i, hi, -⟩ := List.mem_map.mp hcell
        exact Nat.lt_of_le_of_lt (Nat.zero_le i) (List.mem_range.mp hi)
      have hend := htracks.cleared_end hfresh henter
        (fun ptr hptr => (h.enterPage hfit hptr).1.2.2) hpos
      obtain ⟨hlow, hhigh⟩ := mem_zeros hcell hend
      obtain ⟨⟨ptr, hptr, hin⟩, hfree⟩ := htracks.cleared_inPage hfresh henter hlow hhigh
      exact .enter hptr hin fun a ha => hsize ▸ hfree a ha
    have hzeros' : ∀ cell ∈ zeros exitCleared, s.Spare env gaps pastEnters pastExits cell.1 := by
      intro cell hcell
      have hfresh := hmapped.fresh_exits
      have hpos : 0 < exitCleared.2 := by
        obtain ⟨i, hi, -⟩ := List.mem_map.mp hcell
        exact Nat.lt_of_le_of_lt (Nat.zero_le i) (List.mem_range.mp hi)
      have hend := htracks'.cleared_end hfresh hexit
        (fun ptr hptr => (h.exitPage hfit henter hptr).1.2.2) hpos
      obtain ⟨hlow, hhigh⟩ := mem_zeros hcell hend
      obtain ⟨⟨ptr, hptr, hin⟩, hfree⟩ := htracks'.cleared_inPage hfresh hexit hlow hhigh
      exact .exit hptr hin fun a ha => hsize' ▸ hfree a ha
    have hgaps : ∀ cell ∈ env.gapBytes, s.Spare env gaps pastEnters pastExits cell.1 :=
      fun cell hcell => .gap (hfit.gapBytes cell hcell).1 (hfit.gapBytes cell hcell).2
    rcases List.mem_append.mp hcell with hcell | hcell
    · exact hzeros cell hcell
    · cases exit with
      | ok cur => exact hzeros' cell hcell
      | failed | aborted => exact (List.mem_append.mp hcell).elim (hzeros' cell) (hgaps cell)

/-- A place in the range that is asked for is in the reach of a branch. -/
theorem inReach_of_range {cur : ℕ} (hcur : cur < 2 ^ 64) (halign : targetAddr.toNat % 4 = 0)
    (halign' : cur % 4 = 0) (hlow : targetAddr.toNat - SH_INST_A64_B_RANGE_LOW ≤ cur)
    (hhigh : cur ≤ targetAddr.toNat + SH_INST_A64_B_RANGE_HIGH) :
    InReach targetAddr (BitVec.ofNat 64 cur) := by
  have htarget := targetAddr.isLt
  have hnat : (BitVec.ofNat 64 cur).toNat = cur := by
    rw [BitVec.toNat_ofNat, Nat.mod_eq_of_lt hcur]
  unfold SH_INST_A64_B_RANGE_LOW at hlow
  unfold SH_INST_A64_B_RANGE_HIGH at hhigh
  have hsub : (BitVec.ofNat 64 cur - targetAddr).toNat =
      (2 ^ 64 - targetAddr.toNat + cur) % 2 ^ 64 := by
    rw [BitVec.toNat_sub, hnat]
  rw [InReach, BitVec.toInt_eq_toNat_cond, hsub]
  rcases Nat.lt_or_ge cur targetAddr.toNat with hlt | hge
  · rw [Nat.mod_eq_of_lt (show 2 ^ 64 - targetAddr.toNat + cur < 2 ^ 64 by omega)]
    split_ifs <;> omega
  · rw [show 2 ^ 64 - targetAddr.toNat + cur = cur - targetAddr.toNat + 2 ^ 64 by omega,
      Nat.add_mod_right, Nat.mod_eq_of_lt (show cur - targetAddr.toNat < 2 ^ 64 by omega)]
    split_ifs <;> omega

/-- The allocators make room for a hook. -/
theorem Sound.roomy (h : s.Sound text gaps pastEnters pastExits) (hworld : World text gaps)
    (hfit : s.Fit text gaps targetAddr ssize env)
    (henter : s.enterAlloc env = (enter, enters', enterCleared))
    (hexit : s.exitAllocOutLibrary targetAddr env = (exit, exits', exitCleared)) :
    (s.answers targetAddr env).Roomy targetAddr ssize := by
  have hhead : ∀ b, (s.answers targetAddr env).Private b → ¬ Spans targetAddr (min ssize 16) b :=
    fun b hb hs => (h.spare hfit henter hexit hb).not_text h hworld hfit henter (hfit.head b hs)
  refine ⟨fun cell hcell => hhead _ (.inr (.inr ⟨cell, hcell, rfl⟩)),
    fun b hb hs => hhead b (.inl hs) hb, fun r hr => ?_, fun exitAddr haddr => ?_⟩
  · rw [answers, henter, hexit] at hr
    cases exit with
    | ok cur => exact absurd hr (by simp)
    | failed | aborted =>
      cases hgap : env.gap with
      | inl r' =>
        simp only [hgap] at hr
        exact Sum.inl.inj hr ▸ hfit.failed r' hgap
      | inr a =>
        simp only [hgap] at hr
        exact absurd hr (by simp)
  · have hapart : ∀ b, Spans exitAddr 16 b → ¬ Spans targetAddr (min ssize 16) b :=
      fun b hb => hhead b (.inr (.inl ⟨exitAddr, haddr, hb⟩))
    -- The exit is in a page of exits or in a gap, the enter is in neither.
    have henter' : ∀ b, Spans (s.answers targetAddr env).enterAddr 256 b →
        b.toNat < SH_TRAMPO_PAGE_SZ ∨ ∃ ptr ∈ enters'.starts, InPage ptr b.toNat := by
      intro b hb
      rw [answers, henter, hexit] at hb
      cases enter with
      | ok cur =>
        obtain ⟨ptr, hptr, hpos, hle, hend, hbound, -⟩ := h.enter_block hfit henter
        have hblock := (spans_block (by omega) (by decide)).mp hb
        unfold InBlock at hblock
        exact .inr ⟨ptr, hptr, by omega, by omega⟩
      | failed | aborted =>
        have hlow := (spans_iff_toNat (show (0 : BitVec 64).toNat + 256 ≤ 2 ^ 64 by decide)).mp hb
        exact .inl (Nat.lt_trans hlow.2 (by decide))
    rw [answers, henter, hexit] at haddr
    cases exit with
    | ok cur =>
      obtain rfl : BitVec.ofNat 64 cur = exitAddr := Option.some.inj haddr
      obtain ⟨ptr, hptr, hpos, hle, hend, hbound, halign, -⟩ := h.exit_block hfit henter hexit
      have hrange := (TrampoMgr.allocated_of_ok h.tracks_exits.1.fits
        (by have hexit' := hfit.exit; rw [henter] at hexit'; exact hexit'.fresh_exits)
        hexit).range hfit.pos
      refine ⟨fun hzero => ?_, inReach_of_range (by omega) hfit.aligned halign hrange.1 hrange.2,
        fun b hb => ⟨hapart b hb, fun hb' => ?_⟩⟩
      · have hnat := congrArg BitVec.toNat hzero
        rw [BitVec.toNat_ofNat, Nat.mod_eq_of_lt (by omega)] at hnat
        have hpage : 0 < SH_TRAMPO_PAGE_SZ := by decide
        have hnull : cur = 0 := hnat
        omega
      · have hblock := (spans_block (by omega) (by decide)).mp hb
        unfold InBlock at hblock
        have hin : InPage ptr b.toNat := ⟨by omega, by omega⟩
        rcases henter' b hb' with hlow | ⟨ptr', hptr', hin'⟩
        · omega
        · exact (h.exitPage hfit henter hptr).2.2 ptr' hptr' _ hin hin'
    | failed | aborted =>
      cases hgap : env.gap with
      | inl r =>
        simp only [HookAnswers.exitAddr?, hgap] at haddr
        exact absurd haddr (by simp)
      | inr a =>
        simp only [HookAnswers.exitAddr?, hgap] at haddr
        obtain rfl : a = exitAddr := Option.some.inj haddr
        obtain ⟨hne, hreach, hspan⟩ := hfit.gap a hgap
        refine ⟨hne, hreach, fun b hb => ⟨hapart b hb, fun hb' => ?_⟩⟩
        have hmem := (hspan b hb).1
        rcases henter' b hb' with hlow | ⟨ptr, hptr, hin⟩
        · have hpos := hworld.gaps b hmem
          omega
        · exact ((h.enterPage hfit ((enterPage_of_starts henter).2 hptr)).2.1 b hin).2 hmem

/-- What is asked of a hook of the process is what the allocators give. -/
theorem Sound.free (h : s.Sound text gaps pastEnters pastExits) (hworld : World text gaps)
    (hfit : s.Fit text gaps targetAddr ssize env) :
    s.process.Free targetAddr ssize (s.answers targetAddr env) := by
  obtain ⟨enter, enters', enterCleared, henter⟩ : ∃ enter enters' cleared,
    s.enterAlloc env = (enter, enters', cleared) := ⟨_, _, _, rfl⟩
  obtain ⟨exit, exits', exitCleared, hexit⟩ : ∃ exit exits' cleared,
    s.exitAllocOutLibrary targetAddr env = (exit, exits', cleared) := ⟨_, _, _, rfl⟩
  refine ⟨hfit.noWrap, h.roomy hworld hfit henter hexit, fun switch hs b hb => ?_⟩
  have hspare : ∀ b, (s.answers targetAddr env).Private b → ¬ switch.Region b := fun b hb =>
    (h.spare hfit henter hexit hb).not_region h hworld hfit henter hs
  rcases hb with hhead | hprivate
  · have htext := hfit.head b hhead
    intro hregion
    rcases h.region hs hregion with ⟨-, hhead'⟩ | ⟨ptr, hptr, hin, -⟩ | ⟨ptr, hptr, hin, -⟩ |
      ⟨hgap, -⟩
    · exact hfit.apart switch hs b hhead hhead'
    · exact (h.placed.other ptr (List.mem_append_left _ hptr) b hin).1 htext
    · exact (h.placed.other ptr (List.mem_append_right _ hptr) b hin).1 htext
    · exact (hworld.text b htext).1 hgap
  · exact hspare b hprivate

end System

end NativeLib.ShadowHook
