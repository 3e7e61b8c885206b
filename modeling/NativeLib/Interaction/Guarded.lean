import NativeLib.Collections.Positions
import NativeLib.Interaction.Logic

/-! Programs that look at every answer and give up at the first bad one. They end with 1 when
they give up and with 0 otherwise, so the result tells whether a bad answer came. -/

namespace NativeLib.Interaction

open Collections

variable {C R σ : Type} {env : σ → C → R → σ → Prop} {bad bad' : C → R → Prop}

/-- Every command of the program is followed by a look at its answer. -/
inductive Guarded (bad : C → R → Prop) : Prog C R ℕ → Prop
  | done : Guarded bad (.ret 0)
  | ask {c k} (hbad : ∀ r, bad c r → k r = .ret 1)
      (hgood : ∀ r, ¬ bad c r → Guarded bad (k r)) : Guarded bad (.ask c k)

/-- The result says whether a bad answer came, and it was the last answer. -/
structure Detects (bad : C → R → Prop) (tr : Trace C R) (ret : ℕ) : Prop where
  result : ret ≠ 0 ↔ ∃ x ∈ tr, bad x.1 x.2
  last : AtEach (fun before _ => ∀ x ∈ before, ¬ bad x.1 x.2) tr

theorem Guarded.detects {p : Prog C R ℕ} {s t : σ} {tr : Trace C R} {ret : ℕ}
    (h : Guarded bad p) (he : p.Exec env s tr ret t) : Detects bad tr ret := by
  induction h generalizing s tr with
  | done =>
    obtain ⟨rfl, rfl, rfl⟩ := he
    exact ⟨by simp, atEach_nil _⟩
  | @ask c k hbad hgood ih =>
    obtain ⟨r, u, tr', rfl, hr, hk⟩ := he
    by_cases hb : bad c r
    · rw [hbad r hb] at hk
      obtain ⟨rfl, rfl, rfl⟩ := hk
      exact ⟨by simp [hb], by simp [atEach_singleton]⟩
    · have hd := ih r hb hk
      refine ⟨by simp [hd.result, hb], atEach_cons.mpr ⟨by simp, ?_⟩⟩
      intro pre x post hl y hy
      rcases List.mem_cons.mp hy with rfl | hy
      · exact hb
      · exact hd.last pre x post hl y hy

/-- Of two bad answers in a trace that ends with the first, both are the last one. -/
theorem Detects.eq_of_bad {tr : Trace C R} {ret : ℕ} (h : Detects bad tr ret) {x y : C × R}
    (hx : x ∈ tr) (hxb : bad x.1 x.2) (hy : y ∈ tr) (hyb : bad y.1 y.2) : x = y := by
  obtain ⟨pre, post, rfl⟩ := List.append_of_mem hx
  rw [List.mem_append, List.mem_cons] at hy
  rcases hy with hy | rfl | hy
  · exact absurd hyb (h.last pre x post rfl y hy)
  · rfl
  · obtain ⟨mid, post, rfl⟩ := List.append_of_mem hy
    exact absurd hxb (h.last (pre ++ x :: mid) y post (by simp) x (by simp))

/-- A program that looks for some of the bad answers only detects the bad ones exactly in the
runs whose bad answers it all looks for. -/
theorem Guarded.detects_iff {p : Prog C R ℕ} {s t : σ} {tr : Trace C R} {ret : ℕ}
    (h : Guarded bad' p) (he : p.Exec env s tr ret t)
    (hsub : ∀ x ∈ tr, bad' x.1 x.2 → bad x.1 x.2) :
    Detects bad tr ret ↔ ∀ x ∈ tr, bad x.1 x.2 → bad' x.1 x.2 := by
  have hd := h.detects he
  refine ⟨?_, ?_⟩
  · intro hall x hx hxb
    obtain ⟨y, hy, hyb⟩ := hd.result.mp (hall.result.mpr ⟨x, hx, hxb⟩)
    rw [hall.eq_of_bad hx hxb hy (hsub y hy hyb)]
    exact hyb
  · intro hseen
    have hiff : ∀ x ∈ tr, bad x.1 x.2 ↔ bad' x.1 x.2 := fun x hx => ⟨hseen x hx, hsub x hx⟩
    refine ⟨?_, ?_⟩
    · rw [hd.result]
      exact exists_congr fun x => and_congr_right fun hx => (hiff x hx).symm
    · rintro pre x post rfl y hy hyb
      exact hd.last pre x post rfl y hy (hseen y (List.mem_append_left _ hy) hyb)

end NativeLib.Interaction
