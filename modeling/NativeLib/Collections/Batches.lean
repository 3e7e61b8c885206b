import NativeLib.Collections.Answers

/-! Batches of elements brought one after another to someone who says each time whether to go
on. A refusal ends the batch, or is not heeded at all; what comes next is the next batch. -/

namespace NativeLib.Collections

variable {α : Type}

/-- The elements of a batch; one that does not end has nothing behind it. -/
structure Batch (α : Type) where
  items : List α
  ends : Bool
  deriving DecidableEq, Repr

/-- What becomes of the answers. -/
def heed (heeded : Bool) (again : List α → Bool) (l : List α) : Bool := !heeded || again l

/-- What is brought of the batches after `before`. -/
def broughtIn (go : List α → Bool) : List α → List (Batch α) → List α
  | _, [] => []
  | before, b :: bs =>
      let l := brought go before b.items
      l ++ if b.ends || !GoesOn go before b.items then broughtIn go (before ++ l) bs else []

/-- The batches up to the first that does not end. -/
def reached : List (Batch α) → List (Batch α)
  | [] => []
  | b :: bs => b :: if b.ends then reached bs else []

/-- What is left behind an element of batch `b`, with `r` behind it in the batch: the rest of
the batch is brought if a refusal is not heeded. -/
def behind (heeded : Bool) (b : Batch α) (r : List α) (post : List (Batch α)) : List α :=
  if heeded then (reached post).flatMap Batch.items
  else r ++ if b.ends then (reached post).flatMap Batch.items else []

/-- Behind the first element that is refused nothing is left. -/
def NothingBehind (heeded : Bool) (again : List α → Bool) (bs : List (Batch α)) : Prop :=
  ∀ pre b post l x r, bs = pre ++ b :: post → (∀ c ∈ pre, c.ends = true) → b.items = l ++ x :: r →
    GoesOn again [] (pre.flatMap Batch.items ++ l) = true →
    again (pre.flatMap Batch.items ++ l ++ [x]) = false → behind heeded b r post = []

variable {go again : List α → Bool} {heeded : Bool} {before l : List α} {bs : List (Batch α)}

theorem goesOn_mono (hgo : ∀ l, again l = true → go l = true)
    (h : GoesOn again before l = true) : GoesOn go before l = true := by
  induction l generalizing before with
  | nil => rfl
  | cons x l ih =>
    obtain ⟨hx, hl⟩ := Bool.and_eq_true_iff.mp h
    exact Bool.and_eq_true_iff.mpr ⟨hgo _ hx, ih hl⟩

theorem heed_of_again (l : List α) (h : again l = true) : heed heeded again l = true := by
  simp [heed, h]

theorem goesOn_unheeded : GoesOn (heed false again) before l = true := by
  induction l generalizing before with
  | nil => rfl
  | cons x l ih => exact ih

theorem brought_prefix : brought go before l <+: l := by
  induction l generalizing before with
  | nil => exact List.nil_prefix
  | cons x l ih =>
    rw [brought]
    split_ifs
    · exact List.cons_prefix_cons.mpr ⟨rfl, ih⟩
    · exact ⟨l, rfl⟩

/-- Nothing is brought if there is nothing to bring. -/
theorem broughtIn_eq_nil_iff :
    broughtIn go before bs = [] ↔ (reached bs).flatMap Batch.items = [] := by
  induction bs generalizing before with
  | nil => simp [broughtIn, reached]
  | cons b bs ih =>
    rw [broughtIn, reached, List.flatMap_cons, List.append_eq_nil_iff, List.append_eq_nil_iff,
      brought_eq_nil_iff]
    refine and_congr_right fun hnil => ?_
    rw [hnil, goesOn_nil, Bool.not_true, Bool.or_false]
    split_ifs
    · exact ih
    · simp

/-- Batches without a refusal are brought as they are. -/
theorem broughtIn_append (hgo : ∀ l, again l = true → go l = true) {pre : List (Batch α)}
    (hends : ∀ c ∈ pre, c.ends = true)
    (h : GoesOn again before (pre.flatMap Batch.items) = true) :
    broughtIn go before (pre ++ bs) = pre.flatMap Batch.items ++
      broughtIn go (before ++ pre.flatMap Batch.items) bs := by
  induction pre generalizing before with
  | nil => simp
  | cons b pre ih =>
    rw [List.forall_mem_cons] at hends
    rw [List.flatMap_cons, goesOn_append, Bool.and_eq_true_iff] at h
    rw [List.cons_append, broughtIn, brought_of_goesOn (goesOn_mono hgo h.1), hends.1,
      Bool.true_or, if_pos rfl, ih hends.2 h.2, List.flatMap_cons, List.append_assoc,
      List.append_assoc]

/-- If refusals are not heeded everything is brought. -/
theorem broughtIn_unheeded :
    broughtIn (heed false again) before bs = (reached bs).flatMap Batch.items := by
  induction bs generalizing before with
  | nil => rfl
  | cons b bs ih =>
    rw [broughtIn, brought_of_goesOn goesOn_unheeded, goesOn_unheeded, Bool.not_true,
      Bool.or_false, reached, List.flatMap_cons, ih]
    split_ifs <;> rfl

/-- What is brought from a first refusal on. -/
theorem broughtIn_refusal (heeded : Bool) (post : List (Batch α)) {b : Batch α} {x : α}
    {r : List α} (hitems : b.items = l ++ x :: r) (hl : GoesOn again before l = true)
    (hx : again (before ++ l ++ [x]) = false) :
    ∃ tail, broughtIn (heed heeded again) before (b :: post) = l ++ x :: tail ∧
      (tail = [] ↔ behind heeded b r post = []) := by
  cases heeded with
  | true =>
    have hheed : heed true again = again := by
      funext l
      simp [heed]
    rw [hheed, broughtIn, hitems, brought_refusal hl hx]
    have hstop : GoesOn again before (l ++ x :: r) = false := by
      rw [goesOn_append, GoesOn, hx, Bool.false_and, Bool.and_false]
    rw [hstop, Bool.not_false, Bool.or_true, if_pos rfl]
    refine ⟨broughtIn again (before ++ (l ++ [x])) post, by simp, ?_⟩
    rw [broughtIn_eq_nil_iff, behind, if_pos rfl]
  | false =>
    refine ⟨behind false b r post, ?_, Iff.rfl⟩
    rw [broughtIn_unheeded, reached, List.flatMap_cons, hitems, behind, if_neg Bool.false_ne_true,
      List.append_assoc, List.cons_append]
    split_ifs <;> rfl

/-- If everything that was brought was accepted, nothing was refused. -/
theorem goesOn_of_brought (hgo : ∀ l, again l = true → go l = true)
    (h : GoesOn again before (brought go before l) = true) : GoesOn go before l = true := by
  by_contra hno
  obtain ⟨pre, x, post, rfl, hpre, hx⟩ := exists_first_refusal (Bool.not_eq_true _ ▸ hno)
  rw [brought_refusal hpre hx, goesOn_snoc, Bool.and_eq_true_iff] at h
  rw [hgo _ h.2] at hx
  exact absurd hx (by decide)

/-- Where an element that is brought comes from, if nothing was refused before. -/
theorem exists_batch (hgo : ∀ l, again l = true → go l = true) {x : α} {r : List α}
    (h : broughtIn go before bs = l ++ x :: r) (hl : GoesOn again before l = true) :
    ∃ pre b post l' r', bs = pre ++ b :: post ∧ (∀ c ∈ pre, c.ends = true) ∧
      l = pre.flatMap Batch.items ++ l' ∧ b.items = l' ++ x :: r' := by
  induction bs generalizing before l with
  | nil => simp [broughtIn] at h
  | cons b bs ih =>
    rw [broughtIn] at h
    -- the element is in the first batch, or all of that batch stands before it
    have hcase : (∃ r', b.items = l ++ x :: r') ∨ ∃ l', l = brought go before b.items ++ l' ∧
        (if b.ends || !GoesOn go before b.items then
          broughtIn go (before ++ brought go before b.items) bs else []) = l' ++ x :: r := by
      rcases List.append_eq_append_iff.mp h with hlater | ⟨_ | ⟨y, c⟩, hbrought, hrest⟩
      · exact .inr hlater
      · exact .inr ⟨[], by simpa using hbrought.symm, by simpa using hrest.symm⟩
      · obtain ⟨rfl, -⟩ := List.cons.inj hrest
        obtain ⟨d, hd⟩ : brought go before b.items <+: b.items := brought_prefix
        exact .inl ⟨c ++ d, by rw [← hd, hbrought]; simp⟩
    rcases hcase with ⟨r', hitems⟩ | ⟨l', rfl, hrest⟩
    · exact ⟨[], b, bs, l, r', rfl, by simp, by simp, hitems⟩
    rw [goesOn_append, Bool.and_eq_true_iff] at hl
    have hgoes := goesOn_of_brought hgo hl.1
    rw [brought_of_goesOn hgoes] at hl hrest ⊢
    rw [hgoes, Bool.not_true, Bool.or_false] at hrest
    split_ifs at hrest with hends
    · obtain ⟨pre, c, post, l'', r'', rfl, hpre, rfl, hitems⟩ := ih hrest hl.2
      exact ⟨b :: pre, c, post, l'', r'', rfl, List.forall_mem_cons.mpr ⟨hends, hpre⟩, by simp,
        hitems⟩
    · simp at hrest

/-- Nothing is brought after a refusal exactly where nothing is left behind it. -/
theorem nothingAfterRefusal_broughtIn_iff :
    NothingAfterRefusal again (broughtIn (heed heeded again) [] bs) ↔
      NothingBehind heeded again bs := by
  have hfrom : ∀ pre b post l x r, bs = pre ++ b :: post → (∀ c ∈ pre, c.ends = true) →
      b.items = l ++ x :: r → GoesOn again [] (pre.flatMap Batch.items ++ l) = true →
      again (pre.flatMap Batch.items ++ l ++ [x]) = false →
      ∃ tail, broughtIn (heed heeded again) [] bs = pre.flatMap Batch.items ++ l ++ x :: tail ∧
        (tail = [] ↔ behind heeded b r post = []) := by
    rintro pre b post l x r rfl hends hitems hgoes hx
    rw [goesOn_append, Bool.and_eq_true_iff] at hgoes
    obtain ⟨tail, htail, hnil⟩ := broughtIn_refusal heeded post hitems hgoes.2 hx
    exact ⟨tail, by rw [broughtIn_append heed_of_again hends hgoes.1, List.nil_append,
      ← List.nil_append (pre.flatMap Batch.items), htail]; simp, hnil⟩
  rw [nothingAfterRefusal_iff]
  refine ⟨?_, ?_⟩
  · intro h pre b post l x r hbs hends hitems hgoes hx
    obtain ⟨tail, htail, hnil⟩ := hfrom pre b post l x r hbs hends hitems hgoes hx
    exact hnil.mp (h _ _ _ htail hgoes hx)
  · intro h l x r hbrought hgoes hx
    obtain ⟨pre, b, post, l', r', hbs, hends, rfl, hitems⟩ :=
      exists_batch heed_of_again hbrought hgoes
    obtain ⟨tail, htail, hnil⟩ := hfrom pre b post l' x r' hbs hends hitems hgoes hx
    obtain rfl : r = tail := (List.cons.inj (List.append_cancel_left (hbrought.symm.trans htail))).2
    exact hnil.mpr (h pre b post l' x r' hbs hends hitems hgoes hx)

end NativeLib.Collections
