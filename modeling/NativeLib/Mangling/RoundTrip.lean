import Mathlib.Data.Nat.Digits.Lemmas
import NativeLib.Mangling.Demangler

/-! The reader reads what is written: a well-formed function is the function of its mangled
name, so that two of them never have the same. -/

namespace NativeLib.Mangling

open Component

variable {stack : List Frame} {seen : List Component} {scope t : Component} {known : Bool}
  {name : Unqualified} {cs cs' : List Char} {s : State}

theorem run_cons (c : Char) : run s (c :: cs) = (step s c).bind (run · cs) := rfl

theorem run_append : run s (cs ++ cs') = (run s cs).bind (run · cs') := List.foldlM_append

theorem run_singleton (c : Char) : run s [c] = step s c := by
  rw [run_cons]
  exact Option.bind_fun_some _

/-! Numerals. -/

theorem toNat_digitChar {d : ℕ} (hd : d < 36) :
    (digitChar d).toNat = if d < 10 then 48 + d else 55 + d := by
  have h : ∀ d < 36, (digitChar d).toNat = if d < 10 then 48 + d else 55 + d := by decide
  exact h d hd

theorem digitValue_digitChar {b d : ℕ} (hb : b ≤ 36) (hd : d < b) :
    digitValue b (digitChar d) = some d := by
  have hval := toNat_digitChar (show d < 36 by omega)
  by_cases hten : d < 10
  · rw [if_pos hten] at hval
    rw [digitValue, if_pos (by omega), hval, Nat.add_sub_cancel_left]
  · rw [if_neg hten] at hval
    rw [digitValue, if_neg (by omega), if_pos (by omega), hval, Nat.add_sub_cancel_left]

theorem foldl_digits (b n : ℕ) :
    (Nat.digits b n).reverse.foldl (fun n d => n * b + d) 0 = n := by
  rw [List.foldl_reverse]
  have h := Nat.ofDigits_digits b n
  rw [Nat.ofDigits_eq_foldr] at h
  simpa [Nat.add_comm, Nat.mul_comm] using h

/-- A reader that adds one digit after the other reads a numeral. -/
theorem run_numeral {b n : ℕ} (hb : 1 < b) (M : ℕ → State)
    (hs : ∀ d < b, step s (digitChar d) = some (M d))
    (hM : ∀ n, ∀ d < b, step (M n) (digitChar d) = some (M (n * b + d))) :
    run s (numeral b n) = some (M n) := by
  have hrest : ∀ (ds : List ℕ) (n : ℕ), (∀ d ∈ ds, d < b) →
      run (M n) (ds.map digitChar) = some (M (ds.foldl (fun n d => n * b + d) n)) := by
    intro ds
    induction ds with
    | nil => intro n _; rfl
    | cons d ds ih =>
      intro n hds
      rw [List.map_cons, run_cons, hM n d (hds d (by simp))]
      exact ih _ fun d' hd' => hds d' (by simp [hd'])
  unfold numeral
  split_ifs with hn
  · subst hn
    rw [run_singleton]
    exact hs 0 (by omega)
  · have hlt : ∀ d ∈ (Nat.digits b n).reverse, d < b := fun d hd =>
      Nat.digits_lt_base hb (List.mem_reverse.mp hd)
    have hfold := foldl_digits b n
    have hne : (Nat.digits b n).reverse ≠ [] :=
      List.reverse_ne_nil_iff.mpr (Nat.digits_ne_nil_iff_ne_zero.mpr hn)
    obtain ⟨d, ds, hds⟩ := List.exists_cons_of_ne_nil hne
    rw [hds] at hlt hfold ⊢
    rw [List.map_cons, run_cons, hs d (hlt d (by simp))]
    refine (hrest ds d fun d' hd' => hlt d' (by simp [hd'])).trans ?_
    rw [List.foldl_cons, Nat.zero_mul, Nat.zero_add] at hfold
    rw [hfold]

/-! The parts of a nested name. -/

theorem step_digit (d : ℕ) (hd : d < 10) :
    step ⟨.ready, .nested scope known :: stack, seen⟩ (digitChar d) =
      some ⟨.length d, .nested scope known :: stack, seen⟩ := by
  show startPart (digitChar d) scope known stack seen = _
  unfold startPart
  rw [digitValue_digitChar (by decide) hd]

theorem run_id (id read : List Char) (hid : id ≠ []) :
    run ⟨.name id.length read, .nested scope known :: stack, seen⟩ id =
      some ⟨.ready, .nested (.member scope (.source (read ++ id))) false :: stack,
        flush scope known seen⟩ := by
  induction id generalizing read with
  | nil => exact absurd rfl hid
  | cons c id ih =>
    rw [run_cons]
    cases id with
    | nil => rfl
    | cons c' id =>
      refine (ih (read ++ [c]) (List.cons_ne_nil _ _)).trans ?_
      rw [List.append_assoc, List.singleton_append]

theorem run_source (id : List Char) (hid : (Unqualified.source id).WellFormed) :
    run ⟨.ready, .nested scope known :: stack, seen⟩ (Unqualified.source id).mangle =
      some ⟨.ready, .nested (.member scope (.source id)) false :: stack,
        flush scope known seen⟩ := by
  cases id with
  | nil => exact hid.elim
  | cons c id =>
    have hdigit : digitValue 10 c = none := hid
    rw [Unqualified.mangle, run_append, run_numeral (by decide)
      (fun n => ⟨.length n, .nested scope known :: stack, seen⟩) step_digit fun n d hd => by
        simp only [step, digitValue_digitChar (by decide) hd]]
    -- The first character that is no digit belongs to the name.
    have hfirst : step ⟨.length (c :: id).length, .nested scope known :: stack, seen⟩ c =
        step ⟨.name (c :: id).length [], .nested scope known :: stack, seen⟩ c := by
      simp only [step, hdigit]
    rw [Option.bind_some, run_cons, hfirst, ← run_cons]
    exact run_id (c :: id) [] (List.cons_ne_nil _ _)

theorem run_name (hname : name.WellFormed) :
    run ⟨.ready, .nested scope known :: stack, seen⟩ name.mangle =
      some ⟨.ready, .nested (.member scope name) false :: stack, flush scope known seen⟩ := by
  cases name with
  | source id => exact run_source id hname
  | structor kind variant =>
    have hcode : (kind, variant) ∈ structorCodes := hname
    have hkind : kind = 'C' ∨ kind = 'D' := by
      simp only [structorCodes, List.mem_cons, Prod.mk.injEq, List.not_mem_nil, or_false] at hcode
      tauto
    have hletter : step ⟨.ready, .nested scope known :: stack, seen⟩ kind =
        some ⟨.letter kind, .nested scope known :: stack, seen⟩ := by
      rcases hkind with rfl | rfl <;> rfl
    rw [Unqualified.mangle, run_cons, hletter]
    refine (run_singleton variant).trans ?_
    simp only [step, hcode, if_true]
    rfl

/-! Numbers for what was seen. -/

theorem digitChar_ne {d : ℕ} (hd : d < 36) : digitChar d ≠ '_' ∧ digitChar d ≠ 't' := by
  have h : ∀ d < 36, digitChar d ≠ '_' ∧ digitChar d ≠ 't' := by decide
  exact h d hd

theorem step_seq (n : Option ℕ) (d : ℕ) (hd : d < 36) :
    step ⟨.seq n, stack, seen⟩ (digitChar d) =
      some ⟨.seq (some (n.getD 0 * 36 + d)), stack, seen⟩ := by
  obtain ⟨hend, ht⟩ := digitChar_ne hd
  simp only [step, if_neg hend, if_neg ht, nextOfSeq, digitValue_digitChar le_rfl hd,
    Option.map_some]

theorem step_param (n : Option ℕ) (d : ℕ) (hd : d < 36) :
    step ⟨.param n, stack, seen⟩ (digitChar d) =
      some ⟨.param (some (n.getD 0 * 36 + d)), stack, seen⟩ := by
  obtain ⟨hend, -⟩ := digitChar_ne hd
  simp only [step, if_neg hend, nextOfSeq, digitValue_digitChar le_rfl hd, Option.map_some]

theorem run_seqId (i : ℕ) :
    run ⟨.seq none, stack, seen⟩ (seqId i) = (seen[i]?).bind fun t => deliver stack t seen := by
  cases i with
  | zero => exact run_singleton '_'
  | succ i =>
    have hnum : run ⟨.seq none, stack, seen⟩ (numeral 36 i) = some ⟨.seq (some i), stack, seen⟩ :=
      run_numeral (by decide) (fun n => ⟨.seq (some n), stack, seen⟩)
        (fun d hd => by simpa using step_seq none d hd) fun n d hd => step_seq (some n) d hd
    rw [seqId, run_append, hnum]
    exact run_singleton '_'

theorem run_param_seqId (i : ℕ) :
    run ⟨.param none, stack, seen⟩ (seqId i) = emit stack (.param i) (seen ++ [.param i]) := by
  cases i with
  | zero => exact run_singleton '_'
  | succ i =>
    have hnum : run ⟨.param none, stack, seen⟩ (numeral 36 i) =
        some ⟨.param (some i), stack, seen⟩ :=
      run_numeral (by decide) (fun n => ⟨.param (some n), stack, seen⟩)
        (fun d hd => by simpa using step_param none d hd) fun n d hd => step_param (some n) d hd
    rw [seqId, run_append, hnum]
    exact run_singleton '_'

/-! Where a type can stand. -/

/-- The next thing to read is a type. -/
def TakesType : List Frame → Prop
  | .nested .. :: _ => False
  | .encoding :: _ => False
  | _ => True

theorem step_type (hstack : TakesType stack) {c : Char} (hc : c ≠ 'E') :
    step ⟨.ready, stack, seen⟩ c = startType c stack seen := by
  show start c stack seen = _
  unfold start
  split
  · exact hstack.elim
  · exact hstack.elim
  · rw [if_neg hc]
  · rfl

theorem step_letter (hstack : TakesType stack) :
    step ⟨.letter 'D', stack, seen⟩ 'n' = emit stack .nullptrT seen := by
  cases stack with
  | nil => rfl
  | cons frame stack =>
    cases frame with
    | nested scope known => exact hstack.elim
    | _ => rfl

theorem deliver_type (hstack : TakesType stack) : deliver stack t seen = emit stack t seen := by
  unfold deliver
  split
  · exact hstack.elim
  · rfl

theorem close_type (hstack : TakesType stack) :
    close t stack seen = emit stack t (seen ++ [t]) := by
  unfold close
  split
  · exact hstack.elim
  · rfl

/-- As a type, `t` is read to the type `t`. -/
def ReadsType (t : Component) : Prop :=
  ∀ (stack : List Frame) (seen : List Component), TakesType stack →
    run ⟨.ready, stack, seen⟩ (t.mangle .type seen).1 = emit stack t (t.mangle .type seen).2

/-- As a scope, `t` is read to the beginning of a nested name. -/
def ReadsScope (t : Component) : Prop :=
  ∀ (stack : List Frame) (seen : List Component), ∃ known seen',
    run ⟨.ready, .nested .root true :: stack, seen⟩ (t.mangle .scope seen).1 =
      some ⟨.ready, .nested t known :: stack, seen'⟩ ∧
    flush t known seen' = (t.mangle .scope seen).2

/-- The stack takes one type after the other as an argument. -/
structure Collects (K : Component → List Frame) : Prop where
  takesType : ∀ args, TakesType (K args)
  emit : ∀ args t seen, emit (K args) t seen = some ⟨.ready, K (.arg args t), seen⟩

/-- As arguments, `t` is read to the arguments `t`. -/
def ReadsArgs (t : Component) : Prop :=
  ∀ (K : Component → List Frame) (seen : List Component), Collects K →
    run ⟨.ready, K .noArgs, seen⟩ (t.mangle .args seen).1 =
      some ⟨.ready, K t, (t.mangle .args seen).2⟩

theorem run_deliver {i : ℕ} (hi : seen.idxOf? t = some i) :
    run ⟨.seq none, stack, seen⟩ (seqId i) = deliver stack t seen := by
  obtain ⟨hlt, heq, -⟩ := List.idxOf?_eq_some_iff.mp hi
  rw [run_seqId, List.getElem?_eq_getElem hlt, heq]
  rfl

/-- A type is read in full or by its number. -/
theorem reads_type (hstack : TakesType stack) {written : List Char × List Component}
    (h : run ⟨.ready, stack, seen⟩ written.1 = emit stack t (written.2 ++ [t])) :
    run ⟨.ready, stack, seen⟩ (abbreviate t seen written).1 =
      emit stack t (abbreviate t seen written).2 := by
  unfold abbreviate
  cases hi : seen.idxOf? t with
  | none => exact h
  | some i =>
    rw [run_cons, step_type hstack (by decide)]
    exact (run_deliver hi).trans (deliver_type hstack)

/-- So is a scope. -/
theorem reads_scope {written : List Char × List Component}
    (h : run ⟨.ready, .nested .root true :: stack, seen⟩ written.1 =
      some ⟨.ready, .nested t false :: stack, written.2⟩) :
    ∃ known seen', run ⟨.ready, .nested .root true :: stack, seen⟩
        (abbreviate t seen written).1 = some ⟨.ready, .nested t known :: stack, seen'⟩ ∧
      flush t known seen' = (abbreviate t seen written).2 := by
  unfold abbreviate
  cases hi : seen.idxOf? t with
  | none => exact ⟨false, written.2, h, rfl⟩
  | some i => exact ⟨true, seen, run_deliver hi, rfl⟩

/-- Between `N` and `E` a nested name is a type. -/
theorem run_nest (hstack : TakesType stack) {seen' : List Component}
    (h : run ⟨.ready, .nested .root true :: stack, seen⟩ cs =
      some ⟨.ready, .nested t false :: stack, seen'⟩) :
    run ⟨.ready, stack, seen⟩ (nest .type cs) = emit stack t (seen' ++ [t]) := by
  show run _ ('N' :: cs ++ ['E']) = _
  rw [List.cons_append, run_cons, step_type hstack (by decide)]
  show run ⟨.ready, .nested .root true :: stack, seen⟩ (cs ++ ['E']) = _
  rw [run_append, h]
  exact (run_singleton 'E').trans (close_type hstack)

theorem run_member (hscope : ReadsScope scope) (hname : name.WellFormed) :
    run ⟨.ready, .nested .root true :: stack, seen⟩
        ((scope.mangle .scope seen).1 ++ name.mangle) =
      some ⟨.ready, .nested (.member scope name) false :: stack, (scope.mangle .scope seen).2⟩ := by
  obtain ⟨known, seen', hrun, hflush⟩ := hscope stack seen
  rw [run_append, hrun, ← hflush]
  exact run_name hname

theorem collects_args : Collects fun args => .args args :: .nested t known :: stack :=
  ⟨fun _ => trivial, fun _ _ _ => rfl⟩

/-- Template arguments after a template. -/
theorem run_args {args : Component} (hargs : ReadsArgs args) :
    run ⟨.ready, .nested t known :: stack, seen⟩
        ('I' :: (args.mangle .args (flush t known seen)).1 ++ ['E']) =
      some ⟨.ready, .nested (.inst t args) false :: stack,
        (args.mangle .args (flush t known seen)).2⟩ := by
  rw [List.cons_append, run_cons]
  show run ⟨.ready, .args .noArgs :: .nested t true :: stack, flush t known seen⟩ _ = _
  rw [run_append, hargs _ (flush t known seen) collects_args]
  exact run_singleton 'E'

theorem run_inst {args : Component} (htemplate : ReadsScope t) (hargs : ReadsArgs args) :
    run ⟨.ready, .nested .root true :: stack, seen⟩
        ((t.mangle .scope seen).1 ++
          'I' :: (args.mangle .args (t.mangle .scope seen).2).1 ++ ['E']) =
      some ⟨.ready, .nested (.inst t args) false :: stack,
        (args.mangle .args (t.mangle .scope seen).2).2⟩ := by
  obtain ⟨known, seen', hrun, hflush⟩ := htemplate stack seen
  rw [List.append_assoc, run_append, hrun, ← hflush]
  exact run_args hargs

/-- A type that is a letter and another type: the letter waits for that. -/
theorem run_compound (frame : Frame) {compound : Component → Component} {c : Char}
    (hc : c ≠ 'E') (hstart : ∀ stack seen,
      startType c stack seen = some ⟨.ready, frame :: stack, seen⟩)
    (hemit : ∀ stack t seen,
      emit (frame :: stack) t seen = emit stack (compound t) (seen ++ [compound t]))
    (htakes : ∀ stack, TakesType (frame :: stack)) (ht : ReadsType t)
    (hstack : TakesType stack) :
    run ⟨.ready, stack, seen⟩ (abbreviate (compound t) seen
        (c :: (t.mangle .type seen).1, (t.mangle .type seen).2)).1 =
      emit stack (compound t) (abbreviate (compound t) seen
        (c :: (t.mangle .type seen).1, (t.mangle .type seen).2)).2 := by
  refine reads_type hstack ?_
  rw [run_cons, step_type hstack hc, hstart]
  exact (ht _ seen (htakes stack)).trans (hemit stack t _)

theorem Component.WellFormed.toScope (ht : t.WellFormed .type) (hsource : t.isSource = true) :
    t.WellFormed .scope := by
  cases t with
  | member scope name => exact ⟨by decide, ht.2.1, ht.2.2.1, ht.2.2.2.1, by simp⟩
  | _ => simp [Component.isSource] at hsource

/-- Everything that is well formed is read where it stands. -/
theorem reads (t : Component) :
    (t.WellFormed .type → ReadsType t) ∧ (t.WellFormed .scope → ReadsScope t) ∧
      (t.WellFormed .args → ReadsArgs t) := by
  induction t with
  | root =>
    refine ⟨nofun, fun _ stack seen => ⟨true, seen, rfl, rfl⟩, nofun⟩
  | std =>
    refine ⟨nofun, fun _ stack seen => ⟨true, seen, rfl, rfl⟩, nofun⟩
  | member scope name ih =>
    refine ⟨fun ⟨_, hscope, _, hname, _⟩ stack seen hstack => ?_,
      fun ⟨_, hscope, _, hname, _⟩ stack seen => ?_, fun h => absurd rfl h.1⟩
    · exact reads_type hstack (run_nest hstack (run_member (ih.2.1 hscope) hname))
    · exact reads_scope (run_member (ih.2.1 hscope) hname)
  | inst template args ihtemplate ihargs =>
    refine ⟨fun ⟨_, htemplate, hsource, hargs, _⟩ stack seen hstack => ?_,
      fun ⟨_, htemplate, _, hargs, _⟩ stack seen => ?_, fun h => absurd rfl h.1⟩
    · exact reads_type hstack (run_nest hstack
        (run_inst (ihtemplate.2.1 (htemplate.toScope hsource)) (ihargs.2.2 hargs)))
    · exact reads_scope (run_inst (ihtemplate.2.1 htemplate) (ihargs.2.2 hargs))
  | noArgs => exact ⟨nofun, nofun, fun _ K seen _ => rfl⟩
  | arg args last ihargs ihlast =>
    refine ⟨fun h => absurd h.1 (by decide), fun h => absurd h.1 (by decide),
      fun ⟨_, hargs, hlast⟩ K seen hK => ?_⟩
    show run _ ((args.mangle .args seen).1 ++ _) = _
    rw [run_append, ihargs.2.2 hargs K seen hK]
    exact (ihlast.1 hlast _ _ (hK.takesType args)).trans (hK.emit args last _)
  | builtin code =>
    refine ⟨fun h stack seen hstack => ?_, fun h => absurd h.1 (by decide),
      fun h => absurd h.1 (by decide)⟩
    show run _ [code] = _
    have hE : code ≠ 'E' := by
      rintro rfl
      exact absurd h.2 (by decide)
    rw [run_singleton, step_type hstack hE]
    exact if_pos h.2
  | nullptrT =>
    refine ⟨fun h stack seen hstack => ?_, nofun, nofun⟩
    show run _ ['D', 'n'] = _
    rw [run_cons, step_type hstack (by decide)]
    exact (run_singleton 'n').trans (step_letter hstack)
  | pointer target ih =>
    refine ⟨fun h stack seen hstack => ?_, fun h => absurd h.1 (by decide),
      fun h => absurd h.1 (by decide)⟩
    exact run_compound .pointer (by decide) (fun _ _ => rfl) (fun _ _ _ => rfl)
      (fun _ => trivial) (ih.1 h.2) hstack
  | reference target ih =>
    refine ⟨fun h stack seen hstack => ?_, fun h => absurd h.1 (by decide),
      fun h => absurd h.1 (by decide)⟩
    exact run_compound .reference (by decide) (fun _ _ => rfl) (fun _ _ _ => rfl)
      (fun _ => trivial) (ih.1 h.2) hstack
  | const target ih =>
    refine ⟨fun h stack seen hstack => ?_, fun h => absurd h.1 (by decide),
      fun h => absurd h.1 (by decide)⟩
    exact run_compound .const (by decide) (fun _ _ => rfl) (fun _ _ _ => rfl)
      (fun _ => trivial) (ih.1 h.2) hstack
  | param i =>
    refine ⟨fun h stack seen hstack => reads_type hstack ?_, nofun, nofun⟩
    rw [run_cons, step_type hstack (by decide)]
    exact run_param_seqId i

/-! Functions. -/

theorem toList_ofList (ts : List Component) : (ofList ts).toList = ts := by
  induction ts using List.reverseRecOn with
  | nil => rfl
  | append_singleton ts t ih =>
    rw [ofList, List.foldl_append]
    exact congrArg (· ++ [t]) ih

theorem wellFormed_ofList {ts : List Component} (h : ∀ t ∈ ts, t.WellFormed .type) :
    (ofList ts).WellFormed .args := by
  induction ts using List.reverseRecOn with
  | nil => rfl
  | append_singleton ts t ih =>
    rw [ofList, List.foldl_append]
    exact ⟨rfl, ih fun t' ht' => h t' (by simp [ht']), h t (by simp)⟩

variable {f g : Function}

theorem Function.WellFormed.types (h : f.WellFormed) : f.types.WellFormed .args := by
  obtain ⟨-, -, -, -, -, hwf, -⟩ := h
  refine wellFormed_ofList fun t ht => ?_
  rcases List.mem_append.mp ht with ht | ht
  · exact hwf t (List.mem_append_left _ ht)
  · split_ifs at ht with hnone
    · obtain rfl := List.mem_singleton.mp ht
      exact ⟨rfl, by decide⟩
    · exact hwf t (List.mem_append_right _ ht)

theorem paramsOf_params (h : f.WellFormed) :
    paramsOf (if f.params = [] then [.builtin 'v'] else f.params) = f.params := by
  obtain ⟨-, -, -, -, -, -, hvoid⟩ := h
  by_cases hnone : f.params = []
  · rw [if_pos hnone, hnone]
    rfl
  · rw [if_neg hnone]
    exact if_neg fun honly => hvoid (by simp [honly])

theorem function_signature (h : f.WellFormed) (seen : List Component) :
    State.function ⟨.ready, [.signature f.scope f.name f.args f.types], seen⟩ = some f := by
  have hparams := paramsOf_params h
  have htypes : f.types.toList =
      f.ret.toList ++ if f.params = [] then [.builtin 'v'] else f.params := toList_ofList _
  obtain ⟨-, -, -, -, hret, -, -⟩ := h
  obtain ⟨scope, name, args, ret, params⟩ := f
  simp only [State.function, htypes]
  cases ret with
  | none =>
    rw [if_neg (by simpa using hret)]
    simpa using hparams
  | some ret =>
    rw [if_pos (hret.mp rfl)]
    simpa using hparams

theorem run_functionArgs (h : f.WellFormed) (seen : List Component) :
    run ⟨.ready, [.nested (.member f.scope f.name) false, .encoding], seen⟩
        ((f.mangleArgs seen).1 ++ ['E']) =
      some ⟨.ready, [.signature f.scope f.name f.args .noArgs], (f.mangleArgs seen).2⟩ := by
  obtain ⟨-, -, -, hargs, -⟩ := h
  unfold Function.mangleArgs
  split_ifs with hnone
  · rw [hnone]
    exact run_singleton 'E'
  · rw [run_append]
    refine (congrArg (Option.bind · _) (run_args ((reads f.args).2.2 hargs))).trans ?_
    exact run_singleton 'E'

theorem collects_signature (scope : Component) (name : Unqualified) (args : Component) :
    Collects fun types => [.signature scope name args types] :=
  ⟨fun _ => trivial, fun _ _ _ => rfl⟩

/-- Reading what was written gives it back. -/
theorem demangle_mangle (h : f.WellFormed) : demangle f.mangle = some f := by
  obtain ⟨hscope, -, hname, -⟩ := id h
  set seen := (f.scope.mangle .scope []).2 with hseen
  have hmember : run ⟨.ready, [.nested .root true, .encoding], []⟩
      ((f.scope.mangle .scope []).1 ++ f.name.mangle) =
        some ⟨.ready, [.nested (.member f.scope f.name) false, .encoding], seen⟩ :=
    run_member ((reads f.scope).2.1 hscope) hname
  have hargs := run_functionArgs h seen
  have htypes := (reads f.types).2.2 h.types _ (f.mangleArgs seen).2
    (collects_signature f.scope f.name f.args)
  have hsplit : f.mangle = '_' :: 'Z' :: 'N' ::
      (((f.scope.mangle .scope []).1 ++ f.name.mangle) ++
        (((f.mangleArgs seen).1 ++ ['E']) ++ (f.types.mangle .args (f.mangleArgs seen).2).1)) := by
    simp only [Function.mangle, hseen, List.append_assoc, List.cons_append, List.nil_append]
  rw [hsplit]
  show (run ⟨.ready, [.nested .root true, .encoding], []⟩ _).bind State.function = _
  rw [run_append, hmember, Option.bind_some, run_append, hargs, Option.bind_some, htypes,
    Option.bind_some]
  exact function_signature h _

/-- `std::a::b<char>::b(std::a::b<char> const &)`. -/
example :
    let b : Component := .inst (.member (.member .std (.source ['a'])) (.source ['b']))
      (.ofList [.builtin 'c'])
    demangle "_ZNSt1a1bIcEC1ERKS1_".toList =
      some ⟨b, .structor 'C' '1', .noArgs, none, [.reference (.const b)]⟩ := by
  decide +kernel

/-- No two functions have the same mangled name. -/
theorem mangle_injective (hf : f.WellFormed) (hg : g.WellFormed) (h : f.mangle = g.mangle) :
    f = g := by
  have hsame := congrArg demangle h
  rw [demangle_mangle hf, demangle_mangle hg] at hsame
  exact Option.some.inj hsame

end NativeLib.Mangling
