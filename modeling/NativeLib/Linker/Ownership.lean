import Mathlib.Data.List.Nodup
import NativeLib.Linker.LinkerHandler

/-! Whether the list of callbacks, and the callbacks in it, are used after they were deleted.
`cleanCallBack` leaves `linkerCallBackList` as it is, so that the null checks of every later
operation let the deleted list through. -/

namespace NativeLib.Linker

open Interaction Collections Memory
open Prog (call forEach wp_bind wp_forEach wp_mono)

variable {h h' : LinkerHeap} {p p' : Ptr} {tr : Trace HeapCall HeapAnswer}

/-- The commands of a run. -/
def commands (tr : Trace HeapCall HeapAnswer) : List HeapCall := tr.map Prod.fst

@[simp] theorem commands_append (tr tr' : Trace HeapCall HeapAnswer) :
    commands (tr ++ tr') = commands tr ++ commands tr' := List.map_append

/-- The operation deletes the list. -/
def cleans (ev : LinkerEvent) : Bool :=
  decide (ev.op = .cleanCallBack) && decide (ev.pre.1 ≠ nullptr)

/-- The operation gets to the list if there is one. -/
def usesList : LinkerOp → Bool
  | .addLinkerCallBack _ => true
  | .cleanCallBack => true
  | .onSoLoadedBefore filename => filename.isSome
  | .onSoLoadedAfter path _ _ => path.isSome

/-- The callbacks that were added, in order. -/
def added (evs : List LinkerEvent) : List Ptr :=
  evs.filterMap fun ev =>
    match ev.op with
    | .addLinkerCallBack callBack => some callBack
    | _ => none

@[simp] theorem added_append (evs evs' : List LinkerEvent) :
    added (evs ++ evs') = added evs ++ added evs' := List.filterMap_append

/-- No use of the list after a `cleanCallBack` that found one, and no `cleanCallBack` after
one callback was added twice. -/
def Permitted (before : List LinkerEvent) (ev : LinkerEvent) : Prop :=
  usesList ev.op = true →
    (∀ ev' ∈ before, cleans ev' = false) ∧
      (ev.op = .cleanCallBack → ((added before).filter (· ≠ nullptr)).Nodup)

instance (before : List LinkerEvent) (ev : LinkerEvent) : Decidable (Permitted before ev) :=
  inferInstanceAs (Decidable (_ → (∀ ev' ∈ before, _) ∧ (_ → _)))

/-- As long as nothing was deleted, commands do what they are meant to do. -/
theorem HeapStep.sound {c : HeapCall} {r : HeapAnswer} (hstep : HeapStep h c r h')
    (hd : h.deleted = []) : h.answer c = (r, h') := by
  rcases hstep with hstep | ⟨o, -, ho⟩
  · exact hstep
  · simp [hd] at ho

theorem answer_loadBefore (h : LinkerHeap) (filename : Path) (c : Ptr) :
    h.answer (.loadBefore c filename) = (.done, h) := by
  simp [LinkerHeap.answer, lifetimes]

theorem answer_loadAfter (h : LinkerHeap) (redirectPath : Path) (ret : Ptr) (path : Path)
    (c : Ptr) : h.answer (.loadAfter c path redirectPath ret) = (.done, h) := by
  simp [LinkerHeap.answer, lifetimes]

theorem newList_spec (hd : h.deleted = []) (he : newList.Exec HeapStep h tr p h') :
    p ≠ nullptr ∧ h'.deleted = [] ∧ h'.elements p = [] ∧ lifetimes.deleted (commands tr) = [] := by
  obtain ⟨r, u, tr', rfl, hstep, he⟩ := Prog.exec_call_bind.mp he
  obtain ⟨rfl, rfl⟩ := Prod.mk.inj (hstep.sound hd)
  obtain ⟨rfl, rfl, rfl⟩ := he
  refine ⟨?_, hd, ?_, rfl⟩
  · intro hnull
    have hnull : (h.made : ℤ) + 1 = 0 := hnull
    omega
  · exact Function.update_self ..

/-- Adding a callback puts it at the end of the list, which is made if there was none. -/
theorem addLinkerCallBack_spec {c : Ptr} (hd : h.deleted = [])
    (he : (addLinkerCallBack p c).Exec HeapStep h tr p' h') :
    p' ≠ nullptr ∧ h'.deleted = [] ∧
      h'.elements p' = (if p = nullptr then [] else h.elements p) ++ [c] ∧
      lifetimes.deleted (commands tr) = [] := by
  obtain ⟨_, u, tr₁, tr₂, rfl, hlist, he⟩ := Prog.exec_bind.mp he
  obtain ⟨r, v, tr₃, rfl, hstep, rfl, rfl, rfl⟩ := Prog.exec_call_bind.mp he
  have hmade : p' ≠ nullptr ∧ u.deleted = [] ∧
      u.elements p' = (if p = nullptr then [] else h.elements p) ∧
      lifetimes.deleted (commands tr₁) = [] := by
    by_cases hp : p = nullptr
    · rw [if_pos hp] at hlist ⊢
      exact newList_spec hd hlist
    · rw [if_neg hp] at hlist ⊢
      obtain ⟨rfl, rfl, rfl⟩ := hlist
      exact ⟨hp, hd, rfl, rfl⟩
  obtain ⟨hne, hdu, helems, hnone⟩ := hmade
  obtain ⟨rfl, rfl⟩ := Prod.mk.inj (hstep.sound hdu)
  refine ⟨hne, hdu, ?_, ?_⟩
  · rw [← helems]
    exact Function.update_self ..
  · rw [commands_append, Footprint.deleted_append, hnone]
    rfl

/-- A loop over the callbacks reads the list and makes one command of each element. -/
theorem forEachCallback_commands {f : Ptr → HeapCall} {u : Unit} (hd : h.deleted = [])
    (he : (forEachCallback p f).Exec HeapStep h tr u h') :
    commands tr = .elements p :: (h.elements p).map f := by
  obtain ⟨r, v, tr', rfl, hstep, he⟩ := Prog.exec_call_bind.mp he
  obtain ⟨rfl, rfl⟩ := Prod.mk.inj (hstep.sound hd)
  exact congrArg _ (Prog.exec_forEach_call he)

/-- A loop whose commands change nothing changes nothing. -/
theorem forEachCallback_keeps {f : Ptr → HeapCall} {u : Unit} (hd : h.deleted = [])
    (hf : ∀ c, h.answer (f c) = (.done, h))
    (he : (forEachCallback p f).Exec HeapStep h tr u h') : h' = h := by
  obtain ⟨r, v, tr', rfl, hstep, he⟩ := Prog.exec_call_bind.mp he
  obtain ⟨rfl, rfl⟩ := Prod.mk.inj (hstep.sound hd)
  have hloop : (forEach (fun c => call (f c) >>= fun _ => pure ()) (h.elements p)).wp HeapStep
      (fun _ => False) h fun _ _ h' => h' = h := by
    refine wp_forEach _ (fun _ _ h' => h' = h) _ [] [] h rfl ?_
    rintro pre c post _ _ - rfl
    refine ⟨False.elim, ?_⟩
    intro r h' hstep
    have hans := hstep.sound hd
    rw [hf c] at hans
    exact (Prod.mk.inj hans).2.symm
  exact Prog.wp_exec hloop he

/-- A load leaves the heap as it is. -/
theorem onSoLoaded_spec {path : Option Path} {f : Path → Ptr → HeapCall} {u : Unit}
    (hd : h.deleted = []) (hf : ∀ path c, h.answer (f path c) = (.done, h))
    (hdel : ∀ path c, lifetimes.deletes (f path c) = none)
    (he : (onSoLoaded p path f).Exec HeapStep h tr u h') :
    h' = h ∧ lifetimes.deleted (commands tr) = [] := by
  cases path with
  | none =>
    obtain ⟨rfl, -, rfl⟩ := he
    exact ⟨rfl, rfl⟩
  | some path =>
    unfold onSoLoaded at he
    by_cases hp : p ≠ nullptr
    · simp only [if_pos hp] at he
      refine ⟨forEachCallback_keeps hd (hf path) he, ?_⟩
      rw [forEachCallback_commands hd he, Footprint.deleted, List.filterMap_eq_nil_iff]
      intro c hc
      rcases List.mem_cons.mp hc with rfl | hc
      · rfl
      · obtain ⟨a, -, rfl⟩ := List.mem_map.mp hc
        exact hdel path a
    · simp only [if_neg hp] at he
      obtain ⟨rfl, -, rfl⟩ := he
      exact ⟨rfl, rfl⟩

/-- What the deleted callbacks are: the null pointers among them do not count. -/
theorem deleted_deleteCallback (cs : List Ptr) :
    lifetimes.deleted (cs.map .deleteCallback) = (cs.filter (· ≠ nullptr)).map .callback := by
  induction cs with
  | nil => rfl
  | cons c cs ih =>
    by_cases hc : c = nullptr
    · simpa [Footprint.deleted, lifetimes, callbackAt, hc] using ih
    · simpa [Footprint.deleted, lifetimes, callbackAt, hc] using ih

/-- Deleting the list with its callbacks is in order exactly when no callback is in it twice. -/
theorem respects_clean (p : Ptr) (cs : List Ptr) :
    lifetimes.Respects (.elements p :: cs.map .deleteCallback ++ [.deleteList p]) ↔
      (cs.filter (· ≠ nullptr)).Nodup := by
  have hdel : lifetimes.deleted (.elements p :: cs.map .deleteCallback ++ [.deleteList p]) =
      (cs.filter (· ≠ nullptr)).map .callback ++ [.list p] := by
    rw [Footprint.deleted_append, ← deleted_deleteCallback]
    rfl
  have hinj : Function.Injective Object.callback := fun _ _ h => Object.callback.inj h
  refine ⟨?_, ?_⟩
  · rintro ⟨honce, -⟩
    rw [hdel, List.nil_append, List.nodup_append] at honce
    exact (List.nodup_map_iff hinj).mp honce.1
  · intro hnodup
    refine ⟨?_, ?_⟩
    · rw [hdel, List.nil_append, List.nodup_append]
      refine ⟨(List.nodup_map_iff hinj).mpr hnodup, List.nodup_singleton _, ?_⟩
      intro o ho o' ho' heq
      obtain ⟨c, -, rfl⟩ := List.mem_map.mp ho
      rw [List.mem_singleton.mp ho'] at heq
      simp at heq
    · rw [List.cons_append, atEach_cons]
      refine ⟨by simp, ?_⟩
      intro pre c post hsplit o ho
      have hc : c ∈ cs.map HeapCall.deleteCallback ++ [.deleteList p] := by simp [hsplit]
      rcases List.mem_append.mp hc with hc | hc
      · obtain ⟨_, _, rfl⟩ := List.mem_map.mp hc
        simp [lifetimes] at ho
      · obtain rfl := List.mem_singleton.mp hc
        simp [lifetimes] at ho

/-- What `cleanCallBack` asks, whatever it is answered. -/
theorem cleanCallBack_commands {u : Unit} (hp : p ≠ nullptr) (hd : h.deleted = [])
    (he : (cleanCallBack p).Exec HeapStep h tr u h') :
    commands tr = .elements p :: (h.elements p).map .deleteCallback ++ [.deleteList p] := by
  rw [cleanCallBack, if_pos hp] at he
  obtain ⟨_, v, tr₁, tr₂, rfl, hloop, he⟩ := Prog.exec_bind.mp he
  obtain ⟨r, w, tr₃, rfl, -, rfl, -, -⟩ := Prog.exec_call_bind.mp he
  rw [commands_append, forEachCallback_commands hd hloop]
  rfl

/-- No list was deleted yet: the list holds what was added. -/
structure Alive (evs : List LinkerEvent) (p : Ptr) (h : LinkerHeap) : Prop where
  notCleaned : ∀ ev ∈ evs, cleans ev = false
  heap : h.deleted = []
  nothing : lifetimes.deleted (commands (calls evs)) = []
  list : added evs = if p = nullptr then [] else h.elements p

/-- The list was deleted, and `linkerCallBackList` still points to it. -/
structure Cleaned (evs : List LinkerEvent) (p : Ptr) : Prop where
  cleaned : ∃ ev ∈ evs, cleans ev = true
  pointer : p ≠ nullptr
  list : .list p ∈ lifetimes.deleted (commands (calls evs))

/-- An operation that deletes nothing. -/
theorem Alive.snoc {evs : List LinkerEvent} {ev : LinkerEvent} (hi : Alive evs ev.pre.1 ev.pre.2)
    (hclean : cleans ev = false) (hheap : ev.post.2.deleted = [])
    (hnone : lifetimes.deleted (commands ev.trace) = [])
    (hlist : added (evs ++ [ev]) =
      if ev.post.1 = nullptr then [] else ev.post.2.elements ev.post.1) :
    Alive (evs ++ [ev]) ev.post.1 ev.post.2 := by
  refine ⟨?_, hheap, ?_, hlist⟩
  · intro ev' hmem
    rcases List.mem_append.mp hmem with hmem | hmem
    · exact hi.notCleaned ev' hmem
    · rwa [List.mem_singleton.mp hmem]
  · rw [calls_append, calls_singleton, commands_append, Footprint.deleted_append, hi.nothing,
      hnone, List.append_nil]

/-- The condition on the next operation while there is no deleted list. -/
theorem Alive.permitted_iff {evs : List LinkerEvent} {ev : LinkerEvent}
    (hi : Alive evs p h) :
    Permitted evs ev ↔
      (ev.op = .cleanCallBack → ((added evs).filter (· ≠ nullptr)).Nodup) := by
  refine ⟨?_, ?_⟩
  · intro hperm hop
    exact (hperm (by rw [hop]; rfl)).2 hop
  · intro hop _
    exact ⟨hi.notCleaned, hop⟩

/-- A load while there is no deleted list. -/
theorem alive_load {evs : List LinkerEvent} (op : LinkerOp) {path : Option Path}
    {f : Path → Ptr → HeapCall} (hi : Alive evs p h)
    (hclean : cleans ⟨op, (p, h), tr, (), (p', h')⟩ = false)
    (hadd : added [⟨op, (p, h), tr, (), (p', h')⟩] = [])
    (hf : ∀ path c, h.answer (f path c) = (.done, h))
    (hdel : ∀ path c, lifetimes.deletes (f path c) = none)
    (he : (onSoLoaded p path f >>= fun _ => pure ((), p)).Exec HeapStep h tr ((), p') h') :
    lifetimes.Respects (commands tr) ∧
      Alive (evs ++ [⟨op, (p, h), tr, (), (p', h')⟩]) p' h' := by
  obtain ⟨_, _, tr₁, _, rfl, hload, rfl, hres, rfl⟩ := Prog.exec_bind.mp he
  obtain ⟨-, rfl⟩ := Prod.mk.inj hres
  rw [List.append_nil] at *
  obtain ⟨rfl, hnone⟩ := onSoLoaded_spec hi.heap hf hdel hload
  refine ⟨Footprint.respects_of_deleted_nil _ hnone, ?_⟩
  refine hi.snoc hclean hi.heap hnone ?_
  rw [added_append, hadd, List.append_nil, hi.list]

/-- An `addLinkerCallBack` while there is no deleted list. -/
theorem alive_add {evs : List LinkerEvent} {c : Ptr} (hi : Alive evs p h)
    (he : ((LinkerOp.addLinkerCallBack c).body p).Exec HeapStep h tr ((), p') h') :
    lifetimes.Respects (commands tr) ∧
      Alive (evs ++ [⟨.addLinkerCallBack c, (p, h), tr, (), (p', h')⟩]) p' h' := by
  obtain ⟨_, _, tr₁, _, rfl, hadd, rfl, hres, rfl⟩ := Prog.exec_bind.mp he
  obtain ⟨-, rfl⟩ := Prod.mk.inj hres
  rw [List.append_nil]
  obtain ⟨hne, hheap, helems, hnone⟩ := addLinkerCallBack_spec hi.heap hadd
  refine ⟨Footprint.respects_of_deleted_nil _ hnone, hi.snoc rfl hheap hnone ?_⟩
  rw [if_neg hne, helems, ← hi.list]
  exact List.filterMap_append

/-- A `cleanCallBack` while there is no deleted list: afterwards there is one, unless there was
no list. -/
theorem alive_clean {evs : List LinkerEvent} (hi : Alive evs p h)
    (he : (LinkerOp.cleanCallBack.body p).Exec HeapStep h tr ((), p') h') :
    (lifetimes.Respects (commands tr) ↔ ((added evs).filter (· ≠ nullptr)).Nodup) ∧
      (Alive (evs ++ [⟨.cleanCallBack, (p, h), tr, (), (p', h')⟩]) p' h' ∨
        Cleaned (evs ++ [⟨.cleanCallBack, (p, h), tr, (), (p', h')⟩]) p') := by
  obtain ⟨_, _, tr₁, _, rfl, hclean, rfl, hres, rfl⟩ := Prog.exec_bind.mp he
  obtain ⟨-, rfl⟩ := Prod.mk.inj hres
  rw [List.append_nil]
  have hlist := hi.list
  by_cases hp : p' = nullptr
  · rw [cleanCallBack, if_neg (not_not.mpr hp)] at hclean
    obtain ⟨rfl, -, rfl⟩ := hclean
    rw [if_pos hp] at hlist
    rw [hlist]
    refine ⟨iff_of_true (Footprint.respects_of_deleted_nil _ rfl) (by simp), .inl ?_⟩
    refine hi.snoc (by simp [cleans, hp]) hi.heap rfl ?_
    rw [if_pos hp, added, List.filterMap_append]
    exact (List.append_nil _).trans hlist
  · rw [if_neg hp] at hlist
    have hcmds := cleanCallBack_commands hp hi.heap hclean
    rw [hcmds, respects_clean, hlist]
    refine ⟨Iff.rfl, .inr ⟨?_, hp, ?_⟩⟩
    · exact ⟨_, List.mem_append_right _ (List.mem_singleton_self _), by simp [cleans, hp]⟩
    · rw [calls_append, calls_singleton, commands_append, hcmds, Footprint.deleted_append,
        Footprint.deleted_append]
      exact List.mem_append_right _ (List.mem_append_right _ (List.mem_singleton_self _))

/-- What an operation does while there is no deleted list. -/
theorem alive_step {evs : List LinkerEvent} {op : LinkerOp}
    (he : (op.body p).Exec HeapStep h tr ((), p') h') (hi : Alive evs p h) {ev : LinkerEvent}
    (hev : ev = ⟨op, (p, h), tr, (), (p', h')⟩) :
    (lifetimes.Respects (commands tr) ↔ Permitted evs ev) ∧
      (Permitted evs ev → Alive (evs ++ [ev]) p' h' ∨ Cleaned (evs ++ [ev]) p') := by
  subst hev
  rw [hi.permitted_iff]
  cases op with
  | addLinkerCallBack c =>
    obtain ⟨hok, halive⟩ := alive_add hi he
    exact ⟨iff_of_true hok (by simp), fun _ => .inl halive⟩
  | cleanCallBack =>
    obtain ⟨hok, hafter⟩ := alive_clean hi he
    exact ⟨hok.trans (by simp), fun _ => hafter⟩
  | onSoLoadedBefore filename =>
    obtain ⟨hok, halive⟩ := alive_load (.onSoLoadedBefore filename) hi rfl rfl
      (answer_loadBefore h) (fun _ _ => rfl) he
    exact ⟨iff_of_true hok (by simp), fun _ => .inl halive⟩
  | onSoLoadedAfter path redirectPath ret =>
    obtain ⟨hok, halive⟩ := alive_load (.onSoLoadedAfter path redirectPath ret) hi rfl rfl
      (answer_loadAfter h redirectPath ret) (fun _ _ => rfl) he
    exact ⟨iff_of_true hok (by simp), fun _ => .inl halive⟩

/-- With a list, deleted or not, the first thing an operation does is to use it. -/
theorem first_command {op : LinkerOp} {u : Unit} (hp : p ≠ nullptr) (huse : usesList op = true)
    (he : (op.body p).Exec HeapStep h tr (u, p') h') :
    ∃ c rest, commands tr = c :: rest ∧ .list p ∈ lifetimes.uses c := by
  cases op with
  | addLinkerCallBack callBack =>
    rw [LinkerOp.body, addLinkerCallBack, if_neg hp] at he
    obtain ⟨r, v, tr', rfl, -⟩ := he
    exact ⟨_, _, rfl, List.mem_singleton_self _⟩
  | cleanCallBack =>
    rw [LinkerOp.body, cleanCallBack, if_pos hp] at he
    obtain ⟨r, v, tr', rfl, -⟩ := he
    exact ⟨_, _, rfl, List.mem_singleton_self _⟩
  | onSoLoadedBefore filename =>
    obtain ⟨path, rfl⟩ := Option.isSome_iff_exists.mp huse
    simp only [LinkerOp.body, onSoLoadedBefore, onSoLoaded, if_pos hp] at he
    obtain ⟨r, v, tr', rfl, -⟩ := he
    exact ⟨_, _, rfl, List.mem_singleton_self _⟩
  | onSoLoadedAfter path redirectPath ret =>
    obtain ⟨path, rfl⟩ := Option.isSome_iff_exists.mp huse
    simp only [LinkerOp.body, onSoLoadedAfter, onSoLoaded, if_pos hp] at he
    obtain ⟨r, v, tr', rfl, -⟩ := he
    exact ⟨_, _, rfl, List.mem_singleton_self _⟩

/-- The other operations are loads of a null path. -/
theorem no_command {op : LinkerOp} {u : Unit} (huse : usesList op = false)
    (he : (op.body p).Exec HeapStep h tr (u, p') h') : tr = [] ∧ p' = p := by
  cases op with
  | addLinkerCallBack callBack => simp [usesList] at huse
  | cleanCallBack => simp [usesList] at huse
  | onSoLoadedBefore filename =>
    obtain rfl := Option.isSome_eq_false_iff.mp huse |> Option.isNone_iff_eq_none.mp
    obtain ⟨rfl, hres, -⟩ := he
    exact ⟨rfl, (Prod.mk.inj hres).2⟩
  | onSoLoadedAfter path redirectPath ret =>
    obtain rfl := Option.isSome_eq_false_iff.mp huse |> Option.isNone_iff_eq_none.mp
    obtain ⟨rfl, hres, -⟩ := he
    exact ⟨rfl, (Prod.mk.inj hres).2⟩

/-- What an operation does after the list was deleted. -/
theorem cleaned_step {evs : List LinkerEvent} {ev : LinkerEvent}
    (hev : ev.Fires LinkerOp.body HeapStep) (hi : Cleaned evs ev.pre.1)
    (hdead : (lifetimes.deleted (commands (calls evs))).Nodup) :
    (lifetimes.RespectsAfter (lifetimes.deleted (commands (calls evs))) (commands ev.trace) ↔
        Permitted evs ev) ∧
      (Permitted evs ev → Cleaned (evs ++ [ev]) ev.post.1) := by
  obtain ⟨ev', hmem, hclean⟩ := hi.cleaned
  cases huse : usesList ev.op with
  | true =>
    have hnot : ¬ Permitted evs ev := by
      intro hperm
      have hno := (hperm huse).1 ev' hmem
      rw [hclean] at hno
      exact absurd hno (by decide)
    obtain ⟨c, rest, hcmds, huses⟩ := first_command hi.pointer huse hev
    refine ⟨iff_of_false ?_ hnot, fun hperm => absurd hperm hnot⟩
    intro hresp
    rw [hcmds] at hresp
    exact hresp.head _ huses hi.list
  | false =>
    obtain ⟨htr, hpost⟩ := no_command huse hev
    have hperm : Permitted evs ev := fun h => by simp [huse] at h
    refine ⟨iff_of_true ?_ hperm, fun _ => ⟨?_, ?_, ?_⟩⟩
    · rw [htr]
      exact Footprint.respectsAfter_nil _ hdead
    · exact ⟨ev', List.mem_append_left _ hmem, hclean⟩
    · rw [hpost]
      exact hi.pointer
    · rw [calls_append, calls_singleton, htr, List.append_nil, hpost]
      exact hi.list

/-- In any order of additions, cleanings and loads: nothing is deleted twice and nothing used
after it was deleted, exactly when every operation is permitted. -/
theorem respects_iff_permitted {evs : List LinkerEvent} {d : Ptr × LinkerHeap}
    (h : LinkerSession (nullptr, LinkerHeap.initial) evs d) :
    lifetimes.Respects (commands (calls evs)) ↔ AtEach Permitted evs := by
  have key : (AtEach Permitted evs → Alive evs d.1 d.2 ∨ Cleaned evs d.1) ∧
      (lifetimes.Respects (commands (calls evs)) ↔ AtEach Permitted evs) := by
    refine Session.inv_history (I := fun evs d =>
      (AtEach Permitted evs → Alive evs d.1 d.2 ∨ Cleaned evs d.1) ∧
        (lifetimes.Respects (commands (calls evs)) ↔ AtEach Permitted evs)) ?_ ?_ h
    · refine ⟨fun _ => .inl ⟨by simp, rfl, rfl, rfl⟩, ?_⟩
      exact iff_of_true (Footprint.respectsAfter_nil _ List.nodup_nil) (atEach_nil _)
    · rintro evs ev - hev ⟨hinv, ih⟩
      have hstep : AtEach Permitted evs →
          (lifetimes.RespectsAfter (lifetimes.deleted (commands (calls evs)))
              (commands ev.trace) ↔ Permitted evs ev) ∧
            (Permitted evs ev → Alive (evs ++ [ev]) ev.post.1 ev.post.2 ∨
              Cleaned (evs ++ [ev]) ev.post.1) := by
        intro hperm
        rcases hinv hperm with hi | hi
        · rw [hi.nothing]
          exact alive_step hev hi rfl
        · have hdead := (ih.mpr hperm).once
          rw [List.nil_append] at hdead
          obtain ⟨hiff, hpost⟩ := cleaned_step hev hi hdead
          exact ⟨hiff, fun hp => .inr (hpost hp)⟩
      rw [calls_append, calls_singleton, commands_append, atEach_snoc, Footprint.Respects,
        Footprint.respectsAfter_append, List.nil_append]
      refine ⟨fun hall => (hstep hall.1).2 hall.2, ?_⟩
      rw [← Footprint.Respects, ih]
      exact and_congr_right fun hperm => (hstep hperm).1
  exact key.2

/-- Two callbacks, a load, and one cleaning at the end. -/
def cleanOnce : List LinkerOp :=
  [.addLinkerCallBack 0x1000, .addLinkerCallBack 0x1100,
    .onSoLoadedBefore (some "libc.so".toList),
    .onSoLoadedAfter (some "libc.so".toList) [] 0x9000, .cleanCallBack]

theorem respects_iff_permitted_cleanOnce :
    lifetimes.Respects (commands (calls (Session.play LinkerOp.body LinkerHeap.answer cleanOnce
      (nullptr, LinkerHeap.initial)))) := by
  obtain ⟨d, h⟩ := Session.play_session LinkerOp.body HeapStep (fun _ _ => .inl rfl) cleanOnce
    (nullptr, LinkerHeap.initial)
  exact (respects_iff_permitted h).mpr (by decide)

/-- A library is loaded after the callbacks were cleaned. -/
def loadAfterClean : List LinkerOp :=
  [.addLinkerCallBack 0x1000, .cleanCallBack, .onSoLoadedBefore (some "libc.so".toList)]

theorem load_uses_deleted_list :
    ¬ ∀ (evs : List LinkerEvent) (d : Ptr × LinkerHeap),
      LinkerSession (nullptr, LinkerHeap.initial) evs d →
      lifetimes.Respects (commands (calls evs)) := by
  intro hall
  obtain ⟨d, h⟩ := Session.play_session LinkerOp.body HeapStep (fun _ _ => .inl rfl)
    loadAfterClean (nullptr, LinkerHeap.initial)
  have hunused := (hall _ d h).unused
  exact absurd hunused (by decide)

end NativeLib.Linker
