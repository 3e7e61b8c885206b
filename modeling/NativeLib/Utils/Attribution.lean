import NativeLib.Utils.AppUtils

/-! The name that `getSymbolforAddress` returns: the last one shown up to the first mapping that
reaches the address, where a mapping reaches its own end and a mapping without a name inherits
the name before it. -/

namespace NativeLib.Utils

open HideMaps ProcMaps

variable {w : ℕ} {a : ℕ} {entries : List (MapsEntry w)}

/-- `a` is an address of the mapping. -/
def holds (a : ℕ) (e : MapsEntry w) : Bool := e.start ≤ a ∧ a < e.stop

/-- The test of `getSymbolforAddress`. -/
def reaches (a : ℕ) (e : MapsEntry w) : Bool := e.start ≤ a ∧ a ≤ e.stop

/-- The ranges ascend and do not overlap. -/
def Ascending (entries : List (MapsEntry w)) : Prop :=
  entries.Pairwise fun e f => e.stop ≤ f.start

instance (entries : List (MapsEntry w)) : Decidable (Ascending entries) :=
  inferInstanceAs (Decidable (List.Pairwise _ _))

/-- `name` is the name of the mapping that `a` lies in, if there is one and it has a name. -/
def IsSymbol (a : ℕ) (entries : List (MapsEntry w)) (name : List Char) : Prop :=
  (∃ e ∈ entries, holds a e = true ∧ name = e.path) ∨
    (∀ e ∈ entries, holds a e = false) ∧ name = []

instance (a : ℕ) (entries : List (MapsEntry w)) (name : List Char) :
    Decidable (IsSymbol a entries name) :=
  inferInstanceAs (Decidable (_ ∨ _))

/-- `mapname` after several lines. -/
def lastName (name : List Char) (entries : List (MapsEntry w)) : List Char :=
  entries.foldl nextName name

/-- The name of the next mapping, if it begins at `a`. -/
def nameFrom (a : ℕ) : List (MapsEntry w) → List Char
  | [] => []
  | e :: _ => if e.start = a then e.path else []

/-- The names up to the first mapping that reaches `a` fit into the buffer. If `a` lies in that
mapping, its name holds no white space, and it has one unless none came before it; at the end of
that mapping, the last name so far is the one of the mapping that begins there. -/
def Attributable (a : ℕ) (entries : List (MapsEntry w)) : Prop :=
  let before := entries.takeWhile (!reaches a ·)
  match entries.dropWhile (!reaches a ·) with
  | [] => ∀ e ∈ before, Fits e
  | m :: after =>
    (∀ e ∈ before ++ [m], Fits e) ∧
      if a < m.stop then
        (∀ c ∈ m.path, FindSyscall.isSpace c = false) ∧
          (m.path = [] → ∀ e ∈ before, word e.path = [])
      else lastName [] (before ++ [m]) = nameFrom a after

/-- The loop, over the entries. -/
def nameIn (a : ℕ) : List (MapsEntry w) → List Char → Option (List Char)
  | [], _ => some []
  | e :: entries, name =>
    if Fits e then
      if reaches a e then some (nextName name e) else nameIn a entries (nextName name e)
    else none

theorem symbolIn_shows {address : BitVec w} {lines : List Line} (h : Shows entries lines)
    (v : SymbolVars w) : symbolIn address lines v = nameIn address.toNat entries v.mapname := by
  induction h generalizing v with
  | nil => rfl
  | @cons e line entries lines hline _ ih =>
    obtain ⟨pad, rfl⟩ := hline
    rw [symbolIn, nameIn, sscanf_line]
    by_cases hfits : Fits e
    · have htest : (address ≥ (v.after e).begin ∧ address ≤ (v.after e).«end») ↔
          reaches address.toNat e = true := by
        have hstart : e.start < 2 ^ w := e.start_lt.trans e.stop_lt
        simp [SymbolVars.after, reaches, BitVec.le_def, Nat.mod_eq_of_lt hstart,
          Nat.mod_eq_of_lt e.stop_lt]
      rw [if_pos hfits, if_pos hfits]
      simp only [Option.bind_eq_bind, Option.bind_some, htest, ih]
      rfl
    · rw [if_neg hfits, if_neg hfits]
      rfl

/-- What the loop returns. -/
theorem nameIn_eq_some {name r : List Char} : nameIn a entries name = some r ↔
    match entries.dropWhile (!reaches a ·) with
    | [] => (∀ e ∈ entries.takeWhile (!reaches a ·), Fits e) ∧ r = []
    | m :: _ => (∀ e ∈ entries.takeWhile (!reaches a ·) ++ [m], Fits e) ∧
        r = lastName name (entries.takeWhile (!reaches a ·) ++ [m]) := by
  induction entries generalizing name with
  | nil => simp [nameIn, eq_comm]
  | cons e entries ih =>
    rw [nameIn]
    by_cases hfits : Fits e
    · rw [if_pos hfits]
      by_cases hreach : reaches a e = true
      · rw [if_pos hreach, List.dropWhile_cons_of_neg (by simp [hreach]),
          List.takeWhile_cons_of_neg (by simp [hreach])]
        simp [hfits, lastName, eq_comm]
      · rw [if_neg hreach, ih, List.dropWhile_cons_of_pos (by simp [hreach]),
          List.takeWhile_cons_of_pos (by simp [hreach])]
        cases entries.dropWhile (!reaches a ·) with
        | nil => simp [hfits]
        | cons m after => simp [hfits, lastName]
    · rw [if_neg hfits]
      by_cases hreach : reaches a e = true
      · rw [List.dropWhile_cons_of_neg (by simp [hreach]),
          List.takeWhile_cons_of_neg (by simp [hreach])]
        simp [hfits]
      · rw [List.dropWhile_cons_of_pos (by simp [hreach]),
          List.takeWhile_cons_of_pos (by simp [hreach])]
        cases entries.dropWhile (!reaches a ·) with
        | nil => simp [hfits]
        | cons m after => simp [hfits]

theorem reaches_of_holds {e : MapsEntry w} (h : holds a e = true) : reaches a e = true := by
  simp only [holds, reaches, decide_eq_true_eq] at h ⊢
  omega

theorem not_holds_of_not_reaches {e : MapsEntry w} (h : reaches a e = false) :
    holds a e = false := by
  rw [← Bool.not_eq_true] at h ⊢
  exact fun hh => h (reaches_of_holds hh)

theorem isSymbol_skip {before : List (MapsEntry w)} (h : ∀ e ∈ before, holds a e = false)
    {name : List Char} : IsSymbol a (before ++ entries) name ↔ IsSymbol a entries name := by
  unfold IsSymbol
  refine or_congr ⟨?_, ?_⟩ (and_congr_left' ⟨?_, ?_⟩)
  · rintro ⟨e, he, hh, hname⟩
    rcases List.mem_append.mp he with he | he
    · simp [h e he] at hh
    · exact ⟨e, he, hh, hname⟩
  · rintro ⟨e, he, hrest⟩
    exact ⟨e, List.mem_append_right _ he, hrest⟩
  · intro hall e he
    exact hall e (List.mem_append_right _ he)
  · intro hall e he
    rcases List.mem_append.mp he with he | he
    · exact h e he
    · exact hall e he

theorem isSymbol_none (h : ∀ e ∈ entries, holds a e = false) {name : List Char} :
    IsSymbol a entries name ↔ name = [] := by
  refine ⟨?_, fun hname => .inr ⟨h, hname⟩⟩
  intro hsymbol
  rcases hsymbol with ⟨e, he, hh, -⟩ | ⟨-, hname⟩
  · simp [h e he] at hh
  · exact hname

/-- In ascending ranges the first mapping that holds the address is the only one. -/
theorem isSymbol_first {m : MapsEntry w} (h : Ascending (m :: entries)) (hm : holds a m = true)
    {name : List Char} : IsSymbol a (m :: entries) name ↔ name = m.path := by
  have hnone : ∀ e ∈ entries, holds a e = false := by
    intro e he
    have hle := List.rel_of_pairwise_cons h he
    simp only [holds, decide_eq_true_eq, decide_eq_false_iff_not] at hm ⊢
    omega
  unfold IsSymbol
  refine ⟨?_, fun hname => .inl ⟨m, List.mem_cons_self .., hm, hname⟩⟩
  intro hsymbol
  rcases hsymbol with ⟨e, he, hh, hname⟩ | ⟨hall, -⟩
  · rcases List.mem_cons.mp he with rfl | he
    · exact hname
    · simp [hnone e he] at hh
  · simp [hall m (List.mem_cons_self ..)] at hm

/-- At the end of a mapping only the next one can begin. -/
theorem isSymbol_from {after : List (MapsEntry w)} (h : Ascending after)
    (hle : ∀ e ∈ after, a ≤ e.start) {name : List Char} :
    IsSymbol a after name ↔ name = nameFrom a after := by
  cases after with
  | nil => simp [IsSymbol, nameFrom]
  | cons n after =>
    have hn := hle n (List.mem_cons_self ..)
    have hlt := n.start_lt
    rw [nameFrom]
    by_cases hstart : n.start = a
    · rw [if_pos hstart]
      apply isSymbol_first h
      simp only [holds, decide_eq_true_eq]
      omega
    · rw [if_neg hstart]
      apply isSymbol_none
      intro e he
      simp only [holds, decide_eq_false_iff_not]
      rcases List.mem_cons.mp he with rfl | he
      · omega
      · have := List.rel_of_pairwise_cons h he
        omega

/-- The first mapping that reaches the address decides. -/
theorem isSymbol_reached {before after : List (MapsEntry w)} {m : MapsEntry w}
    (hbefore : ∀ e ∈ before, holds a e = false) (hsorted : Ascending (m :: after))
    (hreach : reaches a m = true) {name : List Char} :
    IsSymbol a (before ++ m :: after) name ↔
      name = if a < m.stop then m.path else nameFrom a after := by
  simp only [reaches, decide_eq_true_eq] at hreach
  rw [isSymbol_skip hbefore]
  by_cases hlt : a < m.stop
  · rw [if_pos hlt]
    exact isSymbol_first hsorted (by simp only [holds, decide_eq_true_eq]; omega)
  · rw [if_neg hlt, ← List.singleton_append, isSymbol_skip]
    · apply isSymbol_from hsorted.of_cons
      intro e he
      have := List.rel_of_pairwise_cons hsorted he
      omega
    · simp only [List.mem_singleton, forall_eq, holds, decide_eq_false_iff_not]
      omega

theorem lastName_snoc (name : List Char) (before : List (MapsEntry w)) (m : MapsEntry w) :
    lastName name (before ++ [m]) = nextName (lastName name before) m := by
  simp [lastName]

theorem lastName_noSpace {name : List Char} (hname : ∀ c ∈ name, FindSyscall.isSpace c = false) :
    ∀ c ∈ lastName name entries, FindSyscall.isSpace c = false := by
  induction entries generalizing name with
  | nil => exact hname
  | cons e entries ih =>
    apply ih
    unfold nextName
    split
    · exact hname
    · exact word_noSpace e.path

/-- No name so far: none of the mappings has one. -/
theorem lastName_eq_nil : ∀ {entries : List (MapsEntry w)} {name : List Char},
    lastName name entries = [] ↔ name = [] ∧ ∀ e ∈ entries, word e.path = []
  | [], name => by simp [lastName]
  | e :: entries, name => by
    have ih := @lastName_eq_nil entries (nextName name e)
    rw [lastName, List.foldl_cons]
    rw [lastName] at ih
    rw [ih, nextName]
    by_cases he : word e.path = [] <;> simp [he]

/-- The name of a mapping is the last name when it can be read and is not missing. -/
theorem lastName_eq_path {before : List (MapsEntry w)} {m : MapsEntry w} :
    lastName [] (before ++ [m]) = m.path ↔
      (∀ c ∈ m.path, FindSyscall.isSpace c = false) ∧
        (m.path = [] → ∀ e ∈ before, word e.path = []) := by
  rw [lastName_snoc, nextName, ← word_eq_self]
  by_cases hword : word m.path = []
  · rw [if_pos hword, hword]
    refine ⟨?_, ?_⟩
    · intro h
      have hpath : m.path = [] := by
        rw [← hword, eq_comm, word_eq_self, ← h]
        exact lastName_noSpace (by simp)
      rw [hpath] at h ⊢
      exact ⟨rfl, fun _ => (lastName_eq_nil.mp h).2⟩
    · rintro ⟨hpath, h⟩
      rw [← hpath]
      exact lastName_eq_nil.mpr ⟨rfl, h hpath.symm⟩
  · rw [if_neg hword]
    refine ⟨fun h => ⟨h, fun hpath => ?_⟩, fun h => h.1⟩
    rw [hpath] at hword
    exact absurd rfl hword

/-- The name returned is that of the mapping the address lies in exactly when the entries are
attributable. -/
theorem getSymbolforAddress_iff {lines : List Line} (hshows : Shows entries lines)
    (hascending : Ascending entries) {address : BitVec w} (hne : address ≠ 0)
    (begin «end» inode foo : BitVec w) :
    (∃ name, getSymbolforAddress address lines begin «end» inode foo = some name ∧
        IsSymbol address.toNat entries name) ↔
      Attributable address.toNat entries := by
  set a := address.toNat
  have hsplit := List.takeWhile_append_dropWhile (p := (!reaches a ·)) (l := entries)
  have hbefore : ∀ e ∈ entries.takeWhile (!reaches a ·), holds a e = false := by
    intro e he
    apply not_holds_of_not_reaches
    simpa using List.mem_takeWhile_imp he
  rw [getSymbolforAddress, if_neg hne]
  simp only [symbolIn_shows hshows, nameIn_eq_some]
  unfold Attributable
  cases hdrop : entries.dropWhile (!reaches a ·) with
  | nil =>
    rw [hdrop, List.append_nil] at hsplit
    rw [hsplit] at hbefore ⊢
    simp [isSymbol_none hbefore]
  | cons m after =>
    have hreach : reaches a m = true := by
      have hhead := List.head?_dropWhile_not (!reaches a ·) entries
      rw [hdrop] at hhead
      simpa using hhead
    have hsorted : Ascending (m :: after) := by
      rw [← hdrop]
      exact List.Pairwise.sublist (List.dropWhile_sublist _) hascending
    have hsymbol : ∀ name, IsSymbol a entries name ↔
        name = if a < m.stop then m.path else nameFrom a after := by
      intro name
      rw [← hsplit, hdrop]
      exact isSymbol_reached hbefore hsorted hreach
    have hname : (if a < m.stop then
        (∀ c ∈ m.path, FindSyscall.isSpace c = false) ∧
          (m.path = [] → ∀ e ∈ entries.takeWhile (!reaches a ·), word e.path = [])
        else lastName [] (entries.takeWhile (!reaches a ·) ++ [m]) = nameFrom a after) ↔
        lastName [] (entries.takeWhile (!reaches a ·) ++ [m]) =
          if a < m.stop then m.path else nameFrom a after := by
      split
      · exact lastName_eq_path.symm
      · rfl
    simp only [hsymbol, hname]
    refine ⟨?_, ?_⟩
    · rintro ⟨name, ⟨hfits, rfl⟩, h⟩
      exact ⟨hfits, h⟩
    · rintro ⟨hfits, h⟩
      exact ⟨_, ⟨hfits, rfl⟩, h⟩

/-- Two libraries side by side. -/
def twoLibraries : List (MapsEntry 64) :=
  [.plain 0x1000 0x2000 ['/', 'a'] page_lt_page (by decide) (by decide) (by decide),
    .plain 0x2000 0x3000 ['/', 'b'] (by decide) (by decide) (by decide) (by decide)]

theorem getSymbolforAddress_iff_second :
    (∃ name, getSymbolforAddress 0x2800#64 (twoLibraries.map (·.line 1)) 0 0 0 0 = some name ∧
      IsSymbol (0x2800#64).toNat twoLibraries name) :=
  (getSymbolforAddress_iff (shows_line twoLibraries 1) (by decide) (by decide) 0 0 0 0).mpr
    ⟨by decide, forall_of_any (by decide), by decide⟩

/-- The first address of the second library is said to lie in the first. -/
theorem boundary_misattributed : Ascending twoLibraries ∧
    ¬ ∃ name, getSymbolforAddress 0x2000#64 (twoLibraries.map (·.line 1)) 0 0 0 0 = some name ∧
      IsSymbol (0x2000#64).toNat twoLibraries name := by
  refine ⟨by decide, ?_⟩
  rintro ⟨name, hname, hsymbol⟩
  rw [getSymbolforAddress, if_neg (by decide), symbolIn_shows (shows_line twoLibraries 1)] at hname
  obtain rfl : ['/', 'a'] = name := Option.some.inj hname
  revert hsymbol
  decide

end NativeLib.Utils
