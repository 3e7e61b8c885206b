import NativeLib.Tracer.TracerBase

/-! What `isLister` accepts, and that the searches it makes stay within the strings. -/

namespace NativeLib.Tracer

variable {name : Chars}

/-- An entry counts as far as `c_str()` shows it: up to its first `NUL`. -/
def Contains (name : Chars) (entry : List Char) : Prop := text (cStr entry) <:+: text name

/-- The library at a path. -/
def DlInfo.ofName (name : Chars) (hname : NUL ∈ name) : DlInfo :=
  ⟨some name, fun _ h => Option.some_inj.mp h ▸ hname⟩

theorem contains_iff {entry : List Char} (hentry : NUL ∉ entry) :
    Contains name entry ↔ entry <:+: text name := by
  rw [Contains, text_cStr hentry]

theorem any_contains (l : List (List Char)) :
    (l.any fun entry => decide (text (cStr entry) <:+: text name)) = true ↔
      ∃ entry ∈ l, Contains name entry := by
  simp only [List.any_eq_true, decide_eq_true_eq, Contains]

theorem isLister_iff (t : TracerBase) (hname : NUL ∈ name) :
    ∃ verdict, t.isLister (some (.ofName name hname)) = some verdict ∧
      (verdict = true ↔ "/data/".toList <:+: text name ∧
        (∀ forbid ∈ t.forbidSoList, ¬ Contains name forbid) ∧
        (t.isHookAll = true ∨ ∃ filter ∈ t.filterSoList, Contains name filter)) := by
  refine ⟨_, isLister_eq _, ?_⟩
  have hforbid : (t.forbidSoList.any fun forbid => decide (text (cStr forbid) <:+: text name)) =
      false ↔ ∀ forbid ∈ t.forbidSoList, ¬ Contains name forbid := by
    rw [← Bool.not_eq_true, any_contains]
    constructor
    · intro h forbid hmem hc
      exact h ⟨forbid, hmem, hc⟩
    · intro h hany
      obtain ⟨forbid, hmem, hc⟩ := hany
      exact h forbid hmem hc
  rw [DlInfo.ofName]
  simp only [Bool.and_eq_true, Bool.or_eq_true, Bool.not_eq_true', decide_eq_true_eq,
    any_contains, hforbid, and_assoc]

/-- The decision of `isLister` on every path, and its three loops on all strings. -/
theorem isLister_exact (t : TracerBase) (hname : NUL ∈ name) :
    (∃ verdict, t.isLister (some (.ofName name hname)) = some verdict ∧
      (verdict = true ↔ "/data/".toList <:+: text name ∧
        (∀ forbid ∈ t.forbidSoList, ¬ Contains name forbid) ∧
        (t.isHookAll = true ∨ ∃ filter ∈ t.filterSoList, Contains name filter))) ∧
      (∀ entry, NUL ∉ entry → (Contains name entry ↔ entry <:+: text name)) ∧
      ∀ s find : Chars, NUL ∈ s → NUL ∈ find →
        myStrlen (some s) = some (text s).length ∧
        (∀ n, ∃ diff, myStrncmp s find n = some diff) ∧
        ∃ r, myStrstr (some s) (some find) = some r ∧
          (r.isSome = true ↔ text find <:+: text s) := by
  refine ⟨isLister_iff t hname, fun entry hentry => contains_iff hentry, ?_⟩
  intro s find hs hfind
  exact ⟨strlenLoop_eq hs, exists_myStrncmp hs hfind, myStrstr_eq hs hfind⟩

theorem isLister_exact_app :
    (∃ verdict, TracerBase.isLister ⟨false, nullptr, [['x']], [['y'], []], false⟩
        (some (.ofName (cStr "/data/x.so".toList) (nul_mem_cStr _))) = some verdict ∧
      (verdict = true ↔ "/data/".toList <:+: text (cStr "/data/x.so".toList) ∧
        (∀ forbid ∈ [['y'], []], ¬ Contains (cStr "/data/x.so".toList) forbid) ∧
        (false = true ∨ ∃ filter ∈ [['x']], Contains (cStr "/data/x.so".toList) filter))) ∧
      (∀ entry, NUL ∉ entry → (Contains (cStr "/data/x.so".toList) entry ↔
        entry <:+: text (cStr "/data/x.so".toList))) ∧
      ∀ s find : Chars, NUL ∈ s → NUL ∈ find →
        myStrlen (some s) = some (text s).length ∧
        (∀ n, ∃ diff, myStrncmp s find n = some diff) ∧
        ∃ r, myStrstr (some s) (some find) = some r ∧
          (r.isSome = true ↔ text find <:+: text s) :=
  isLister_exact _ (nul_mem_cStr _)

/-- An entry that starts with a `NUL` is found everywhere. -/
theorem isLister_cuts : ¬ ∀ (t : TracerBase) (name : Chars) (hname : NUL ∈ name),
    t.isLister (some (.ofName name hname)) = some true ↔
      "/data/".toList <:+: text name ∧ (∀ forbid ∈ t.forbidSoList, ¬ forbid <:+: text name) ∧
        (t.isHookAll = true ∨ ∃ filter ∈ t.filterSoList, filter <:+: text name) := by
  intro h
  have hcut := (h ⟨true, nullptr, [], [[NUL]], false⟩ (cStr "/data/".toList)
    (nul_mem_cStr _)).mpr (by decide)
  exact absurd hcut (by decide)

end NativeLib.Tracer
