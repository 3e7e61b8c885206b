import NativeLib.Memory.MemoryMap
import NativeLib.ProcMaps.RecordList

/-! What the maps file shows of a memory map, and what `pmparser_parse` reads back: the ranges and
permissions of all mappings, and of their names what stands before a blank. -/

namespace NativeLib.HideMaps

open Memory ProcMaps

/-- The record the parser makes of the mapping. -/
def record {limit : ℕ} (m : Mapping limit) : ProcmapsStruct :=
  ⟨m.start, m.stop, m.perms.r, m.perms.w, m.perms.x, cutPath m.path⟩

variable {abi : Abi} {m : Mapping abi.limit} {mappings : List (Mapping abi.limit)}
  {lines : List Line} {alloc : ℕ → Ptr} {heap : NodeHeap} {it : ProcmapsIterator}

/-- The entry is that of the mapping. -/
structure IsEntry (m : Mapping abi.limit) (e : MapsEntry abi.bits) : Prop where
  start : e.start = m.start
  stop : e.stop = m.stop
  perms : e.perms = m.perms
  path : e.path = m.path

/-- `lines` is what the maps file shows for the mappings. -/
def Listing (mappings : List (Mapping abi.limit)) (lines : List Line) : Prop :=
  ∃ entries, List.Forall₂ IsEntry mappings entries ∧ Shows entries lines

theorem stop_lt_bits (m : Mapping abi.limit) : m.stop < 2 ^ abi.bits := by
  have hle := m.le_limit
  have hpos := m.start_pos
  unfold Mapping.stop Mapping.length
  unfold Abi.limit pageSize at hle
  omega

/-- A mapping as the kernel shows it, private and of no file in particular. -/
def mapsEntry (m : Mapping abi.limit) : MapsEntry abi.bits :=
  { MapsEntry.plain m.start m.stop m.path (Nat.lt_add_of_pos_right m.nonempty) (stop_lt_bits m)
      m.path_newline m.path_nul with
    perms := m.perms }

/-- The lines of these entries. -/
def mapsLines (mappings : List (Mapping abi.limit)) : List Line :=
  mappings.map fun m => (mapsEntry m).line 1

/-- Every memory map has a listing. -/
theorem listing_mapsLines (mappings : List (Mapping abi.limit)) :
    Listing mappings (mapsLines mappings) := by
  refine ⟨mappings.map mapsEntry, ?_, ?_⟩
  · rw [List.forall₂_map_right_iff, List.forall₂_same]
    exact fun m _ => ⟨rfl, rfl, rfl, rfl⟩
  · rw [mapsLines, ← Function.comp_def (fun e : MapsEntry abi.bits => e.line 1), ← List.map_map]
    exact shows_line _ 1

theorem mapsLines_short (h : ∀ m ∈ mappings, m.path.length < 900) :
    ∀ line ∈ mapsLines mappings, line.length < 1024 := by
  refine List.forall_mem_map.mpr fun m hm => ?_
  have hle := line_length_le (mapsEntry m) 1
  have hpath : (mapsEntry m).path.length < 900 := h m hm
  omega

theorem records_eq {entries : List (MapsEntry abi.bits)}
    (h : List.Forall₂ IsEntry mappings entries) :
    entries.map MapsEntry.record = mappings.map record := by
  induction h with
  | nil => rfl
  | cons hentry _ ih =>
    obtain ⟨hstart, hstop, hperms, hpath⟩ := hentry
    rw [List.map_cons, List.map_cons, ih, MapsEntry.record, hstart, hstop, hperms, hpath]
    rfl

namespace Listing

/-- The entries give the records of the mappings. -/
theorem entries (h : Listing mappings lines) : ∃ entries : List (MapsEntry abi.bits),
    Shows entries lines ∧ entries.map MapsEntry.record = mappings.map record := by
  obtain ⟨entries, hentries, hshows⟩ := h
  exact ⟨entries, hshows, records_eq hentries⟩

theorem length_eq (h : Listing mappings lines) : lines.length = mappings.length := by
  obtain ⟨entries, hentries, hshows⟩ := h
  rw [← hshows.length_eq, hentries.length_eq]

/-- What `pmparser_parse` needs of a listing that it reads to the end. -/
theorem of_parsed (h : Listing mappings lines)
    (hparse : pmparserParse abi alloc lines.flatten = some (heap, it)) :
    mappings.length < 2 ^ 31 ∧ ∀ line ∈ lines, line.length < 1024 := by
  obtain ⟨entries, hshows, -⟩ := h.entries
  rw [← h.length_eq]
  exact shows_of_pmparserParse hshows hparse

/-- The list holds the records of the mappings, unless there is one only. -/
theorem holds (h : Listing mappings lines) (hinj : Function.Injective alloc)
    (hne : ∀ i, alloc i ≠ nullptr) (hone : mappings.length ≠ 1)
    (hlt : mappings.length < 2 ^ 31) (hshort : ∀ line ∈ lines, line.length < 1024) :
    ∃ heap it, pmparserParse abi alloc lines.flatten = some (heap, it) ∧
      heap.Holds it.current (mappings.map record) := by
  obtain ⟨entries, hshows, hrecords⟩ := h.entries
  have hlength : (entries.map MapsEntry.record).length = mappings.length := by
    rw [hrecords, List.length_map]
  rw [← h.length_eq] at hone hlt hlength
  rcases Nat.eq_zero_or_pos lines.length with hzero | hpos
  · obtain rfl := List.length_eq_zero_iff.mp hzero
    rw [← hrecords, List.length_eq_zero_iff.mp (hlength.trans hzero)]
    exact ⟨_, _, pmparserParse_nil, [], .nil, rfl⟩
  · obtain ⟨s, hs, hbuilt⟩ := pmparserParse_shows hshows hinj hshort hpos hlt
    exact ⟨_, _, hs, hrecords ▸ (hbuilt.works hne (by omega)).holds⟩

/-- The list of one mapping is a cycle. -/
theorem loops (h : Listing mappings lines) (hinj : Function.Injective alloc)
    (hne : ∀ i, alloc i ≠ nullptr) (hone : mappings.length = 1)
    (hparse : pmparserParse abi alloc lines.flatten = some (heap, it)) :
    heap.Loops it.current := by
  obtain ⟨entries, hshows, hrecords⟩ := h.entries
  obtain ⟨hlt, hshort⟩ := shows_of_pmparserParse hshows hparse
  rw [← h.length_eq] at hone
  obtain ⟨s, hs, hbuilt⟩ := pmparserParse_shows hshows hinj hshort (by omega) hlt
  rw [hparse] at hs
  obtain ⟨rfl, rfl⟩ := Prod.mk.inj (Option.some.inj hs)
  exact hbuilt.loops hne (by rw [List.length_map, hshows.length_eq, hone])

end Listing

end NativeLib.HideMaps
