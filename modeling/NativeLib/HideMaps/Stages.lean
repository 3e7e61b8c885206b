import NativeLib.HideMaps.Detection
import NativeLib.HideMaps.Listing

/-! The memory between the calls of the sequence: what the range of the mapping holds, what
the backup holds, and nothing else changed. One lemma for each call says how it moves on. -/

namespace NativeLib.HideMaps

open Interaction Memory
open Prog (call)

variable {limit : ℕ} {M₀ M : Mem} {m : Mapping limit} {b : ℕ} {byte : ℕ → UInt8}

def readWrite : Perms := ⟨true, true, false⟩

/-- `M` comes from `M₀`: the range of `m` holds `cell`, the backup at `b` holds `byte`. -/
structure Stage (M₀ : Mem) (m : Mapping limit) (b : ℕ) (cell : ℕ → Option Cell)
    (byte : ℕ → UInt8) (M : Mem) : Prop where
  range : ∀ a, m.Has a → M a = cell a
  backup : ∀ a, Within b m.length a → M a = some ⟨byte a, readWrite, []⟩
  other : ∀ a, ¬ m.Has a → ¬ Within b m.length a → M a = M₀ a
  apart : Apart m.start m.length b m.length

/-- The address of `m` whose byte the backup keeps at `a`. -/
def source (m : Mapping limit) (b a : ℕ) : ℕ := m.start + (a - b)

theorem source_has {a : ℕ} (h : Within b m.length a) : m.Has (source m b a) := by
  unfold Mapping.Has source Within at *
  omega

theorem stage_place (h : ∀ a, m.Has a → M₀ a = some (m.cellAt a)) (hfree : M₀.Free b m.length) :
    Stage M₀ m b (fun a => some (m.cellAt a)) (fun _ => 0) (M₀.place b m.length readWrite) := by
  have hap : Apart m.start m.length b m.length :=
    hfree.apart (P := fun _ => True) fun a ha => ⟨_, h a ha, trivial⟩
  refine ⟨?_, ?_, ?_, ?_⟩
  · intro a ha
    rw [Mem.place_out (hap a ha), h a ha]
  · intro a ha
    rw [Mem.place_in ha]
  · intro a _ hb
    rw [Mem.place_out hb]
  · exact hap

/-- What was copied out of an address and back into it is its byte. -/
theorem source_back {a : ℕ} (h : m.Has a) : source m b (b + (a - m.start)) = a := by
  unfold Mapping.Has source Within at *
  omega

namespace Stage

theorem congr {cell cell' : ℕ → Option Cell} (h : Stage M₀ m b cell byte M)
    (hcell : ∀ a, m.Has a → cell a = cell' a) : Stage M₀ m b cell' byte M :=
  ⟨fun a ha => (h.range a ha).trans (hcell a ha), h.backup, h.other, h.apart⟩

theorem protect {cell : ℕ → Option Cell} (h : Stage M₀ m b cell byte M) (p : Perms) :
    Stage M₀ m b (fun a => (cell a).map ({ · with perms := p })) byte
      (M.protect m.start m.length p) := by
  refine ⟨?_, ?_, ?_, ?_⟩
  · intro a ha
    rw [Mem.protect_in ha, h.range a ha]
  · intro a ha
    rw [Mem.protect_out fun hm => h.apart a hm ha, h.backup a ha]
  · intro a hm hb
    rw [Mem.protect_out hm, h.other a hm hb]
  · exact h.apart

theorem copyOut {cell : ℕ → Cell} (h : Stage M₀ m b (fun a => some (cell a)) byte M) :
    Stage M₀ m b (fun a => some (cell a)) (fun a => (cell (source m b a)).byte)
      (M.copy b m.start m.length) := by
  refine ⟨?_, ?_, ?_, ?_⟩
  · intro a ha
    rw [Mem.copy_out (h.apart a ha), h.range a ha]
  · intro a ha
    have hsrc : M (m.start + (a - b)) = some (cell (source m b a)) :=
      h.range _ (source_has ha)
    rw [Mem.copy_in ha, h.backup a ha, Option.map_some, hsrc, Option.elim_some]
  · intro a hm hb
    rw [Mem.copy_out hb, h.other a hm hb]
  · exact h.apart

theorem unmap {cell : ℕ → Option Cell} (h : Stage M₀ m b cell byte M) :
    Stage M₀ m b (fun _ => none) byte (M.unmap m.start m.length) := by
  refine ⟨?_, ?_, ?_, ?_⟩
  · intro a ha
    rw [Mem.unmap_in ha]
  · intro a ha
    rw [Mem.unmap_out fun hm => h.apart a hm ha, h.backup a ha]
  · intro a hm hb
    rw [Mem.unmap_out hm, h.other a hm hb]
  · exact h.apart

theorem restore (h : Stage M₀ m b (fun _ => none) byte M) (p : Perms) :
    Stage M₀ m b (fun _ => some ⟨0, p, []⟩) byte (M.place m.start m.length p) := by
  refine ⟨?_, ?_, ?_, ?_⟩
  · intro a ha
    rw [Mem.place_in ha]
  · intro a ha
    rw [Mem.place_out fun hm => h.apart a hm ha, h.backup a ha]
  · intro a hm hb
    rw [Mem.place_out hm, h.other a hm hb]
  · exact h.apart

theorem copyBack {cell : ℕ → Cell} (h : Stage M₀ m b (fun a => some (cell a)) byte M) :
    Stage M₀ m b (fun a => some { cell a with byte := byte (b + (a - m.start)) }) byte
      (M.copy m.start b m.length) := by
  refine ⟨?_, ?_, ?_, ?_⟩
  · intro a ha
    have hw : Within b m.length (b + (a - m.start)) := by
      unfold Mapping.Has Within at *
      omega
    rw [Mem.copy_in ha, h.range a ha, Option.map_some, h.backup _ hw, Option.elim_some]
  · intro a ha
    rw [Mem.copy_out fun hm => h.apart a hm ha, h.backup a ha]
  · intro a hm hb
    rw [Mem.copy_out hm, h.other a hm hb]
  · exact h.apart

end Stage

/-- A range of the same length placed elsewhere leaves out an address of the mapping. -/
theorem exists_not_within {v : ℕ} (h : v ≠ m.start) :
    ∃ a, m.Has a ∧ ¬ Within v m.length a := by
  have hpos : 0 < m.length := m.nonempty
  rcases Nat.lt_or_gt_of_ne h with hlt | hgt
  · refine ⟨m.start + m.length - 1, ?_⟩
    unfold Mapping.Has Within
    omega
  · refine ⟨m.start, ?_⟩
    unfold Mapping.Has Within
    omega

theorem legal_of_kstep {abi : Abi} {c : KernelCall} {r : KAnswer} {M' : Mem}
    (h : KStep abi.limit M c r M') : Legal abi c r := by
  have hbits := two_pow_bits abi
  cases h with
  | mapped addr prot hf hpos hlim =>
    unfold Legal
    unfold Abi.limit at hlim
    rw [MAX_ERRNO, pageSize] at *
    omega
  | permitted prot h => simpa [Legal] using Nat.lt_of_add_right_lt hbits
  | unmapped addr length => simpa [Legal] using Nat.lt_of_add_right_lt hbits
  | copied hsrc hdest => simpa [Legal] using Nat.lt_of_add_right_lt hbits
  | failed hc hpos hle => exact ⟨hc, hpos, hle⟩

section Record

variable {abi : Abi} (n : Mapping abi.limit)

/-- The sequence works on the whole mapping. -/
theorem sub_stop_start : abi.sub n.stop n.start = n.length := by
  have hle := n.le_limit
  have hpos := n.start_pos
  have hlt : n.length < 2 ^ abi.bits := by
    unfold Mapping.length
    unfold Abi.limit at hle
    omega
  have hsub : n.start + n.length + 2 ^ abi.bits - n.start = n.length + 2 ^ abi.bits := by omega
  rw [Abi.sub, Mapping.stop, hsub, Nat.add_mod_right, Nat.mod_eq_of_lt hlt]

theorem remapBackedUp_record (wrapper : KAnswer → abi.Long) (b : ℕ) :
    remapBackedUp wrapper (record n) b =
      call (.memcpy b n.start n.length) >>= fun _ =>
      failureReturn wrapper (.munmap n.start n.length) fun _ =>
      failureReturn wrapper (.mmap n.start n.length (getProt (record n))) fun _ =>
      failureReturn wrapper (.mprotect n.start n.length (getProt (record n) ||| PROT_WRITE))
        fun _ => call (.memcpy n.start b n.length) >>= fun _ =>
          failureReturnUnless n.perms.w wrapper
            (.mprotect n.start n.length (getProt (record n))) (pure 0) := by
  rw [← sub_stop_start n]
  rfl

theorem remap_record (wrapper : KAnswer → abi.Long) :
    remap wrapper (record n) =
      failureReturn wrapper (.mmap 0 n.length (PROT_READ ||| PROT_WRITE)) fun backupAddress =>
      failureReturnUnless n.perms.r wrapper
        (.mprotect n.start n.length (getProt (record n) ||| PROT_READ))
        (remapBackedUp wrapper (record n) backupAddress.toNat) := by
  rw [← sub_stop_start n]
  rfl

theorem ofProt_getProt : Perms.ofProt (getProt (record n)) = n.perms := by
  obtain ⟨⟨r, w, x⟩, hp⟩ : ∃ p, n.perms = p := ⟨_, rfl⟩
  simp only [getProt, record, hp]
  cases r <;> cases w <;> cases x <;> rfl

theorem ofProt_getProt_read :
    Perms.ofProt (getProt (record n) ||| PROT_READ) = { n.perms with r := true } := by
  rw [Perms.ofProt_or, ofProt_getProt]
  simp [Perms.ofProt, PROT_READ, PROT_WRITE, PROT_EXEC]

theorem ofProt_getProt_write :
    Perms.ofProt (getProt (record n) ||| PROT_WRITE) = { n.perms with w := true } := by
  rw [Perms.ofProt_or, ofProt_getProt]
  simp [Perms.ofProt, PROT_READ, PROT_WRITE, PROT_EXEC]

end Record

/-- A mapping of one page, to try the sequences on. -/
def page (perms : Perms) (path : List Char) (hnewline : '\n' ∉ path) (hnul : '\x00' ∉ path) :
    Mapping (Abi.limit .aarch64) where
  start := 0x1000
  bytes := List.replicate 4096 0x7f
  perms := perms
  path := path
  start_pos := by decide
  nonempty := by rw [List.length_replicate]; decide
  le_limit := by rw [List.length_replicate]; decide
  start_page := by decide
  length_page := by rw [List.length_replicate]; decide
  path_newline := hnewline
  path_nul := hnul

theorem page_length {perms : Perms} {path : List Char} {hnewline : '\n' ∉ path}
    {hnul : '\x00' ∉ path} : (page perms path hnewline hnul).length = 4096 :=
  List.length_replicate

theorem newline_notMem_libapp : '\n' ∉ "/data/app/libapp.so".toList := by decide

theorem nul_notMem_libapp : '\x00' ∉ "/data/app/libapp.so".toList := by decide

def codePage : Mapping (Abi.limit .aarch64) :=
  page ⟨true, false, true⟩ "/data/app/libapp.so".toList newline_notMem_libapp nul_notMem_libapp

theorem codePage_start : codePage.start = 0x1000 := rfl

theorem codePage_length : codePage.length = 4096 := page_length

def onePage (p : Mapping (Abi.limit .aarch64)) : MemoryMap (Abi.limit .aarch64) :=
  ⟨[p], List.pairwise_singleton _ _⟩

theorem codePage_mem : codePage ∈ (onePage codePage).mappings := List.mem_singleton_self _

/-- There is room for a backup. -/
theorem onePage_free {p : Mapping (Abi.limit .aarch64)} (hs : p.start = 0x1000)
    (hl : p.length = 4096) : (onePage p).mem.Free 0x10000 p.length := by
  intro a ha
  apply (onePage p).mem_none
  intro q hq hin
  obtain rfl : q = p := List.mem_singleton.mp hq
  unfold Mapping.Has Within at *
  omega

end NativeLib.HideMaps
