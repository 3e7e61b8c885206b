import Mathlib.Tactic.Common
import NativeLib.Linker.Symbol

/-! The block that `read_strtab` reads a string table into. -/

namespace NativeLib.Linker

open Interaction
open Prog (Asks)

variable {c : ElfClass} {shdr : ElfShdr}

/-- The C library on any file: a position is not negative, no more is read than is asked for, and
any call may fail. -/
structure LibcStep (c : ElfClass) (_ : Unit) (call : SymbolCall) (r : SymbolAnswer) (_ : Unit) :
    Prop where
  seek : ∀ off, call = .fseek off → r.toFlag = true → off < 2 ^ (c.bits - 1)
  read : ∀ n, call = .fread n → r.toBytes.length ≤ n

/-- The block is large enough for what is read into it and for what is stored behind that. -/
def InBlock (tr : Trace SymbolCall SymbolAnswer) : Prop :=
  ∀ n r, (.malloc n, r) ∈ tr → r.toFlag = true →
    (∀ k r, (.fread k, r) ∈ tr → k ≤ n) ∧ ∀ i r, (.store i, r) ∈ tr → i < n

/-- What `read_strtab` may ask for when it reads `shSize` bytes. -/
def ReadsTable (shSize : ℕ) : SymbolCall → Prop
  | .malloc n => n = (shSize + 1) % 2 ^ 32
  | .fread n => n = shSize
  | .store i => i = shSize
  | _ => True

theorem asks_succeeds {P : SymbolCall → Prop} {call : SymbolCall} (h : P call) :
    (succeeds call).Asks P := ⟨h, fun _ => trivial⟩

theorem asks_perform {P : SymbolCall → Prop} {call : SymbolCall} (h : P call) :
    (perform call).Asks P := ⟨h, fun _ => trivial⟩

theorem readStrtab_asks (c : ElfClass) (shdr : ElfShdr) :
    (readStrtab c shdr).Asks (ReadsTable (shdr.shSize % 2 ^ 32)) := by
  have hfail : ∀ r : ℤ × List UInt8, (do perform .free; pure r : SymbolProg _).Asks
      (ReadsTable (shdr.shSize % 2 ^ 32)) :=
    fun r => (asks_perform trivial).bind fun _ => trivial
  refine Asks.ite trivial (Asks.bind ⟨trivial, fun _ => trivial⟩ fun curOff => ?_)
  refine (asks_succeeds trivial).bind fun found => Asks.ite ?_ trivial
  refine (asks_succeeds (show ReadsTable _ (.malloc _) from rfl)).bind fun memory => ?_
  refine Asks.ite ?_ trivial
  refine Asks.bind ⟨rfl, fun _ => trivial⟩ fun data => Asks.ite (hfail _) ?_
  refine (asks_perform (show ReadsTable _ (.store _) from rfl)).bind fun _ => ?_
  refine (asks_succeeds trivial).bind fun back => ?_
  exact Asks.ite trivial (hfail _)

/-- Where one can be added to the size, the block is large enough. -/
theorem inBlock_of_asks {shSize : ℕ} (hsize : shSize < 2 ^ 32 - 1)
    {tr : Trace SymbolCall SymbolAnswer} (h : ∀ x ∈ tr, ReadsTable shSize x.1) : InBlock tr := by
  intro n r hmalloc _
  have hn : n = (shSize + 1) % 2 ^ 32 := h _ hmalloc
  rw [Nat.mod_eq_of_lt (by omega)] at hn
  refine ⟨fun k r hread => ?_, fun i r hstore => ?_⟩
  · have hk : k = shSize := h _ hread
    omega
  · have hi : i = shSize := h _ hstore
    omega

theorem exec_ftell {σ α : Type} {env : σ → SymbolCall → SymbolAnswer → σ → Prop}
    {f : ℕ → SymbolProg α} {s t : σ} {tr : Trace SymbolCall SymbolAnswer} {a : α} :
    (ftell >>= f).Exec env s tr a t ↔ ∃ r u tr', tr = (.ftell, r) :: tr' ∧
      env s .ftell r u ∧ (f r.toPos).Exec env u tr' a t := Iff.rfl

theorem exec_succeeds {σ α : Type} {env : σ → SymbolCall → SymbolAnswer → σ → Prop}
    {call : SymbolCall} {f : Bool → SymbolProg α} {s t : σ}
    {tr : Trace SymbolCall SymbolAnswer} {a : α} :
    (succeeds call >>= f).Exec env s tr a t ↔ ∃ r u tr', tr = (call, r) :: tr' ∧
      env s call r u ∧ (f r.toFlag).Exec env u tr' a t := Iff.rfl

/-- A block for the greatest `elf_word` and one more has no bytes. -/
theorem exists_overflow (hsize : shdr.shSize % 2 ^ 32 = 2 ^ 32 - 1)
    (hoff : shdr.shOffset < 2 ^ 63) :
    ∃ tr r, (readStrtab .elf64 shdr).Exec (LibcStep .elf64) () tr r () ∧ ¬ InBlock tr := by
  have hguard : ¬ 2 ^ 32 - 1 > ElfClass.elf64.sizeMax - 1 := by decide
  have hother : ∀ call r, (∀ off, call ≠ .fseek off) → (∀ n, call ≠ .fread n) →
      LibcStep .elf64 () call r () :=
    fun call r hseek hread => ⟨fun off h => absurd h (hseek off), fun n h => absurd h (hread n)⟩
  have hseek : LibcStep .elf64 () (.fseek shdr.shOffset) (.flag true) () := by
    refine ⟨fun off h _ => ?_, fun _ => nofun⟩
    rw [← SymbolCall.fseek.inj h]
    exact hoff
  have hread : LibcStep .elf64 () (.fread (2 ^ 32 - 1)) (.bytes []) () :=
    ⟨fun _ => nofun, fun n _ => Nat.zero_le n⟩
  refine ⟨[(.ftell, .pos 0), (.fseek shdr.shOffset, .flag true), (.malloc 0, .flag true),
    (.fread (2 ^ 32 - 1), .bytes []), (.free, .flag true)], (-1, []), ?_, ?_⟩
  · rw [readStrtab, hsize, if_neg hguard]
    refine ⟨.pos 0, (), _, rfl, hother _ _ nofun nofun, ?_⟩
    refine ⟨.flag true, (), _, rfl, hseek, ?_⟩
    refine ⟨.flag true, (), _, rfl, hother _ _ nofun nofun, ?_⟩
    refine ⟨.bytes [], (), _, rfl, hread, ?_⟩
    exact ⟨.flag true, (), _, rfl, hother _ _ nofun nofun, rfl, rfl, rfl⟩
  · intro hin
    have hle := (hin 0 (.flag true) (by simp) rfl).1 (2 ^ 32 - 1) (.bytes []) (by simp)
    exact absurd hle (by decide)

/-- Where no file has the offset, nothing is allocated. -/
theorem inBlock_of_unseekable (hoff : 2 ^ (c.bits - 1) ≤ shdr.shOffset)
    {tr : Trace SymbolCall SymbolAnswer} {r : ℤ × List UInt8}
    (h : (readStrtab c shdr).Exec (LibcStep c) () tr r ()) : InBlock tr := by
  rw [readStrtab] at h
  split at h
  · obtain ⟨rfl, -, -⟩ := h
    exact fun n r hmalloc => absurd hmalloc List.not_mem_nil
  · obtain ⟨pos, _, tr₁, rfl, -, h⟩ := exec_ftell.mp h
    obtain ⟨found, _, tr₂, rfl, hseek, h⟩ := exec_succeeds.mp h
    have hfound : ¬ found.toFlag = true := fun hflag => by
      have hlt := hseek.seek _ rfl hflag
      omega
    rw [if_neg hfound] at h
    obtain ⟨rfl, -, -⟩ := h
    exact fun n r hmalloc => by simp at hmalloc

/-- The block is large enough exactly if the size is not the greatest `elf_word`, or the table is
never read: on a 32-bit build because of the guard, and where no file has that offset. -/
theorem readStrtab_inBlock_iff (c : ElfClass) (shdr : ElfShdr) :
    (∀ tr r, (readStrtab c shdr).Exec (LibcStep c) () tr r () → InBlock tr) ↔
      shdr.shSize % 2 ^ 32 ≠ 2 ^ 32 - 1 ∨ c = .elf32 ∨ 2 ^ 63 ≤ shdr.shOffset := by
  refine ⟨?_, ?_⟩
  · intro h
    by_contra hnot
    rw [not_or, not_or, not_not, Nat.not_le] at hnot
    obtain ⟨hsize, hclass, hoff⟩ := hnot
    obtain rfl : c = .elf64 := by
      cases c
      · exact absurd rfl hclass
      · rfl
    obtain ⟨tr, r, hrun, hout⟩ := exists_overflow hsize hoff
    exact hout (h tr r hrun)
  · intro h tr r hrun
    by_cases hsize : shdr.shSize % 2 ^ 32 = 2 ^ 32 - 1
    · cases c with
      | elf32 =>
        have hguard : shdr.shSize % 2 ^ 32 > ElfClass.elf32.sizeMax - 1 := by
          rw [hsize]
          decide
        rw [readStrtab, if_pos hguard] at hrun
        obtain ⟨rfl, -, -⟩ := hrun
        exact fun n r hmalloc => absurd hmalloc List.not_mem_nil
      | elf64 =>
        have hoff : 2 ^ (ElfClass.elf64.bits - 1) ≤ shdr.shOffset :=
          (h.resolve_left (not_not_intro hsize)).resolve_left nofun
        exact inBlock_of_unseekable hoff hrun
    · exact inBlock_of_asks (by omega) (hrun.asks (readStrtab_asks c shdr))

/-- A string table of `2^32 - 1` bytes is read into a block of none. -/
theorem string_table_overflows :
    ¬ ∀ tr r, (readStrtab .elf64 ⟨3, 0, 2 ^ 32 - 1, 0⟩).Exec (LibcStep .elf64) () tr r () →
      InBlock tr := by
  intro h
  obtain ⟨tr, r, hrun, hout⟩ := @exists_overflow ⟨3, 0, 2 ^ 32 - 1, 0⟩ (by decide) (by decide)
  exact hout (h tr r hrun)

end NativeLib.Linker
