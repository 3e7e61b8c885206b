import NativeLib.Mangling.RoundTrip
import NativeLib.Utils.StringUtils

/-! `netlink/getNetLinkerMac.cpp`: the address of an interface. Addresses of two families are
read as the one with a hardware address. -/

namespace NativeLib.Netlink

open Mangling (digitChar digitValue_digitChar toNat_digitChar)
open Tracer (NUL)
open Utils (equals equals_iff)

def AF_INET : UInt16 := 2
def AF_INET6 : UInt16 := 10
def AF_PACKET : UInt16 := 17

def ANDROID_N : ℤ := 24

def ZHENXI_RUNTIME_NETLINK_MAC : ℤ := 1
def ZHENXI_RUNTIME_NETLINK_IP_V6 : ℤ := 2

def DEFINE_MAC_1 : List Char := "02:00:00:00:00:00".toList
def DEFINE_MAC_2 : List Char := "00:00:00:00:00:00".toList

/-- A `sockaddr`: the family, and the bytes that lie behind it. -/
structure SockAddr where
  saFamily : UInt16
  saData : ℕ → UInt8

/-- An entry of `getifaddrs`, and the host that `getnameinfo` finds for it, if any. -/
structure IfAddrs where
  ifaName : List Char
  ifaAddr : Option SockAddr
  host : Option (List Char)

/-- `sll_addr[i]` of `struct sockaddr_ll`. -/
def SockAddr.sllAddr (sAddr : SockAddr) (i : ℕ) : UInt8 := sAddr.saData (10 + i)

/-- `"%02X"`. -/
def hex02 (b : UInt8) : List Char := [digitChar (b.toNat / 16), digitChar (b.toNat % 16)]

/-- The text that is printed into `macp`. -/
def macp (sAddr : SockAddr) : List Char :=
  (List.range 6).flatMap fun i => hex02 (sAddr.sllAddr i) ++ if i < 5 then [':'] else []

/-- What an entry leads to: the next one, the result, or the end. -/
inductive Visit where
  | next
  | found (mac : List Char)
  | failed
  deriving DecidableEq, Repr

/-- The body of the loop. What the other types do is logged only. -/
def visit (name : Option (List Char)) (type : ℤ) (ifaptr : IfAddrs) : Visit :=
  match ifaptr.ifaAddr with
  | none => .next
  | some sAddr =>
    if type = ZHENXI_RUNTIME_NETLINK_MAC then
      if sAddr.saFamily = AF_PACKET ∨ sAddr.saFamily = AF_INET then
        if name = some ifaptr.ifaName then
          let macp := macp sAddr
          if equals macp DEFINE_MAC_1 || equals macp DEFINE_MAC_2 then .next else .found macp
        else .next
      else .next
    else if type = ZHENXI_RUNTIME_NETLINK_IP_V6 then
      if sAddr.saFamily = AF_INET6 then
        match ifaptr.host with
        | none => .failed
        | some host => if name = some ifaptr.ifaName then .found host else .next
      else .next
    else .next

/-- The loop: whether something is found, and the string at `mac`. -/
def search (name : Option (List Char)) (type : ℤ) (mac : List Char) :
    List IfAddrs → Bool × List Char
  | [] => (false, mac)
  | ifaptr :: rest =>
    match visit name type ifaptr with
    | .next => search name type mac rest
    | .found mac => (true, mac)
    | .failed => (false, mac)

/-- `getMacForNetLink`. `getifaddrs` is `none` if it fails. -/
def getMacForNetLink (androidApi sdkLevel : ℤ) (getifaddrs : Option (List IfAddrs))
    (mac : List Char) (name : Option (List Char)) (type : ℤ) : Bool × List Char :=
  if androidApi ≥ 24 ∧ sdkLevel > ANDROID_N then
    match getifaddrs with
    | none => (false, [])
    | some ifap => search name type [] ifap
  else (false, mac)

/-- The six bytes of a hardware address. -/
def SockAddr.hardware (sAddr : SockAddr) : List UInt8 := (List.range 6).map sAddr.sllAddr

/-- Bytes as they are written in capitals, with colons in between. -/
def colonText (bytes : List UInt8) : List Char := [':'].intercalate (bytes.map hex02)

/-- An entry of one of the two families, with the name and not with a default address. -/
def Eligible (name : List Char) (e : IfAddrs) : Prop :=
  e.ifaName = name ∧ ∃ sAddr ∈ e.ifaAddr,
    (sAddr.saFamily = AF_PACKET ∨ sAddr.saFamily = AF_INET) ∧
      sAddr.hardware ≠ [2, 0, 0, 0, 0, 0] ∧ sAddr.hardware ≠ [0, 0, 0, 0, 0, 0]

/-- Some link layer entry with the name has these bytes. -/
def HasHardware (ifap : List IfAddrs) (name : List Char) (bytes : List UInt8) : Prop :=
  ∃ e ∈ ifap, e.ifaName = name ∧ ∃ sAddr ∈ e.ifaAddr,
    sAddr.saFamily = AF_PACKET ∧ sAddr.hardware = bytes

instance (name : List Char) (e : IfAddrs) : Decidable (Eligible name e) :=
  inferInstanceAs (Decidable (_ ∧ _))

variable {name : List Char} {e : IfAddrs} {sAddr : SockAddr}

theorem digitChar_injective {d d' : ℕ} (hd : d < 16) (hd' : d' < 16)
    (h : digitChar d = digitChar d') : d = d' := by
  have hval := digitValue_digitChar (show 16 ≤ 36 by decide) hd
  rw [h, digitValue_digitChar (by decide) hd'] at hval
  exact (Option.some_inj.mp hval).symm

theorem nul_ne_digitChar {d : ℕ} (hd : d < 16) : NUL ≠ digitChar d := by
  intro h
  have hnul : NUL.toNat = 0 := rfl
  rw [h, toNat_digitChar (by omega)] at hnul
  split at hnul <;> omega

theorem hex02_injective {b b' : UInt8} (h : hex02 b = hex02 b') : b = b' := by
  have hb := b.toNat_lt
  have hb' := b'.toNat_lt
  obtain ⟨hhigh, hrest⟩ := List.cons.inj h
  have hdiv := digitChar_injective (by omega) (by omega) hhigh
  have hmod := digitChar_injective (by omega) (by omega) (List.cons.inj hrest).1
  apply UInt8.toNat_inj.mp
  omega

theorem nul_notMem_hex02 (b : UInt8) : NUL ∉ hex02 b := by
  have hb := b.toNat_lt
  rw [hex02, List.mem_pair, not_or]
  exact ⟨nul_ne_digitChar (by omega), nul_ne_digitChar (by omega)⟩

theorem colonText_cons_cons (b b' : UInt8) (bytes : List UInt8) :
    colonText (b :: b' :: bytes) = hex02 b ++ ([':'] ++ colonText (b' :: bytes)) := by
  rw [colonText, List.map_cons, List.map_cons, List.intercalate_cons_cons, List.append_assoc]
  rfl

theorem colonText_singleton (b : UInt8) : colonText [b] = hex02 b := List.intercalate_singleton

theorem nul_notMem_colonText (bytes : List UInt8) : NUL ∉ colonText bytes := by
  induction bytes with
  | nil => exact List.not_mem_nil
  | cons b bytes ih =>
    cases bytes with
    | nil =>
      rw [colonText_singleton]
      exact nul_notMem_hex02 b
    | cons b' bytes =>
      rw [colonText_cons_cons, List.mem_append, List.mem_append, not_or, not_or]
      exact ⟨nul_notMem_hex02 b, by decide, ih⟩

theorem colonText_injective {bytes bytes' : List UInt8} (hlen : bytes.length = bytes'.length)
    (h : colonText bytes = colonText bytes') : bytes = bytes' := by
  induction bytes generalizing bytes' with
  | nil => exact (List.length_eq_zero_iff.mp hlen.symm).symm
  | cons b bytes ih =>
    obtain ⟨b', bytes', rfl⟩ := List.exists_cons_of_length_eq_add_one hlen.symm
    have htail := Nat.succ_inj.mp hlen
    cases bytes with
    | nil =>
      obtain rfl := List.length_eq_zero_iff.mp htail.symm
      rw [colonText_singleton, colonText_singleton] at h
      rw [hex02_injective h]
    | cons c bytes =>
      obtain ⟨c', bytes', rfl⟩ := List.exists_cons_of_length_eq_add_one htail.symm
      rw [colonText_cons_cons, colonText_cons_cons] at h
      obtain ⟨hhead, hrest⟩ := List.append_inj h rfl
      rw [hex02_injective hhead, ih htail (List.append_cancel_left hrest)]

theorem macp_eq (sAddr : SockAddr) : macp sAddr = colonText sAddr.hardware := rfl

theorem macp_eq_iff (sAddr : SockAddr) {bytes : List UInt8} (hlen : bytes.length = 6) :
    macp sAddr = colonText bytes ↔ sAddr.hardware = bytes := by
  have hsix : sAddr.hardware.length = bytes.length := hlen.symm
  rw [macp_eq]
  exact ⟨colonText_injective hsix, congrArg colonText⟩

theorem equals_macp (sAddr : SockAddr) {bytes : List UInt8} (hlen : bytes.length = 6) :
    equals (macp sAddr) (colonText bytes) = true ↔ sAddr.hardware = bytes := by
  rw [← macp_eq_iff sAddr hlen, macp_eq]
  exact equals_iff (nul_notMem_colonText _) (nul_notMem_colonText _)

theorem define_mac_1_eq : DEFINE_MAC_1 = colonText [2, 0, 0, 0, 0, 0] := by decide

theorem define_mac_2_eq : DEFINE_MAC_2 = colonText [0, 0, 0, 0, 0, 0] := by decide

/-- An entry is the result if it is eligible. -/
theorem visit_eq (name : List Char) (h : e.ifaAddr = some sAddr) :
    visit (some name) ZHENXI_RUNTIME_NETLINK_MAC e =
      if Eligible name e then .found (macp sAddr) else .next := by
  have hiff : Eligible name e ↔ e.ifaName = name ∧
      (sAddr.saFamily = AF_PACKET ∨ sAddr.saFamily = AF_INET) ∧
        sAddr.hardware ≠ [2, 0, 0, 0, 0, 0] ∧ sAddr.hardware ≠ [0, 0, 0, 0, 0, 0] := by
    rw [Eligible, h]
    simp
  have hdefault : (equals (macp sAddr) DEFINE_MAC_1 || equals (macp sAddr) DEFINE_MAC_2) = true ↔
      sAddr.hardware = [2, 0, 0, 0, 0, 0] ∨ sAddr.hardware = [0, 0, 0, 0, 0, 0] := by
    rw [Bool.or_eq_true, define_mac_1_eq, define_mac_2_eq, equals_macp sAddr rfl,
      equals_macp sAddr rfl]
  rw [visit, h]
  dsimp only
  rw [if_pos rfl]
  by_cases hfamily : sAddr.saFamily = AF_PACKET ∨ sAddr.saFamily = AF_INET
  · rw [if_pos hfamily]
    by_cases hname : e.ifaName = name
    · rw [if_pos (congrArg some hname.symm)]
      by_cases hdef : sAddr.hardware = [2, 0, 0, 0, 0, 0] ∨ sAddr.hardware = [0, 0, 0, 0, 0, 0]
      · rw [if_pos (hdefault.mpr hdef), if_neg]
        exact fun hel => (not_or.mpr (hiff.mp hel).2.2) hdef
      · rw [if_neg fun heq => hdef (hdefault.mp heq), if_pos]
        exact hiff.mpr ⟨hname, hfamily, not_or.mp hdef⟩
    · rw [if_neg fun heq => hname (Option.some_inj.mp heq).symm, if_neg]
      exact fun hel => hname (hiff.mp hel).1
  · rw [if_neg hfamily, if_neg]
    exact fun hel => hfamily (hiff.mp hel).2.1

theorem visit_of_not_eligible (h : ¬ Eligible name e) :
    visit (some name) ZHENXI_RUNTIME_NETLINK_MAC e = .next := by
  cases haddr : e.ifaAddr with
  | none => rw [visit, haddr]
  | some sAddr => rw [visit_eq name haddr, if_neg h]

theorem search_none {ifap : List IfAddrs} (h : ∀ e ∈ ifap, ¬ Eligible name e) (mac : List Char) :
    search (some name) ZHENXI_RUNTIME_NETLINK_MAC mac ifap = (false, mac) := by
  induction ifap with
  | nil => rfl
  | cons e ifap ih =>
    rw [List.forall_mem_cons] at h
    rw [search, visit_of_not_eligible h.1]
    exact ih h.2

/-- The first eligible entry is the result, whatever its family. -/
theorem search_first {pre post : List IfAddrs} (hpre : ∀ e ∈ pre, ¬ Eligible name e)
    (he : Eligible name e) (haddr : e.ifaAddr = some sAddr) (mac : List Char) :
    search (some name) ZHENXI_RUNTIME_NETLINK_MAC mac (pre ++ e :: post) =
      (true, macp sAddr) := by
  induction pre with
  | nil =>
    rw [List.nil_append, search, visit_eq name haddr, if_pos he]
  | cons e' pre ih =>
    rw [List.forall_mem_cons] at hpre
    rw [List.cons_append, search, visit_of_not_eligible hpre.1]
    exact ih hpre.2

/-- What is promised of a result: the hardware address of some entry, and no default. -/
def Genuine (ifap : List IfAddrs) (name mac : List Char) : Prop :=
  (∃ bytes, HasHardware ifap name bytes ∧ mac = colonText bytes) ∧
    mac ≠ DEFINE_MAC_1 ∧ mac ≠ DEFINE_MAC_2

theorem genuine_iff {ifap : List IfAddrs} (he : Eligible name e) (haddr : e.ifaAddr = some sAddr) :
    Genuine ifap name (macp sAddr) ↔ HasHardware ifap name sAddr.hardware := by
  constructor
  · intro h
    obtain ⟨bytes, hhas, htext⟩ := h.1
    obtain ⟨e', hmem, hname, sAddr', haddr', hfamily, rfl⟩ := hhas
    exact ⟨e', hmem, hname, sAddr', haddr', hfamily, ((macp_eq_iff sAddr rfl).mp htext).symm⟩
  · intro h
    obtain ⟨-, sAddr', hmem, -, hdef1, hdef2⟩ := he
    rw [haddr] at hmem
    obtain rfl := Option.some_inj.mp hmem
    refine ⟨⟨_, h, rfl⟩, ?_, ?_⟩
    · rw [define_mac_1_eq]
      exact fun heq => hdef1 ((macp_eq_iff sAddr rfl).mp heq)
    · rw [define_mac_2_eq]
      exact fun heq => hdef2 ((macp_eq_iff sAddr rfl).mp heq)

/-- A reported address is genuine exactly if the first eligible entry has the hardware address
of some link layer entry with the name. -/
theorem getMacForNetLink_genuine_iff (androidApi sdkLevel : ℤ) (ifap : List IfAddrs)
    (mac name : List Char) :
    ((getMacForNetLink androidApi sdkLevel (some ifap) mac (some name)
        ZHENXI_RUNTIME_NETLINK_MAC).1 = true →
      Genuine ifap name (getMacForNetLink androidApi sdkLevel (some ifap) mac (some name)
        ZHENXI_RUNTIME_NETLINK_MAC).2) ↔
      ¬ (androidApi ≥ 24 ∧ sdkLevel > ANDROID_N) ∨
        ∀ e ∈ ifap.find? (Eligible name ·), ∀ sAddr ∈ e.ifaAddr,
          HasHardware ifap name sAddr.hardware := by
  rw [getMacForNetLink]
  by_cases hsdk : androidApi ≥ 24 ∧ sdkLevel > ANDROID_N
  · rw [if_pos hsdk]
    cases hfind : ifap.find? (Eligible name ·) with
    | none =>
      rw [List.find?_eq_none] at hfind
      rw [search_none fun e he hel => hfind e he (decide_eq_true hel)]
      simp
    | some e =>
      obtain ⟨hel, pre, post, rfl, hpre⟩ := List.find?_eq_some_iff_append.mp hfind
      have he := of_decide_eq_true hel
      obtain ⟨-, sAddr, hmem, -⟩ := id he
      have haddr : e.ifaAddr = some sAddr := hmem
      rw [search_first (fun e he hel => by simpa [hel] using hpre e he) he haddr,
        genuine_iff he haddr]
      simp [hsdk, haddr]
  · rw [if_neg hsdk]
    exact iff_of_true (fun h => absurd h Bool.false_ne_true) (.inl hsdk)

/-- An address of the internet family comes first, and what lies behind it is reported. -/
theorem getMacForNetLink_reports : ¬ ∀ (androidApi sdkLevel : ℤ) (ifap : List IfAddrs)
    (mac name : List Char),
    (getMacForNetLink androidApi sdkLevel (some ifap) mac (some name)
        ZHENXI_RUNTIME_NETLINK_MAC).1 = true →
      Genuine ifap name (getMacForNetLink androidApi sdkLevel (some ifap) mac (some name)
        ZHENXI_RUNTIME_NETLINK_MAC).2 := by
  intro h
  obtain ⟨⟨bytes, ⟨e, hmem, -, sAddr, haddr, hfamily, -⟩, -⟩, -⟩ :=
    h 24 25 [⟨['w'], some ⟨AF_INET, fun _ => 1⟩, none⟩] [] ['w'] (by decide)
  rw [List.mem_singleton] at hmem
  subst hmem
  obtain rfl := Option.some_inj.mp haddr
  exact absurd hfamily (by decide)

end NativeLib.Netlink
