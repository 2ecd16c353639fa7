/-
  My98.Relay.NetworkPolicy — what `frame_allowed` lets through (`src/relay/src/network.rs`).

  A guest may send ARP, which stays in its own stack, and IPv4 packets from its own network: to the
  stack's DHCP and DNS, and to public addresses that are not the host's.  The policy is said of the
  fields of the frame; the gate looks at its bytes, in an order in which every one is there when it
  is looked at.

    • `Checked.frameAllowed` — the gate with its indices written out;
    • `publicIpv4_iff`  — outside of the reserved blocks;
    • `frame_policy`    — it never panics, and it lets through what the policy allows.
-/
import My98.Lib.Ipv4
import My98.Relay.Firewall

namespace My98.Relay

open My98.Lib

/-! ## §1. The policy. -/

/-- Byte `i` of the frame. -/
def byte (frame : Bytes) (i : Nat) : Nat := (frame[i]?.getD 0).toNat

/-- The two bytes from `i` on. -/
def word (frame : Bytes) (i : Nat) : Nat := 256 * byte frame i + byte frame (i + 1)

/-- The address from `i` on. -/
def address (frame : Bytes) (i : Nat) : Nat :=
  dotted (byte frame i) (byte frame (i + 1)) (byte frame (i + 2)) (byte frame (i + 3))

/-- A request or a reply of Ethernet/IPv4 ARP. -/
structure Arp (frame : Bytes) : Prop where
  etherType : word frame 12 = 0x0806
  size : 42 ≤ frame.length
  hardware : word frame 14 = 1
  protocol : word frame 16 = 0x0800
  hardwareLength : byte frame 18 = 6
  protocolLength : byte frame 19 = 4
  operation : word frame 20 = 1 ∨ word frame 20 = 2

def TCP : Nat := 6
def UDP : Nat := 17

/-- The guests' network. -/
def GUESTS : Cidr := ⟨dotted 10 5 0 0, 16⟩
/-- The address of the stack itself. -/
def GATEWAY : Nat := dotted 10 5 0 1

/-- An IPv4 packet without options, from a guest, that carries TCP or UDP. -/
structure GuestPacket (frame : Bytes) : Prop where
  etherType : word frame 12 = 0x0800
  version : byte frame 14 / 16 = 4
  /-- Five words of header, and so no options. -/
  headerWords : byte frame 14 % 16 = 5
  least : 20 ≤ word frame 16
  most : word frame 16 ≤ 1500
  inside : 14 + word frame 16 ≤ frame.length
  protocol : byte frame 23 = TCP ∨ byte frame 23 = UDP
  source : address frame 26 = 0 ∨
    GUESTS.Contains (address frame 26) ∧ address frame 26 ≠ GATEWAY

/-- Not a fragment of a packet: no more fragments follow, and the offset is 0. -/
def Unfragmented (frame : Bytes) : Prop :=
  word frame 20 / 2 ^ 13 % 2 = 0 ∧ word frame 20 % 2 ^ 13 = 0

/-- From the client's port of DHCP to the server's. -/
structure Dhcp (frame : Bytes) : Prop where
  udp : byte frame 23 = UDP
  whole : Unfragmented frame
  least : 28 ≤ word frame 16
  client : word frame 34 = 68
  server : word frame 36 = 67
  destination : address frame 30 = dotted 255 255 255 255 ∨
    address frame 30 = dotted 10 5 255 255 ∨ address frame 30 = GATEWAY

structure Dns (frame : Bytes) : Prop where
  whole : Unfragmented frame
  least : 28 ≤ word frame 16
  port : word frame 36 = 53
  destination : address frame 30 = GATEWAY

/-- The blocks that are not public. -/
def RESERVED : List Cidr :=
  [⟨dotted 0 0 0 0, 8⟩, ⟨dotted 10 0 0 0, 8⟩, ⟨dotted 100 64 0 0, 10⟩, ⟨dotted 127 0 0 0, 8⟩,
    ⟨dotted 169 254 0 0, 16⟩, ⟨dotted 172 16 0 0, 12⟩, ⟨dotted 192 0 0 0, 24⟩,
    ⟨dotted 192 0 2 0, 24⟩, ⟨dotted 192 88 99 0, 24⟩, ⟨dotted 192 168 0 0, 16⟩,
    ⟨dotted 198 18 0 0, 15⟩, ⟨dotted 198 51 100 0, 24⟩, ⟨dotted 203 0 113 0, 24⟩,
    ⟨dotted 224 0 0 0, 3⟩]

/-- To the Internet; `hostIps` are the addresses of the host, by their octets. -/
structure Egress (hostIps : List (List Nat)) (frame : Bytes) : Prop where
  source : address frame 26 ≠ 0
  global : ∀ block ∈ RESERVED, ¬ block.Contains (address frame 30)
  foreign : [byte frame 30, byte frame 31, byte frame 32, byte frame 33] ∉ hostIps

/-- **The network policy.** -/
def Allowed (hostIps : List (List Nat)) (frame : Bytes) : Prop :=
  14 ≤ frame.length ∧ frame.length ≤ 1514 ∧
    (Arp frame ∨ GuestPacket frame ∧ (Dhcp frame ∨ Dns frame ∨ Egress hostIps frame))

/-! ## §2. The gate, with its indices. -/

namespace Checked

/-- `b[i]`; `none` is a panic. -/
def index (b : Bytes) (i : Nat) : Option Nat := b[i]?.map UInt8.toNat

/-- `b[i..j]`. -/
def range (b : Bytes) (i j : Nat) : Option (List Nat) :=
  if i ≤ j ∧ j ≤ b.length then some (octets b i (j - i)) else none

/-- `try_into::<[u8; 4]>().unwrap()`. -/
def array4 (l : List Nat) : Option (List Nat) := if l.length = 4 then some l else none

/-- `u16::from_be_bytes([b[i], b[i + 1]])`. -/
def be16 (b : Bytes) (i : Nat) : Option Nat :=
  (index b i).bind fun high => (index b (i + 1)).map fun low => 256 * high + low

/-- `&&`, whose right side is looked at only when the left one is true. -/
def andThen (first second : Option Bool) : Option Bool :=
  first.bind fun b => if b then second else some false

/-- The branch of ARP. -/
def arpAllowed (frame : Bytes) : Option Bool :=
  andThen (some (decide (42 ≤ frame.length))) <|
    andThen ((range frame 14 20).map (· == [0, 1, 8, 0, 6, 4])) <|
      andThen ((index frame 21).map fun b => b == 1 || b == 2) ((index frame 20).map (· == 0))

/-- The exception for DHCP. -/
def dhcpAllowed (p : Bytes) (total fragment : Nat) (dest : List Nat) : Option Bool :=
  andThen (some (decide (28 ≤ total))) <| andThen (some (decide (fragment = 0))) <|
    andThen ((index p 9).map (· == 17)) <| (range p 20 24).map fun ports =>
      ports == [0, 68, 0, 67] &&
        (dest == [255, 255, 255, 255] || dest == [10, 5, 255, 255] || dest == [10, 5, 0, 1])

/-- The exception for DNS. -/
def dnsAllowed (p : Bytes) (total fragment : Nat) : Option Bool :=
  andThen (some (decide (fragment = 0))) <| andThen (some (decide (28 ≤ total))) <|
    (range p 22 24).map (· == [0, 53])

/-- The exceptions and the Internet. -/
def destinationAllowed (p : Bytes) (hostIps : List (List Nat)) (total : Nat)
    (dest source : List Nat) : Option Bool :=
  (be16 p 6).bind fun flags =>
    let fragment := flags % 0x4000
    (dhcpAllowed p total fragment dest).bind fun dhcp =>
      if dhcp then some true
      else if dest = [10, 5, 0, 1] then dnsAllowed p total fragment
      else some (decide (source ≠ [0, 0, 0, 0]) && publicIpv4 dest && !hostIps.contains dest)

/-- The branch of IPv4, from the packet on. -/
def packetAllowed (p : Bytes) (hostIps : List (List Nat)) : Option Bool :=
  (index p 0).bind fun version =>
    if version ≠ 0x45 then some false
    else (index p 9).bind fun protocol =>
      if protocol ≠ 6 ∧ protocol ≠ 17 then some false
      else (be16 p 2).bind fun total =>
        if total < 20 ∨ p.length < total ∨ 1500 < total then some false
        else ((range p 16 20).bind array4).bind fun dest =>
          ((range p 12 16).bind array4).bind fun source =>
            -- the two octets are those of an array, and always there
            if source ≠ [0, 0, 0, 0] ∧ (source.take 2 ≠ [10, 5] ∨ source = [10, 5, 0, 1]) then
              some false
            else destinationAllowed p hostIps total dest source

/-- `frame_allowed`. -/
def frameAllowed (frame : Bytes) (hostIps : List (List Nat)) : Option Bool :=
  if frame.length < 14 ∨ 1514 < frame.length then some false
  else (be16 frame 12).bind fun etherType =>
    if etherType = 0x0806 then arpAllowed frame
    else if etherType ≠ 0x0800 ∨ frame.length < 34 then some false
    else if 14 ≤ frame.length then packetAllowed (frame.drop 14) hostIps else none

end Checked

section Reads

variable {b : Bytes} {i : Nat}

/-- An index within the bytes does not panic. -/
theorem index_eq (h : i < b.length) : Checked.index b i = some (byte b i) := by
  unfold Checked.index byte
  rw [List.getElem?_eq_getElem h]
  rfl

/-- A byte is less than 256. -/
theorem byte_lt (b : Bytes) (i : Nat) : byte b i < 256 := UInt8.toNat_lt _

/-- A range by its bytes. -/
theorem octets_eq {n : Nat} (h : i + n ≤ b.length) :
    octets b i n = (List.range n).map fun k => byte b (i + k) := by
  refine List.ext_getElem? fun k => ?_
  unfold octets
  rw [List.getElem?_map, List.getElem?_map, getElem?_slice]
  by_cases hk : k < n
  · rw [if_pos hk, List.getElem?_range hk, List.getElem?_eq_getElem (show i + k < b.length by omega)]
    show some (b[i + k].toNat) = some (byte b (i + k))
    unfold byte
    rw [List.getElem?_eq_getElem (show i + k < b.length by omega)]
    rfl
  · rw [if_neg hk, List.getElem?_eq_none (by rw [List.length_range]; omega)]
    rfl

/-- One octet. -/
theorem octets_one (h : i < b.length) : octets b i 1 = [byte b i] := octets_eq h

/-- Two of them. -/
theorem octets_two (h : i + 2 ≤ b.length) : octets b i 2 = [byte b i, byte b (i + 1)] := octets_eq h

/-- Four of them. -/
theorem octets_four (h : i + 4 ≤ b.length) :
    octets b i 4 = [byte b i, byte b (i + 1), byte b (i + 2), byte b (i + 3)] := octets_eq h

/-- A word of two bytes. -/
theorem be16_eq (h : i + 2 ≤ b.length) : be16 b i = word b i := by
  unfold be16 word
  rw [octets_two h]
  show 256 * (256 * 0 + byte b i) + byte b (i + 1) = _
  omega

/-- It is read without a panic. -/
theorem checked_be16 (h : i + 2 ≤ b.length) : Checked.be16 b i = some (be16 b i) := by
  unfold Checked.be16
  rw [be16_eq h, index_eq (by omega), index_eq (by omega)]
  rfl

/-- So is a range within the bytes. -/
theorem checked_range {j : Nat} (hij : i ≤ j) (h : j ≤ b.length) :
    Checked.range b i j = some (octets b i (j - i)) := if_pos ⟨hij, h⟩

/-- So is an address. -/
theorem checked_array4 (h : i + 4 ≤ b.length) :
    (Checked.range b i (i + 4)).bind Checked.array4 = some (octets b i 4) := by
  rw [checked_range (Nat.le_add_right i 4) h, Nat.add_sub_cancel_left]
  refine if_pos ?_
  rw [octets_four h]
  rfl

/-- A conjunction stops at its first part that is false. -/
theorem andThen_some (x : Bool) (second : Option Bool) :
    Checked.andThen (some x) second = if x then second else some false := rfl

/-- One byte, compared as a range of one. -/
theorem octets_one_beq (h : i < b.length) (n : Nat) : (octets b i 1 == [n]) = (byte b i == n) := by
  rw [octets_one h]
  show ((byte b i == n) && true) = _
  rw [Bool.and_true]

/-- An octet is told by its byte. -/
theorem octets_one_eq (h : i < b.length) {n : Nat} : octets b i 1 = [n] ↔ byte b i = n := by
  rw [octets_one h, List.cons.injEq]
  exact and_iff_left rfl

end Reads

/-! ## §3. The gate never panics. -/

section Panics

variable {frame p : Bytes} {hostIps : List (List Nat)}

/-- **The ARP policy** never panics, and this is what it accepts. -/
theorem checked_arp (frame : Bytes) : Checked.arpAllowed frame =
    some (decide (42 ≤ frame.length) && octets frame 14 6 == [0, 1, 8, 0, 6, 4] &&
      (octets frame 21 1 == [1] || octets frame 21 1 == [2]) && octets frame 20 1 == [0]) := by
  unfold Checked.arpAllowed
  by_cases h : 42 ≤ frame.length
  · rw [decide_eq_true h, checked_range (by omega) (by omega), index_eq (by omega), index_eq (by omega),
      octets_one_beq (by omega), octets_one_beq (by omega), octets_one_beq (by omega)]
    show Checked.andThen (some (octets frame 14 6 == [0, 1, 8, 0, 6, 4]))
      (Checked.andThen (some (byte frame 21 == 1 || byte frame 21 == 2)) (some (byte frame 20 == 0))) = _
    rw [andThen_some, andThen_some]
    cases octets frame 14 6 == [0, 1, 8, 0, 6, 4] with
    | false => rfl
    | true =>
      cases byte frame 21 == 1 || byte frame 21 == 2 with
      | false => rfl
      | true => rfl
  · rw [decide_eq_false h]
    rfl

/-- The ports are there once the packet is said to have 28 bytes. -/
theorem checked_dhcp {total fragment : Nat} (dest : List Nat) (hinside : total ≤ p.length) :
    Checked.dhcpAllowed p total fragment dest =
      some (decide (28 ≤ total ∧ fragment = 0 ∧ octets p 9 1 = [17] ∧ octets p 20 4 = [0, 68, 0, 67] ∧
        (dest = [255, 255, 255, 255] ∨ dest = [10, 5, 255, 255] ∨ dest = [10, 5, 0, 1]))) := by
  unfold Checked.dhcpAllowed
  by_cases htotal : 28 ≤ total
  · rw [decide_eq_true htotal, index_eq (by omega), checked_range (by omega) (by omega), Option.map_some,
      Option.map_some, andThen_some, andThen_some, andThen_some, if_pos rfl]
    simp only [octets_one_eq (show 9 < p.length by omega), htotal, true_and]
    by_cases hfragment : fragment = 0
    · by_cases hudp : byte p 9 = 17
      · simp only [hfragment, hudp, decide_true, if_true, beq_self_eq_true, true_and, Option.some.injEq]
        rw [Bool.eq_iff_iff]
        simp [or_assoc]
      · simp [hfragment, hudp]
    · simp [hfragment]
  · rw [decide_eq_false htotal, andThen_some, if_neg Bool.false_ne_true]
    exact congrArg some (decide_eq_false fun h => htotal h.1).symm

/-- **The DNS policy** likewise, within a packet. -/
theorem checked_dns {total fragment : Nat} (hinside : total ≤ p.length) :
    Checked.dnsAllowed p total fragment =
      some (decide (fragment = 0) && decide (28 ≤ total) && octets p 22 2 == [0, 53]) := by
  unfold Checked.dnsAllowed
  rw [andThen_some, andThen_some]
  by_cases htotal : 28 ≤ total
  · rw [decide_eq_true htotal, checked_range (by omega) (by omega), if_pos rfl, Option.map_some]
    cases decide (fragment = 0) with
    | false => rfl
    | true => rfl
  · rw [decide_eq_false htotal, if_neg Bool.false_ne_true, Bool.and_false, Bool.false_and, ite_self]

/-- **The policy on destinations** likewise. -/
theorem checked_destination {total : Nat} (dest source : List Nat) (hleast : 20 ≤ total)
    (hinside : total ≤ p.length) : Checked.destinationAllowed p hostIps total dest source =
    some (if 28 ≤ total ∧ be16 p 6 % 0x4000 = 0 ∧ octets p 9 1 = [17] ∧ octets p 20 4 = [0, 68, 0, 67] ∧
        (dest = [255, 255, 255, 255] ∨ dest = [10, 5, 255, 255] ∨ dest = [10, 5, 0, 1]) then true
      else if dest = [10, 5, 0, 1] then
        decide (be16 p 6 % 0x4000 = 0) && decide (28 ≤ total) && octets p 22 2 == [0, 53]
      else decide (source ≠ [0, 0, 0, 0]) && publicIpv4 dest && !hostIps.contains dest) := by
  unfold Checked.destinationAllowed
  rw [checked_be16 (by omega), Option.bind_some]
  dsimp only
  rw [checked_dhcp dest hinside, Option.bind_some, checked_dns hinside]
  simp only [decide_eq_true_eq]
  split
  · rfl
  · split
    · rfl
    · rfl

/-- **No index is out of bounds.** -/
theorem checked_frameAllowed (frame : Bytes) (hostIps : List (List Nat)) :
    Checked.frameAllowed frame hostIps = some (frameAllowed frame hostIps) := by
  unfold Checked.frameAllowed frameAllowed
  by_cases hsize : frame.length < 14 ∨ 1514 < frame.length
  · rw [if_pos hsize, if_pos hsize]
  rw [if_neg hsize, if_neg hsize, checked_be16 (by omega), Option.bind_some]
  by_cases harp : be16 frame 12 = 0x0806
  · rw [if_pos harp, if_pos harp, checked_arp]
  rw [if_neg harp, if_neg harp]
  by_cases hother : be16 frame 12 ≠ 0x0800 ∨ frame.length < 34
  · rw [if_pos hother, if_pos hother]
  rw [if_neg hother, if_neg hother, if_pos (by omega)]
  have hlength : 20 ≤ (frame.drop 14).length := by
    rw [List.length_drop]
    omega
  generalize frame.drop 14 = p at hlength
  unfold Checked.packetAllowed
  rw [index_eq (by omega), index_eq (by omega), Option.bind_some]
  dsimp only
  by_cases hversion : byte p 0 = 0x45
  · rw [if_neg (not_not.mpr hversion), Option.bind_some]
    by_cases hprotocol : byte p 9 ≠ 6 ∧ byte p 9 ≠ 17
    · rw [if_pos hprotocol, if_pos]
      rw [octets_one (by omega), octets_one (by omega)]
      simpa using Or.inr hprotocol
    · rw [if_neg hprotocol, if_neg]
      · rw [checked_be16 (by omega), Option.bind_some]
        by_cases htotal : be16 p 2 < 20 ∨ p.length < be16 p 2 ∨ 1500 < be16 p 2
        · rw [if_pos htotal, if_pos htotal]
        · rw [if_neg htotal, if_neg htotal, checked_array4 (i := 16) (by omega),
            checked_array4 (i := 12) (by omega), Option.bind_some, Option.bind_some]
          rw [checked_destination _ _ (by omega) (by omega)]
          split
          · rfl
          · rfl
      · rw [octets_one (by omega), octets_one (by omega)]
        simp only [hversion]
        tauto
  · rw [if_pos hversion, if_pos]
    rw [octets_one (by omega)]
    simpa using Or.inl hversion

end Panics

/-! ## §4. What it lets through. -/

section Fields

variable {frame : Bytes} {hostIps : List (List Nat)}

/-- **Outside of the reserved blocks.** -/
theorem publicIpv4_iff {a b c d : Nat} (ha : a < 256) (hb : b < 256) (hc : c < 256) (hd : d < 256) :
    publicIpv4 [a, b, c, d] = true ↔ ∀ block ∈ RESERVED, ¬ block.Contains (dotted a b c d) := by
  have first : ∀ x n, n ≤ 8 → (Cidr.Contains ⟨dotted x 0 0 0, n⟩ (dotted a b c d) ↔
      a / 2 ^ (8 - n) = x / 2 ^ (8 - n)) := fun x n hn =>
    contains_first hn hb hc hd (by decide) (by decide) (by decide)
  have second : ∀ x y n, n ≤ 8 → y < 256 → (Cidr.Contains ⟨dotted x y 0 0, 8 + n⟩ (dotted a b c d) ↔
      a = x ∧ b / 2 ^ (8 - n) = y / 2 ^ (8 - n)) := fun x y n hn hy =>
    contains_second hn hb hc hd hy (by decide) (by decide)
  have third : ∀ x y z, y < 256 → z < 256 → (Cidr.Contains ⟨dotted x y z 0, 24⟩ (dotted a b c d) ↔
      a = x ∧ b = y ∧ c = z) := by
    intro x y z hy hz
    have h := contains_third (n := 8) (a := a) (x := x) le_rfl hb hc hd hy hz (show 0 < 256 by decide)
    simpa using h
  simp only [RESERVED, List.forall_mem_cons, List.not_mem_nil, false_implies, implies_true, and_true]
  rw [first 0 8 le_rfl, first 10 8 le_rfl, second 100 64 2 (by decide) (by decide), first 127 8 le_rfl,
    second 169 254 8 le_rfl (by decide), second 172 16 4 (by decide) (by decide),
    third 192 0 0 (by decide) (by decide), third 192 0 2 (by decide) (by decide),
    third 192 88 99 (by decide) (by decide), second 192 168 8 le_rfl (by decide),
    second 198 18 7 (by decide) (by decide), third 198 51 100 (by decide) (by decide),
    third 203 0 113 (by decide) (by decide), first 224 3 (by decide)]
  simp only [publicIpv4, Bool.not_eq_true', Bool.or_eq_false_iff, Bool.and_eq_false_iff, beq_eq_false_iff_ne,
    decide_eq_false_iff_not]
  -- the blocks that end inside an octet, as the ranges of the code
  have hshared : b / 2 ^ (8 - 2) = 64 / 2 ^ (8 - 2) ↔ 64 ≤ b ∧ b ≤ 127 := by omega
  have hprivate : b / 2 ^ (8 - 4) = 16 / 2 ^ (8 - 4) ↔ 16 ≤ b ∧ b ≤ 31 := by omega
  have hbenchmark : b / 2 ^ (8 - 7) = 18 / 2 ^ (8 - 7) ↔ b = 18 ∨ b = 19 := by omega
  have hmulticast : a / 2 ^ (8 - 3) = 224 / 2 ^ (8 - 3) ↔ a ≥ 224 := by omega
  rw [hshared, hprivate, hbenchmark, hmulticast]
  simp only [Nat.sub_self, pow_zero, Nat.div_one]
  simp only [not_and_or, not_or, or_and_left, and_assoc, or_assoc, ne_eq]
  constructor
  · rintro ⟨h0, h10, h127, h224, h100, h169, h172, h168, hzero, htwo, h88, h18, h19, h51, h203⟩
    exact ⟨h0, h10, h100, h127, h169, h172, hzero, htwo, h88, h168, h18, h19, h51, h203, h224⟩
  · rintro ⟨h0, h10, h100, h127, h169, h172, hzero, htwo, h88, h168, h18, h19, h51, h203, h224⟩
    exact ⟨h0, h10, h127, h224, h100, h169, h172, h168, hzero, htwo, h88, h18, h19, h51, h203⟩

/-- A word is told by its bytes. -/
theorem word_eq {i x y : Nat} (hy : y < 256) :
    word frame i = 256 * x + y ↔ byte frame i = x ∧ byte frame (i + 1) = y := by
  have hlow := byte_lt frame (i + 1)
  unfold word
  omega

/-- An address is told by its four octets. -/
theorem address_eq {i x y z w : Nat} (hi : i + 4 ≤ frame.length) (hy : y < 256) (hz : z < 256)
    (hw : w < 256) : address frame i = dotted x y z w ↔ octets frame i 4 = [x, y, z, w] := by
  unfold address
  rw [dotted_inj (byte_lt _ _) (byte_lt _ _) (byte_lt _ _) hy hz hw, octets_four hi]
  simp only [List.cons.injEq, and_true]

/-- **The branch of ARP.** -/
theorem arp_iff (hether : word frame 12 = 0x0806) :
    (decide (42 ≤ frame.length) && octets frame 14 6 == [0, 1, 8, 0, 6, 4] &&
      (octets frame 21 1 == [1] || octets frame 21 1 == [2]) && octets frame 20 1 == [0]) = true ↔
      Arp frame := by
  simp only [Bool.and_eq_true, Bool.or_eq_true, decide_eq_true_eq, beq_iff_eq]
  have hword : ∀ i x y, y < 256 →
      (word frame i = 256 * x + y ↔ byte frame i = x ∧ byte frame (i + 1) = y) := fun i x y hy => word_eq hy
  constructor
  · rintro ⟨⟨⟨hsize, hfields⟩, hoperation⟩, hhigh⟩
    rw [octets_eq (by omega)] at hfields
    obtain ⟨h14, h15, h16, h17, h18, h19⟩ : byte frame 14 = 0 ∧ byte frame 15 = 1 ∧ byte frame 16 = 8 ∧
        byte frame 17 = 0 ∧ byte frame 18 = 6 ∧ byte frame 19 = 4 := by
      simpa [List.range_succ] using hfields
    rw [octets_one_eq (by omega), octets_one_eq (by omega)] at hoperation
    rw [octets_one_eq (by omega)] at hhigh
    exact ⟨hether, hsize, (hword 14 0 1 (by decide)).mpr ⟨h14, h15⟩,
      (hword 16 8 0 (by decide)).mpr ⟨h16, h17⟩, h18, h19,
      hoperation.imp (fun h => (hword 20 0 1 (by decide)).mpr ⟨hhigh, h⟩)
        fun h => (hword 20 0 2 (by decide)).mpr ⟨hhigh, h⟩⟩
  · intro h
    have hsize := h.size
    obtain ⟨h14, h15⟩ := (hword 14 0 1 (by decide)).mp h.hardware
    obtain ⟨h16, h17⟩ := (hword 16 8 0 (by decide)).mp h.protocol
    have hoperation := h.operation.imp (hword 20 0 1 (by decide)).mp (hword 20 0 2 (by decide)).mp
    rw [octets_eq (by omega), octets_one_eq (by omega), octets_one_eq (by omega), octets_one_eq (by omega)]
    refine ⟨⟨⟨hsize, ?_⟩, hoperation.imp And.right And.right⟩, hoperation.elim And.left And.left⟩
    simpa [List.range_succ] using ⟨h14, h15, h16, h17, h.hardwareLength, h.protocolLength⟩

/-- Octets behind a header. -/
theorem octets_drop (n i k : Nat) : octets (frame.drop n) i k = octets frame (n + i) k := by
  unfold octets slice
  rw [List.drop_drop]

/-- A word behind a header. -/
theorem be16_drop (n i : Nat) : be16 (frame.drop n) i = be16 frame (n + i) := by
  unfold be16
  rw [octets_drop]

/-- The sources that the gate goes on with. -/
theorem source_iff (hlength : 34 ≤ frame.length) :
    ¬(octets frame 26 4 ≠ [0, 0, 0, 0] ∧
        ((octets frame 26 4).take 2 ≠ [10, 5] ∨ octets frame 26 4 = [10, 5, 0, 1])) ↔
      (address frame 26 = 0 ∨ GUESTS.Contains (address frame 26) ∧ address frame 26 ≠ GATEWAY) := by
  have hguests : GUESTS.Contains (address frame 26) ↔ (octets frame 26 4).take 2 = [10, 5] := by
    have h := contains_second (n := 8) (a := byte frame 26) (x := 10) le_rfl (byte_lt frame 27)
      (byte_lt frame 28) (byte_lt frame 29) (show 5 < 256 by decide) (show 0 < 256 by decide)
      (show 0 < 256 by decide)
    rw [octets_four (by omega)]
    simpa [GUESTS, address] using h
  have hzero : address frame 26 = 0 ↔ octets frame 26 4 = [0, 0, 0, 0] :=
    address_eq (x := 0) (y := 0) (z := 0) (w := 0) (by omega) (by decide) (by decide) (by decide)
  have hgateway : address frame 26 = GATEWAY ↔ octets frame 26 4 = [10, 5, 0, 1] :=
    address_eq (by omega) (by decide) (by decide) (by decide)
  rw [hguests, hzero, ne_eq (address frame 26), hgateway]
  simp only [ne_eq, not_and_or, not_or, not_not]

/-- The mask of the code leaves the more-fragments flag and the offset. -/
theorem unfragmented_iff : word frame 20 % 0x4000 = 0 ↔ Unfragmented frame := by
  unfold Unfragmented
  omega

/-- **The exceptions and the Internet.** -/
theorem destination_iff (hlength : 34 ≤ frame.length) (hinside : 14 + word frame 16 ≤ frame.length) :
    (if 28 ≤ word frame 16 ∧ word frame 20 % 0x4000 = 0 ∧ octets frame 23 1 = [17] ∧
        octets frame 34 4 = [0, 68, 0, 67] ∧
        (octets frame 30 4 = [255, 255, 255, 255] ∨ octets frame 30 4 = [10, 5, 255, 255] ∨
          octets frame 30 4 = [10, 5, 0, 1]) then true
      else if octets frame 30 4 = [10, 5, 0, 1] then
        decide (word frame 20 % 0x4000 = 0) && decide (28 ≤ word frame 16) && octets frame 36 2 == [0, 53]
      else decide (octets frame 26 4 ≠ [0, 0, 0, 0]) && publicIpv4 (octets frame 30 4) &&
        !hostIps.contains (octets frame 30 4)) = true ↔
      Dhcp frame ∨ Dns frame ∨ Egress hostIps frame := by
  -- The octets that the code compares are read as addresses and ports.
  have hto : ∀ x y z w, y < 256 → z < 256 → w < 256 →
      (address frame 30 = dotted x y z w ↔ octets frame 30 4 = [x, y, z, w]) :=
    fun x y z w hy hz hw => address_eq (by omega) hy hz hw
  have hzero : address frame 26 = 0 ↔ octets frame 26 4 = [0, 0, 0, 0] :=
    address_eq (x := 0) (y := 0) (z := 0) (w := 0) (by omega) (by decide) (by decide) (by decide)
  have hports : 28 ≤ word frame 16 → (octets frame 34 4 = [0, 68, 0, 67] ↔
      word frame 34 = 68 ∧ word frame 36 = 67) := by
    intro hleast
    rw [octets_four (by omega), show (68 : Nat) = 256 * 0 + 68 by rfl, word_eq (by decide),
      show (67 : Nat) = 256 * 0 + 67 by rfl, word_eq (by decide)]
    simp [and_assoc]
  have hport : 28 ≤ word frame 16 → (octets frame 36 2 = [0, 53] ↔ word frame 36 = 53) := by
    intro hleast
    rw [octets_two (by omega), show (53 : Nat) = 256 * 0 + 53 by rfl, word_eq (by decide)]
    simp
  -- The first branch is DHCP.
  have hdhcp : (28 ≤ word frame 16 ∧ word frame 20 % 0x4000 = 0 ∧ octets frame 23 1 = [17] ∧
      octets frame 34 4 = [0, 68, 0, 67] ∧
      (octets frame 30 4 = [255, 255, 255, 255] ∨ octets frame 30 4 = [10, 5, 255, 255] ∨
        octets frame 30 4 = [10, 5, 0, 1])) ↔ Dhcp frame := by
    rw [unfragmented_iff, octets_one_eq (by omega), ← hto 255 255 255 255 (by decide) (by decide) (by decide),
      ← hto 10 5 255 255 (by decide) (by decide) (by decide), ← hto 10 5 0 1 (by decide) (by decide) (by decide)]
    constructor
    · rintro ⟨hleast, hwhole, hudp, hfields, hdest⟩
      obtain ⟨hclient, hserver⟩ := (hports hleast).mp hfields
      exact ⟨hudp, hwhole, hleast, hclient, hserver, hdest⟩
    · intro h
      exact ⟨h.least, h.whole, h.udp, (hports h.least).mpr ⟨h.client, h.server⟩, h.destination⟩
  by_cases hcase : 28 ≤ word frame 16 ∧ word frame 20 % 0x4000 = 0 ∧ octets frame 23 1 = [17] ∧
      octets frame 34 4 = [0, 68, 0, 67] ∧
      (octets frame 30 4 = [255, 255, 255, 255] ∨ octets frame 30 4 = [10, 5, 255, 255] ∨
        octets frame 30 4 = [10, 5, 0, 1])
  · rw [if_pos hcase]
    exact iff_of_true rfl (Or.inl (hdhcp.mp hcase))
  rw [if_neg hcase, or_iff_right (mt hdhcp.mpr hcase)]
  have hpublic : publicIpv4 (octets frame 30 4) = true ↔
      ∀ block ∈ RESERVED, ¬ block.Contains (address frame 30) := by
    rw [octets_four (by omega)]
    exact publicIpv4_iff (byte_lt _ _) (byte_lt _ _) (byte_lt _ _) (byte_lt _ _)
  -- What goes to the gateway must be DNS; the gateway itself lies in a reserved block.
  by_cases hgateway : octets frame 30 4 = [10, 5, 0, 1]
  · have hat := (hto 10 5 0 1 (by decide) (by decide) (by decide)).mpr hgateway
    rw [if_pos hgateway]
    simp only [Bool.and_eq_true, decide_eq_true_eq, beq_iff_eq]
    rw [unfragmented_iff]
    constructor
    · rintro ⟨⟨hwhole, hleast⟩, hfield⟩
      exact Or.inl ⟨hwhole, hleast, (hport hleast).mp hfield, hat⟩
    · rintro (h | h)
      · exact ⟨⟨h.whole, h.least⟩, (hport h.least).mpr h.port⟩
      · refine absurd ?_ (h.global ⟨dotted 10 0 0 0, 8⟩ (by decide))
        rw [hat]
        decide
  · have hnot : ¬ Dns frame := fun h =>
      hgateway ((hto 10 5 0 1 (by decide) (by decide) (by decide)).mp h.destination)
    rw [if_neg hgateway, or_iff_right hnot]
    simp only [Bool.and_eq_true, decide_eq_true_eq, Bool.not_eq_true', List.contains_eq_mem,
      decide_eq_false_iff_not]
    rw [hpublic, ne_eq, ← hzero]
    constructor
    · rintro ⟨⟨hsource, hglobal⟩, hforeign⟩
      refine ⟨hsource, hglobal, ?_⟩
      rwa [octets_four (by omega)] at hforeign
    · intro h
      refine ⟨⟨h.source, h.global⟩, ?_⟩
      rw [octets_four (by omega)]
      exact h.foreign

/-- **What the gate lets through.** -/
theorem frameAllowed_iff (frame : Bytes) (hostIps : List (List Nat)) :
    frameAllowed frame hostIps = true ↔ Allowed hostIps frame := by
  unfold frameAllowed Allowed
  -- The checks in their order: what fails one of them lacks a field of `Allowed`.
  by_cases hsize : frame.length < 14 ∨ 1514 < frame.length
  · rw [if_pos hsize]
    exact iff_of_false Bool.false_ne_true fun h => by omega
  rw [if_neg hsize, be16_eq (show 12 + 2 ≤ frame.length by omega)]
  have hbounds : 14 ≤ frame.length ∧ frame.length ≤ 1514 := by omega
  rw [← and_assoc, and_iff_right hbounds]
  by_cases harp : word frame 12 = 0x0806
  · have hnot : ¬ GuestPacket frame := fun h => by
      have := h.etherType
      omega
    rw [if_pos harp, arp_iff harp, or_iff_left fun h => hnot h.1]
  have hnot : ¬ Arp frame := fun h => harp h.etherType
  rw [if_neg harp, or_iff_right hnot]
  by_cases hother : word frame 12 ≠ 0x0800 ∨ frame.length < 34
  · rw [if_pos hother]
    refine iff_of_false Bool.false_ne_true fun h => ?_
    have hether := h.1.etherType
    have hleast := h.1.least
    have hinside := h.1.inside
    omega
  rw [if_neg hother]
  have hlength : 34 ≤ frame.length := by omega
  have hether : word frame 12 = 0x0800 := by omega
  dsimp only
  simp only [octets_drop, be16_drop, Nat.reduceAdd, List.length_drop]
  rw [be16_eq (show 16 + 2 ≤ frame.length by omega), be16_eq (show 20 + 2 ≤ frame.length by omega)]
  by_cases hfirst : octets frame 14 1 ≠ [0x45] ∨ octets frame 23 1 ≠ [6] ∧ octets frame 23 1 ≠ [17]
  · rw [if_pos hfirst]
    refine iff_of_false Bool.false_ne_true fun h => ?_
    have hversion := h.1.version
    have hheader := h.1.headerWords
    rw [ne_eq, ne_eq, ne_eq, octets_one_eq (by omega), octets_one_eq (by omega), octets_one_eq (by omega)] at hfirst
    rcases hfirst with hfirst | ⟨htcp, hudp⟩
    · omega
    · exact h.1.protocol.elim htcp hudp
  rw [if_neg hfirst]
  rw [ne_eq, ne_eq, ne_eq, octets_one_eq (by omega), octets_one_eq (by omega), octets_one_eq (by omega)] at hfirst
  by_cases htotal : word frame 16 < 20 ∨ frame.length - 14 < word frame 16 ∨ 1500 < word frame 16
  · rw [if_pos htotal]
    refine iff_of_false Bool.false_ne_true fun h => ?_
    have hleast := h.1.least
    have hmost := h.1.most
    have hinside := h.1.inside
    omega
  rw [if_neg htotal]
  by_cases hsource : octets frame 26 4 ≠ [0, 0, 0, 0] ∧
      ((octets frame 26 4).take 2 ≠ [10, 5] ∨ octets frame 26 4 = [10, 5, 0, 1])
  · rw [if_pos hsource]
    exact iff_of_false Bool.false_ne_true fun h => (source_iff hlength).mpr h.1.source hsource
  -- Past all of them the frame is a packet of the guest, and its destination decides.
  have hpacket : GuestPacket frame :=
    ⟨hether, by omega, by omega, by omega, by omega, by omega, by unfold TCP UDP; omega,
      (source_iff hlength).mp hsource⟩
  rw [if_neg hsource, and_iff_right hpacket]
  exact destination_iff hlength hpacket.inside

/-- **The network policy.**  The gate never panics, and lets through exactly what is allowed. -/
theorem frame_policy (frame : Bytes) (hostIps : List (List Nat)) :
    Checked.frameAllowed frame hostIps = some (frameAllowed frame hostIps) ∧
      (frameAllowed frame hostIps = true ↔ Allowed hostIps frame) :=
  ⟨checked_frameAllowed frame hostIps, frameAllowed_iff frame hostIps⟩

end Fields

end My98.Relay
