/-
  My98.Relay.Firewall — which Ethernet frames may reach the network stack
  (`src/relay/src/network.rs`: `public_ipv4`, `frame_allowed`).
-/
import Mathlib.Algebra.Order.Ring.Nat
import Mathlib.Tactic.Common
import My98.Lib.Bytes

namespace My98.Relay

open My98.Lib

/-- The numbers of a range of the frame. -/
def octets (frame : Bytes) (off n : Nat) : List Nat := (slice frame off n).map UInt8.toNat

/-- `u16::from_be_bytes` of two bytes. -/
def be16 (frame : Bytes) (off : Nat) : Nat := (octets frame off 2).foldl (fun n b => 256 * n + b) 0

def publicIpv4 (ip : List Nat) : Bool :=
  match ip with
  | [a, b, c, _] =>
    !(a == 0 || a == 10 || a == 127 || decide (a ≥ 224) ||
      (a == 100 && decide (64 ≤ b ∧ b ≤ 127)) || (a == 169 && b == 254) ||
      (a == 172 && decide (16 ≤ b ∧ b ≤ 31)) ||
      (a == 192 && (b == 168 || (b == 0 && (c == 0 || c == 2)) || (b == 88 && c == 99))) ||
      (a == 198 && (b == 18 || b == 19 || (b == 51 && c == 100))) ||
      (a == 203 && b == 0 && c == 113))
  | _ => false

/-- The gate before the network stack. -/
def frameAllowed (frame : Bytes) (hostIps : List (List Nat)) : Bool :=
  if frame.length < 14 ∨ 1514 < frame.length then false
  else if be16 frame 12 = 0x0806 then
    -- only Ethernet/IPv4 ARP
    decide (42 ≤ frame.length) && octets frame 14 6 == [0, 1, 8, 0, 6, 4] &&
      (octets frame 21 1 == [1] || octets frame 21 1 == [2]) && octets frame 20 1 == [0]
  else if be16 frame 12 ≠ 0x0800 ∨ frame.length < 34 then false
  else
    let p := frame.drop 14
    if octets p 0 1 ≠ [0x45] ∨ (octets p 9 1 ≠ [6] ∧ octets p 9 1 ≠ [17]) then false
    else
      let total := be16 p 2
      if total < 20 ∨ p.length < total ∨ 1500 < total then false
      else
        let dest := octets p 16 4
        let source := octets p 12 4
        if source ≠ [0, 0, 0, 0] ∧ (source.take 2 ≠ [10, 5] ∨ source = [10, 5, 0, 1]) then false
        else
          let fragment := be16 p 6 % 0x4000
          if 28 ≤ total ∧ fragment = 0 ∧ octets p 9 1 = [17] ∧ octets p 20 4 = [0, 68, 0, 67] ∧
              (dest = [255, 255, 255, 255] ∨ dest = [10, 5, 255, 255] ∨ dest = [10, 5, 0, 1]) then
            true
          else if dest = [10, 5, 0, 1] then
            -- virtual DNS only
            decide (fragment = 0) && decide (28 ≤ total) && octets p 22 2 == [0, 53]
          else decide (source ≠ [0, 0, 0, 0]) && publicIpv4 dest && !hostIps.contains dest

end My98.Relay
