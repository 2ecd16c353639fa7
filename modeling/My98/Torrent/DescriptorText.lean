/-
  My98.Torrent.DescriptorText — the descriptor as the seedbox reads and writes it
  (`src/torrent/my98_torrent/protocol.py`: `descriptor`, `descriptor_bytes`, `parse_descriptor`).

  A descriptor is a JSON object with exactly four fields.  `json.loads` is called on BYTES: it
  guesses one of the Unicode encodings from the first four of them (`detect_encoding`), decodes
  with the handler `surrogatepass`, and calls the hook `unique` for every object.

    • `decode`            — the codecs;
    • `loads`             — `json.loads(text, object_pairs_hook=unique)` on a text;
    • `parseDescriptor`   — the whole function;
    • `descriptorBytes`   — what the seedbox writes.
-/
import Mathlib.Algebra.Order.Ring.Nat
import Mathlib.Tactic.Common
import My98.Lib.JsonExact
import My98.Lib.Text
import My98.Torrent.Protocol

namespace My98.Torrent.DescriptorText

open My98.Lib My98.Lib.JsonText

/-! ## §1. Descriptors. -/

/-- `[0-9a-f]`. -/
def isHashDigit (c : Nat) : Bool := (48 ≤ c && c ≤ 57) || (97 ≤ c && c ≤ 102)

/-- `[0-9a-f]{40}`. -/
def isHash (text : Units) : Bool := decide (text.length = 40) && text.all isHashDigit

/-- The info hash of a torrent, as text. -/
structure HashText where
  text : Units
  property : isHash text = true
  deriving DecidableEq

/-- A valid descriptor; its version is 1. -/
structure Value where
  disk : HashText
  state : Option HashText
  profile : Option HashText
  deriving DecidableEq

def Value.version (_ : Value) : Nat := 1

def hashText? (text : Units) : Option HashText :=
  if h : isHash text = true then some ⟨text, h⟩ else none

def version : Units := units "version"
def disk : Units := units "disk"
def state : Units := units "state"
def profile : Units := units "profile"

/-- `{"version","disk","state","profile"}`. -/
def names : List Units := [version, disk, state, profile]

def failed (message : String) : Failure := .publication message

/-! ## §2. Codecs. -/

inductive Encoding where
  | utf8
  | utf8sig
  | utf16
  | utf16be
  | utf16le
  | utf32
  | utf32be
  | utf32le
  deriving DecidableEq, Repr

/-- UTF-16 or UTF-32, in any order of bytes. -/
def Encoding.wide : Encoding → Bool
  | .utf8 => false
  | .utf8sig => false
  | _ => true

/-- `json.detect_encoding(b)`. -/
def detectEncoding (b : Bytes) : Encoding :=
  if b.take 4 = [0, 0, 0xFE, 0xFF] ∨ b.take 4 = [0xFF, 0xFE, 0, 0] then .utf32
  else if b.take 2 = [0xFE, 0xFF] ∨ b.take 2 = [0xFF, 0xFE] then .utf16
  else if b.take 3 = byteOrderMark then .utf8sig
  else
    match b with
    | b0 :: b1 :: b2 :: b3 :: _ =>
      if b0 = 0 then (if b1 ≠ 0 then .utf16be else .utf32be)
      else if b1 = 0 then (if b2 ≠ 0 ∨ b3 ≠ 0 then .utf16le else .utf32le)
      else .utf8
    | [b0, b1] =>
      if b0 = 0 then .utf16be
      else if b1 = 0 then .utf16le
      else .utf8
    | _ => .utf8

def isTail (b : UInt8) : Bool := 0x80 ≤ b.toNat && b.toNat ≤ 0xBF

/-- UTF-8 in which a surrogate is a character like any other. -/
def utf8Pass : Bytes → Option Units
  | [] => some []
  | a :: rest =>
    if a.toNat < 0x80 then (utf8Pass rest).map (a.toNat :: ·)
    else
      match rest with
      | [] => none
      | b :: rest =>
        if 0xC2 ≤ a.toNat ∧ a.toNat ≤ 0xDF ∧ isTail b then
          (utf8Pass rest).map (((a.toNat - 0xC0) * 64 + (b.toNat - 0x80)) :: ·)
        else
          match rest with
          | [] => none
          | c :: rest =>
            if 0xE0 ≤ a.toNat ∧ a.toNat ≤ 0xEF ∧ isTail b ∧ isTail c ∧
                (a.toNat = 0xE0 → 0xA0 ≤ b.toNat) then
              (utf8Pass rest).map
                (((a.toNat - 0xE0) * 4096 + (b.toNat - 0x80) * 64 + (c.toNat - 0x80)) :: ·)
            else
              match rest with
              | [] => none
              | d :: rest =>
                if 0xF0 ≤ a.toNat ∧ a.toNat ≤ 0xF4 ∧ isTail b ∧ isTail c ∧ isTail d ∧
                    (a.toNat = 0xF0 → 0x90 ≤ b.toNat) ∧ (a.toNat = 0xF4 → b.toNat ≤ 0x8F) then
                  (utf8Pass rest).map (((a.toNat - 0xF0) * 262144 + (b.toNat - 0x80) * 4096 +
                    (c.toNat - 0x80) * 64 + (d.toNat - 0x80)) :: ·)
                else none

/-- The code units of UTF-16; `none` when a byte is left over. -/
def utf16Units (big : Bool) : Bytes → Option Units
  | [] => some []
  | [_] => none
  | a :: b :: rest =>
    (utf16Units big rest).map
      ((if big then 256 * a.toNat + b.toNat else a.toNat + 256 * b.toNat) :: ·)

/-- Two units that are a surrogate pair are one character; a surrogate alone is one, too. -/
def joinPairs : Units → Units
  | [] => []
  | [c] => [c]
  | c :: d :: rest =>
    if isHigh c && isLow d then pairValue c d :: joinPairs rest else c :: joinPairs (d :: rest)

/-- UTF-32 in which a surrogate is a character like any other. -/
def utf32Pass (big : Bool) : Bytes → Option Units
  | [] => some []
  | a :: b :: c :: d :: rest =>
    let point := if big then leNat [d, c, b, a] else leNat [a, b, c, d]
    if point ≤ 0x10FFFF then (utf32Pass big rest).map (point :: ·) else none
  | _ => none

/-- `b.decode(encoding, "surrogatepass")`. -/
def decode (b : Bytes) : Encoding → Option Units
  | .utf8 => utf8Pass b
  | .utf8sig => utf8Pass (if b.take 3 = byteOrderMark then b.drop 3 else b)
  | .utf16 => (utf16Units (b.take 2 = [0xFE, 0xFF]) (b.drop 2)).map joinPairs
  | .utf16be => (utf16Units true b).map joinPairs
  | .utf16le => (utf16Units false b).map joinPairs
  | .utf32 => utf32Pass (b.take 4 = [0, 0, 0xFE, 0xFF]) (b.drop 4)
  | .utf32be => utf32Pass true b
  | .utf32le => utf32Pass false b

/-! ## §3. `json.loads`. -/

/-- The bare words of `json`. -/
def pyWords : Words :=
  words ++ [(units "NaN", .num (units "NaN")), (units "Infinity", .num (units "Infinity")),
    (units "-Infinity", .num (units "-Infinity"))]

def keys (fields : List (Units × Tree)) : List Units := fields.map fun f => codePoints f.1

mutual

/-- Whether the hook `unique` lets every object pass. -/
def unique : Tree → Bool
  | .arr items => uniqueItems items
  | .obj fields => decide (keys fields).Nodup && uniqueFields fields
  | _ => true

def uniqueItems : List Tree → Bool
  | [] => true
  | v :: vs => unique v && uniqueItems vs

def uniqueFields : List (Units × Tree) → Bool
  | [] => true
  | (_, v) :: fs => unique v && uniqueFields fs

end

/-- `json.loads(text, object_pairs_hook=unique)`.  A duplicate is reported as soon as its object
    ends, also when the text is wrong further on; that only changes which error it is. -/
def loads (text : Units) : Except Failure Tree :=
  match parse pyWords text with
  | none => .error (failed "Invalid publication descriptor")
  | some v => if unique v then .ok v else .error (failed "Duplicate descriptor field")

/-- `value[name]`. -/
def get (fields : List (Units × Tree)) (name : Units) : Option Tree :=
  (fields.find? fun f => codePoints f.1 = name).map (·.2)

def natValue (ds : Units) : Nat := ds.foldl (fun n c => 10 * n + (c - 48)) 0

/-- The `int` a literal is, if it is one. -/
def intValue : Units → Option Int
  | [] => none
  | c :: ds =>
    if c = 45 then (if ds.all isNumeral then some (-(natValue ds : Int)) else none)
    else if (c :: ds).all isNumeral then some (natValue (c :: ds)) else none

def int? : Tree → Option Int
  | .num l => intValue l
  | _ => none

/-- `hash_bytes(value)`, as the text it came from. -/
def hashBytes : Tree → Except Failure HashText
  | .str l =>
    match hashText? (codePoints l) with
    | some h => .ok h
    | none => .error (failed "Infohash must be 40 lowercase hexadecimal digits")
  | _ => .error (failed "Infohash must be 40 lowercase hexadecimal digits")

/-- A component that may be absent. -/
def optionalHash : Tree → Except Failure (Option HashText)
  | .null => .ok none
  | v => (hashBytes v).map some

/-- `set(value) == {"version","disk","state","profile"}`. -/
def hasNames (fields : List (Units × Tree)) : Bool :=
  (keys fields).all (fun k => decide (k ∈ names)) && names.all fun n => decide (n ∈ keys fields)

/-- `descriptor(value)`. -/
def descriptor : Tree → Except Failure Value
  | .obj fields =>
    if hasNames fields ∧ (get fields version).bind int? = some 1 then do
      let disk ← hashBytes ((get fields disk).getD .null)
      let state ← optionalHash ((get fields state).getD .null)
      let profile ← optionalHash ((get fields profile).getD .null)
      pure ⟨disk, state, profile⟩
    else .error (failed "Invalid publication descriptor")
  | _ => .error (failed "Invalid publication descriptor")

def textDescriptor (text : Units) : Except Failure Value := do
  let value ← loads text
  descriptor value

/-- `parse_descriptor(data)` of bytes. -/
def parseDescriptor (data : Bytes) : Except Failure Value :=
  if 4096 < data.length then .error (failed "Publication descriptor exceeds 4096 bytes")
  else
    match decode data (detectEncoding data) with
    | none => .error (failed "Invalid publication descriptor")
    | some text => textDescriptor text

def hashTree (h : HashText) : Tree := .str h.text

def optionalTree : Option HashText → Tree
  | none => .null
  | some h => hashTree h

/-- The dictionary, its keys in order. -/
def Value.tree (v : Value) : Tree :=
  .obj [(units "disk", hashTree v.disk), (units "profile", optionalTree v.profile),
    (units "state", optionalTree v.state), (units "version", .num [49])]

/-- `descriptor_bytes(value)`; all its characters are ASCII. -/
def descriptorBytes (v : Value) : Bytes := (print v.tree).map UInt8.ofNat

end My98.Torrent.DescriptorText
