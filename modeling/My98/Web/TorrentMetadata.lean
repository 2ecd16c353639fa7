/-
  My98.Web.TorrentMetadata — torrent files as the browser reads them
  (`src/disk/web/torrent-protocol.js`: `bdecode`, `verifyMetadata`).

  The browser has a bencode parser of its own.  It decodes keys, integers and the filename with
  `TextDecoder` BEFORE it looks at them, and the decoder drops a leading byte order mark; so every
  such text has two spellings (`spelled`), of which the seedbox takes one.

    • `Parsed`, `Entry`                  — what was read, value by value;
    • `verify_sound`, `verify_complete`  — which files the browser takes;
    • `verify_canonical`                 — the file of a component is one of them.
-/
import Mathlib.Algebra.Order.Ring.Nat
import Mathlib.Tactic.Common
import My98.Lib.Text
import My98.Torrent.Metadata
import My98.Web.TorrentProtocol

namespace My98.Web.Metadata

open My98.Lib My98.Torrent

/-! ## §1. The parser. -/

/-- What `parse` returns as `value`.  An entry of a dictionary keeps the bytes of its value, which
    are `bytes.subarray(start, end)`. -/
inductive Val where
  | int (n : Int)
  | bytes (b : Bytes)
  | list (items : List Val)
  | dict (entries : List (String × Val × Bytes))

/-- What is left of the input, and the nodes counted so far. -/
structure Cursor where
  rest : Bytes
  nodes : Nat

/-- What `TextDecoder` throws. -/
def typeError : Fail := ⟨"", "The encoded data was not valid for encoding utf-8"⟩

def structureLimit : Fail := invalid "Torrent metadata structure exceeds limits"

/-- `number(end, negative)`. -/
def number (close : UInt8) (negative : Bool) (rest : Bytes) : Except Fail (Int × Bytes) :=
  match rest.dropWhile (· ≠ close) with
  | [] => .error (invalid "Invalid torrent integer")
  | _ :: after =>
    if 17 < (rest.takeWhile (· ≠ close)).length then .error (invalid "Invalid torrent integer")
    else
      match decodeText (rest.takeWhile (· ≠ close)) with
      | none => .error typeError
      | some text =>
        match integerText negative text.toList with
        | none => .error (invalid "Unsafe or noncanonical torrent integer")
        | some n =>
          if n.natAbs ≤ 2 ^ 53 - 1 then .ok (n, after)
          else .error (invalid "Unsafe or noncanonical torrent integer")

/-- A string: its length, and as many bytes. -/
def string (rest : Bytes) : Except Fail (Bytes × Bytes) := do
  let (length, after) ← number 58 false rest
  if length < 0 ∨ after.length < length.toNat then throw (invalid "Truncated torrent string")
  return (after.take length.toNat, after.drop length.toNat)

/-- The bytes between two cursors. -/
def between (start stop : Cursor) : Bytes :=
  start.rest.take (start.rest.length - stop.rest.length)

mutual

/-- `parse(depth)`. -/
def parse : Nat → Nat → Cursor → Except Fail (Val × Cursor)
  | 0, _, _ => .error structureLimit
  | fuel + 1, depth, c =>
    match c.rest with
    | [] => .error structureLimit
    | type :: after =>
      if 256 < c.nodes + 1 ∨ 8 < depth then .error structureLimit
      else if type = 105 then do
        let (n, rest) ← number 101 true after
        return (.int n, ⟨rest, c.nodes + 1⟩)
      else if type = 100 then do
        let (entries, c') ← parseDict fuel depth none ⟨after, c.nodes + 1⟩
        return (.dict entries, c')
      else if type = 108 then do
        let (items, c') ← parseList fuel depth ⟨after, c.nodes + 1⟩
        return (.list items, c')
      else if 48 ≤ type ∧ type ≤ 57 then do
        let (b, rest) ← string c.rest
        return (.bytes b, ⟨rest, c.nodes + 1⟩)
      else .error (invalid "Invalid torrent bencoding")

/-- The loop over a dictionary. -/
def parseDict : Nat → Nat → Option String → Cursor →
    Except Fail (List (String × Val × Bytes) × Cursor)
  | 0, _, _, _ => .error structureLimit
  | fuel + 1, depth, previous, c =>
    match c.rest with
    | 101 :: after => .ok ([], ⟨after, c.nodes⟩)
    | _ => do
      let (key, c₁) ← parse fuel (depth + 1) c
      match key with
      | .bytes b =>
        match decodeText b with
        | none => .error typeError
        | some name =>
          if previous.all fun p => textLt p name then do
            let (value, c₂) ← parse fuel (depth + 1) c₁
            let (entries, c₃) ← parseDict fuel depth (some name) c₂
            return ((name, value, between c₁ c₂) :: entries, c₃)
          else .error (invalid "Noncanonical torrent dictionary")
      | _ => .error (invalid "Invalid torrent dictionary key")

/-- The loop over a list. -/
def parseList : Nat → Nat → Cursor → Except Fail (List Val × Cursor)
  | 0, _, _ => .error structureLimit
  | fuel + 1, depth, c =>
    match c.rest with
    | 101 :: after => .ok ([], ⟨after, c.nodes⟩)
    | _ => do
      let (item, c₁) ← parse fuel (depth + 1) c
      let (items, c₂) ← parseList fuel depth c₁
      return (item :: items, c₂)

end

/-- `bdecode(bytes)`.  Two calls a node and the node limit bound the recursion. -/
def bdecode (bytes : Bytes) : Except Fail Val := do
  let (value, c) ← parse 514 0 ⟨bytes, 0⟩
  if c.rest ≠ [] then throw (invalid "Trailing torrent metadata")
  return value

/-! ## §2. `verifyMetadata`. -/

/-- `COMPONENT_NAMES` and `limits`. -/
def componentNames : List (Component × String) :=
  [(.descriptor, "publication.json"), (.disk, "disk.my98"), (.state, "state.my98state"),
    (.profile, "profile.json")]

def limits : Component → Nat
  | .descriptor => 4096
  | .disk => 2 ^ 40 + 2 ^ 30 + 198
  | .state => 2 ^ 30 + 65536
  | .profile => 65536

namespace Val

/-- The entries of a dictionary; nothing else has any that a caller asks for. -/
def entries : Val → List (String × Val × Bytes)
  | dict es => es
  | _ => []

/-- `value[name]`: the value and its bytes. -/
def get? (v : Val) (name : String) : Option (Val × Bytes) :=
  (v.entries.find? fun e => e.1 = name).map (·.2)

def intField (v : Val) (name : String) : Option Int :=
  match v.get? name with
  | some (int n, _) => some n
  | _ => none

def bytesField (v : Val) (name : String) : Option Bytes :=
  match v.get? name with
  | some (bytes b, _) => some b
  | _ => none

end Val

def infoNames : List String := ["name", "length", "piece length", "pieces"]

/-- `keysAre(info.value, […])`. -/
def hasInfoNames (info : Val) : Bool :=
  decide (info.entries.length = infoNames.length) &&
    infoNames.all fun n => decide (n ∈ info.entries.map (·.1))

/-- `name instanceof Uint8Array ? decoder.decode(name) : ""`. -/
def filenameOf (info : Val) : Except Fail String :=
  match info.bytesField "name" with
  | none => .ok ""
  | some b =>
    match decodeText b with
    | none => .error typeError
    | some text => .ok text

/-- The checks of the dictionary `info`, whose bytes are `raw`. -/
def verifyInfo (sha1 : Bytes → Bytes) (info : Val) (raw : Bytes) (expected : String)
    (kind : Option Component) : Except Fail Report := do
  let filename ← filenameOf info
  match componentNames.find? (fun c => c.2 = filename), info.intField "length",
      info.bytesField "pieces" with
  | some (actual, _), some size, some hashes =>
    if kind.any (fun k => decide (k ≠ actual)) then
      .error (invalid "Incorrect torrent component filename")
    else if size < 1 ∨ limits actual < size ∨ info.intField "piece length" ≠ some (256 * 1024) ∨
        hashes.length ≠ 20 * ((size.toNat + 256 * 1024 - 1) / (256 * 1024)) then
      .error (invalid "Invalid torrent size, piece length or piece hashes")
    else if hex (sha1 raw) ≠ expected then
      .error (invalid "Torrent metadata does not match the publication infohash")
    else
      .ok ⟨hex (sha1 raw), actual, filename, size.toNat,
        (size.toNat + 256 * 1024 - 1) / (256 * 1024)⟩
  | some (actual, _), _, _ =>
    if kind.any (fun k => decide (k ≠ actual)) then
      .error (invalid "Incorrect torrent component filename")
    else .error (invalid "Invalid torrent size, piece length or piece hashes")
  | none, _, _ => .error (invalid "Incorrect torrent component filename")

def verifyMetadata (sha1 : Bytes → Bytes) (bytes : Bytes) (expected : String)
    (kind : Option Component) : Except Fail Report :=
  if (unhex expected 20).isNone then .error (invalid "Invalid canonical hexadecimal value")
  else if bytes.length = 0 ∨ metadataLimit kind < bytes.length then
    .error (invalid "Invalid torrent metadata size")
  else
    match bdecode bytes with
    | .error cause =>
      .error (invalid ("Invalid canonical torrent metadata: " ++ cause.message))
    | .ok value =>
      match value.get? "info" with
      | none => .error (invalid "Only single-file v1 torrents are accepted")
      | some (info, raw) =>
        if hasInfoNames info then verifyInfo sha1 info raw expected kind
        else .error (invalid "Only single-file v1 torrents are accepted")

/-! ## §3. Texts in the input. -/

/-- The part before a mark, and the part from it. -/
theorem takeWhile_append_cons {p : UInt8 → Bool} {a : Bytes} {x : UInt8} {r : Bytes}
    (ha : ∀ y ∈ a, p y = true) (hx : p x = false) :
    (a ++ x :: r).takeWhile p = a ∧ (a ++ x :: r).dropWhile p = x :: r := by
  induction a with
  | nil => simp [hx]
  | cons y a ih =>
    obtain ⟨htake, hdrop⟩ := ih fun z hz => ha z (List.mem_cons_of_mem _ hz)
    have hy := ha y List.mem_cons_self
    simp [hy, htake, hdrop]

/-- What `number` reads. -/
theorem number_ok {close : UInt8} {negative : Bool} {rest after : Bytes} {n : Int}
    (h : number close negative rest = .ok (n, after)) :
    ∃ digits text, rest = digits ++ close :: after ∧ decodeText digits = some text ∧
      integerText negative text.toList = some n := by
  unfold number at h
  split at h
  · cases h
  next x after' hdrop =>
    split at h
    · cases h
    · split at h
      · cases h
      next text htext =>
        split at h
        · cases h
        next m hm =>
          split at h
          · obtain ⟨rfl, rfl⟩ := Prod.mk.inj (Except.ok.inj h)
            have hx : x = close := by
              have hhead := List.head?_dropWhile_not (· ≠ close) rest
              rw [hdrop] at hhead
              simpa using hhead
            subst hx
            refine ⟨_, text, ?_, htext, hm⟩
            rw [← hdrop, List.takeWhile_append_dropWhile]
          · cases h

/-- A number is read from its digits up to the mark, whatever follows. -/
theorem number_eq {close : UInt8} {negative : Bool} {digits after : Bytes} {text : String} {n : Int}
    (hdigits : ∀ y ∈ digits, y ≠ close) (hlen : digits.length ≤ 17)
    (htext : decodeText digits = some text) (hn : integerText negative text.toList = some n)
    (hsafe : n.natAbs ≤ 2 ^ 53 - 1) :
    number close negative (digits ++ close :: after) = .ok (n, after) := by
  obtain ⟨htake, hdrop⟩ := takeWhile_append_cons (p := fun y => decide (y ≠ close)) (x := close)
    (r := after) (a := digits) (by simpa using hdigits) (by simp)
  unfold number
  rw [hdrop, htake]
  dsimp only
  rw [if_neg (by omega), htext]
  dsimp only
  rw [hn]
  dsimp only
  rw [if_pos hsafe]

/-- The text of a number. -/
def digitsText (n : Nat) : String := String.ofList (Nat.toDigits 10 n)

/-- Digits are ASCII. -/
theorem digitsText_ascii (n : Nat) : Ascii7 (digitsText n).toList := by
  intro c hc
  rw [digitsText, String.toList_ofList] at hc
  have := digit_range hc
  omega

/-- The digits of a number are its bytes in decimal. -/
theorem encodeText_digits (n : Nat) : encodeText (digitsText n) = decimalText n := by
  rw [encodeText_ascii (digitsText_ascii n), digitsText, String.toList_ofList]
  rfl

/-- A text is told by its digits. -/
theorem eq_digitsText {text : String} {n : Nat} (h : text.toList = Nat.toDigits 10 n) :
    text = digitsText n := by
  rw [digitsText, ← h, String.ofList_toList]

/-- A number that is not negative has one text. -/
theorem integerText_natural {negative : Bool} {cs : List Char} {n : Int} (hn : 0 ≤ n)
    (h : integerText negative cs = some n) : cs = Nat.toDigits 10 n.toNat := by
  unfold integerText at h
  split at h
  · obtain ⟨m, hm, h⟩ := Option.bind_eq_some_iff.mp h
    split at h
    · cases h
    · obtain rfl := Option.some.inj h
      omega
  · obtain ⟨m, hm, rfl⟩ := Option.map_eq_some_iff.mp h
    exact naturalText_eq_some.mp hm

/-- The digits of a number are read as it, with a sign allowed or not. -/
theorem integerText_digits (negative : Bool) (n : Nat) :
    integerText negative (Nat.toDigits 10 n) = some (n : Int) := by
  have hnat := naturalText_eq_some.mpr (rfl : Nat.toDigits 10 n = Nat.toDigits 10 n)
  unfold integerText
  split
  next cs hcs =>
    -- A digit is no sign.
    have hmem : '-' ∈ Nat.toDigits 10 n := by
      rw [hcs]
      exact List.mem_cons_self
    exact absurd (digit_range hmem) (by decide)
  · rw [hnat]
    rfl

/-- An integer of a dictionary, with or without a mark. -/
def intBytes (mark : Bool) (n : Nat) : Bytes := 105 :: marked mark (decimalText n) ++ [101]

/-! ## §4. What was read. -/

/-- A decimal starts with a digit. -/
theorem decimalText_head {n : Nat} {b : UInt8} {r r' : Bytes} (h : decimalText n ++ r = b :: r') :
    isDigit b = true := by
  cases ht : decimalText n with
  | nil => exact absurd ht (decimalText_ne_nil n)
  | cons d ds =>
    rw [ht] at h
    obtain ⟨rfl, -⟩ := List.cons.inj h
    exact isDigit_of_mem_decimal (n := n) (by rw [ht]; exact List.mem_cons_self)

/-- A number that is not negative, and how it was spelled. -/
theorem number_natural {close : UInt8} {negative : Bool} {rest after : Bytes} {n : Int}
    (hn : 0 ≤ n) (h : number close negative rest = .ok (n, after)) :
    ∃ mark, rest = marked mark (decimalText n.toNat) ++ close :: after := by
  obtain ⟨digits, text, hrest, htext, hint⟩ := number_ok h
  obtain ⟨mark, hdigits⟩ := decodeText_sound htext
  refine ⟨mark, ?_⟩
  rw [hrest, hdigits, eq_digitsText (integerText_natural hn hint), encodeText_digits]

/-- Without a sign nothing below zero is read. -/
theorem integerText_nonneg {cs : List Char} {n : Int} (h : integerText false cs = some n) :
    0 ≤ n := by
  obtain ⟨m, -, rfl⟩ := Option.map_eq_some_iff.mp h
  exact Int.natCast_nonneg m

/-- A string whose length starts with a digit has no mark. -/
theorem string_ok {type : UInt8} {after b rest : Bytes} (hdigit : 48 ≤ type ∧ type ≤ 57)
    (h : string (type :: after) = .ok (b, rest)) : type :: after = netstring b ++ rest := by
  unfold string at h
  obtain ⟨⟨n, tail⟩, hnumber, h⟩ := ok_of_bind h
  obtain ⟨_, text, _, _, hint⟩ := number_ok hnumber
  obtain ⟨mark, hspell⟩ := number_natural (integerText_nonneg hint) hnumber
  dsimp only at h
  split at h
  · cases h
  next hlen =>
    obtain ⟨rfl, rfl⟩ := Prod.mk.inj (Except.ok.inj h)
    have htake : (tail.take n.toNat).length = n.toNat := by
      rw [List.length_take]
      omega
    cases mark with
    | true =>
      -- the mark's first byte is no digit
      obtain ⟨rfl, -⟩ := List.cons.inj hspell
      exact absurd hdigit (by decide)
    | false =>
      rw [hspell, netstring, htake, List.append_assoc, List.cons_append, List.take_append_drop]
      rfl

/-- What `parse` has read, by the kind of value. -/
inductive Parsed (fuel depth : Nat) (c c' : Cursor) : Val → Prop where
  | int {n : Int} {after : Bytes} (start : c.rest = 105 :: after)
      (number : number 101 true after = .ok (n, c'.rest)) : Parsed fuel depth c c' (.int n)
  | bytes {type : UInt8} {after b : Bytes} (start : c.rest = type :: after)
      (digit : 48 ≤ type ∧ type ≤ 57) (string : string (type :: after) = .ok (b, c'.rest)) :
      Parsed fuel depth c c' (.bytes b)
  | dict {after : Bytes} {es : List (String × Val × Bytes)} (start : c.rest = 100 :: after)
      (loop : parseDict fuel depth none ⟨after, c.nodes + 1⟩ = .ok (es, c')) :
      Parsed fuel depth c c' (.dict es)
  | list {after : Bytes} {items : List Val} (start : c.rest = 108 :: after)
      (loop : parseList fuel depth ⟨after, c.nodes + 1⟩ = .ok (items, c')) :
      Parsed fuel depth c c' (.list items)

/-- What `parse` accepts was read by one of its branches. -/
theorem parse_ok {fuel depth : Nat} {c c' : Cursor} {v : Val}
    (h : parse fuel depth c = .ok (v, c')) :
    ∃ fuel', fuel = fuel' + 1 ∧ Parsed fuel' depth c c' v := by
  cases fuel with
  | zero => cases h
  | succ fuel =>
    refine ⟨fuel, rfl, ?_⟩
    rw [parse] at h
    split at h
    · cases h
    next type after hrest =>
      split at h
      · cases h
      · split at h
        next htype =>
          obtain ⟨⟨n, rest⟩, hnumber, h⟩ := ok_of_bind h
          cases h
          exact .int (hrest.trans (by rw [htype])) hnumber
        · split at h
          next htype =>
            obtain ⟨⟨es, c₁⟩, hloop, h⟩ := ok_of_bind h
            cases h
            exact .dict (hrest.trans (by rw [htype])) hloop
          · split at h
            next htype =>
              obtain ⟨⟨items, c₁⟩, hloop, h⟩ := ok_of_bind h
              cases h
              exact .list (hrest.trans (by rw [htype])) hloop
            · split at h
              next hdigit =>
                obtain ⟨⟨b, rest⟩, hstring, h⟩ := ok_of_bind h
                cases h
                rw [hrest] at hstring
                exact .bytes hrest hdigit hstring
              · cases h

/-- A value does not start with the byte that ends a list. -/
theorem parse_start {fuel depth : Nat} {c c' : Cursor} {v : Val}
    (h : parse fuel depth c = .ok (v, c')) : ∃ type after, c.rest = type :: after ∧ type ≠ 101 := by
  obtain ⟨_, -, hparsed⟩ := parse_ok h
  cases hparsed with
  | int hstart _ => exact ⟨_, _, hstart, by decide⟩
  | bytes hstart hdigit _ =>
    refine ⟨_, _, hstart, ?_⟩
    rintro rfl
    exact absurd hdigit (by decide)
  | dict hstart _ => exact ⟨_, _, hstart, by decide⟩
  | list hstart _ => exact ⟨_, _, hstart, by decide⟩

/-- A string was read from its netstring. -/
theorem parse_bytes_ok {fuel depth : Nat} {c c' : Cursor} {b : Bytes}
    (h : parse fuel depth c = .ok (.bytes b, c')) : c.rest = netstring b ++ c'.rest := by
  obtain ⟨_, -, hparsed⟩ := parse_ok h
  cases hparsed with
  | bytes hstart hdigit hstring =>
    rw [hstart]
    exact string_ok hdigit hstring

/-- An integer that is not negative was read from its digits, with a byte order mark or without. -/
theorem parse_int_ok {fuel depth : Nat} {c c' : Cursor} {n : Int} (hn : 0 ≤ n)
    (h : parse fuel depth c = .ok (.int n, c')) :
    ∃ mark, c.rest = intBytes mark n.toNat ++ c'.rest := by
  obtain ⟨_, -, hparsed⟩ := parse_ok h
  cases hparsed with
  | int hstart hnumber =>
    obtain ⟨mark, hafter⟩ := number_natural hn hnumber
    refine ⟨mark, ?_⟩
    rw [hstart, hafter]
    simp [intBytes]

/-- A dictionary was read after its `d` by the loop over its entries. -/
theorem parse_dict_ok {fuel depth : Nat} {c c' : Cursor} {es : List (String × Val × Bytes)}
    (h : parse fuel depth c = .ok (.dict es, c')) :
    ∃ fuel' after, c.rest = 100 :: after ∧
      parseDict fuel' depth none ⟨after, c.nodes + 1⟩ = .ok (es, c') := by
  obtain ⟨fuel', -, hparsed⟩ := parse_ok h
  cases hparsed with
  | dict hstart hloop => exact ⟨fuel', _, hstart, hloop⟩

/-- One entry of a dictionary: its key, in order, and its value. -/
structure Entry (fuel depth : Nat) (previous : Option String) (c c' : Cursor)
    (e : String × Val × Bytes) : Prop where
  entry : ∃ b c₁, c.rest = netstring b ++ c₁.rest ∧ decodeText b = some e.1 ∧
    parse fuel (depth + 1) c₁ = .ok (e.2.1, c') ∧ e.2.2 = between c₁ c'
  later : ∀ p ∈ previous, textLt p e.1 = true

/-- The loop ends at an `e`. -/
theorem parseDict_nil {fuel depth : Nat} {previous : Option String} {c c' : Cursor}
    (h : parseDict fuel depth previous c = .ok ([], c')) : c.rest = 101 :: c'.rest := by
  cases fuel with
  | zero => cases h
  | succ fuel =>
    rw [parseDict] at h
    split at h
    next after hrest =>
      cases h
      exact hrest
    · obtain ⟨⟨key, c₁⟩, -, h⟩ := ok_of_bind h
      dsimp only at h
      split at h
      · split at h
        · cases h
        · split at h
          · obtain ⟨_, -, h⟩ := ok_of_bind h
            obtain ⟨_, -, h⟩ := ok_of_bind h
            cases h
          · cases h
      · cases h

/-- Or it reads an entry and goes on behind it. -/
theorem parseDict_cons {fuel depth : Nat} {previous : Option String} {c c' : Cursor}
    {e : String × Val × Bytes} {es : List (String × Val × Bytes)}
    (h : parseDict fuel depth previous c = .ok (e :: es, c')) :
    ∃ fuel' c₁, fuel = fuel' + 1 ∧ Entry fuel' depth previous c c₁ e ∧
      parseDict fuel' depth (some e.1) c₁ = .ok (es, c') := by
  cases fuel with
  | zero => cases h
  | succ fuel =>
    rw [parseDict] at h
    split at h
    · cases h
    · obtain ⟨⟨key, c₁⟩, hkey, h⟩ := ok_of_bind h
      dsimp only at h
      split at h
      next b =>
        split at h
        · cases h
        next name hname =>
          split at h
          next hlater =>
            obtain ⟨⟨value, c₂⟩, hvalue, h⟩ := ok_of_bind h
            obtain ⟨⟨entries, c₃⟩, hloop, h⟩ := ok_of_bind h
            cases h
            refine ⟨fuel, c₂, rfl, ⟨⟨b, c₁, parse_bytes_ok hkey, hname, hvalue, rfl⟩, ?_⟩, hloop⟩
            intro p hp
            rw [Option.mem_def] at hp
            rw [hp] at hlater
            exact hlater
          · cases h
      · cases h

/-- No key is before itself. -/
theorem textLt_irrefl (a : String) : ¬textLt a a = true := by
  rw [textLt, decide_eq_true_eq]
  exact List.lt_irrefl _

/-- The order of keys is transitive. -/
theorem textLt_trans (a b d : String) (hab : textLt a b = true) (hbd : textLt b d = true) :
    textLt a d = true := by
  simp only [textLt, decide_eq_true_eq] at hab hbd ⊢
  exact List.lt_trans hab hbd

/-- The keys of a dictionary are in order, each once. -/
theorem parseDict_sorted {es : List (String × Val × Bytes)} :
    ∀ {fuel depth : Nat} {previous : Option String} {c c' : Cursor},
    parseDict fuel depth previous c = .ok (es, c') →
      (∀ p ∈ previous, ∀ e ∈ es, textLt p e.1 = true) ∧
        (es.map (·.1)).Pairwise fun a b => textLt a b = true := by
  induction es with
  | nil =>
    intro _ _ _ _ _ _
    exact ⟨fun _ _ _ he => absurd he List.not_mem_nil, .nil⟩
  | cons e es ih =>
    intro fuel depth previous c c' h
    obtain ⟨fuel', c₁, -, hentry, hloop⟩ := parseDict_cons h
    obtain ⟨hbound, hsorted⟩ := ih hloop
    have hafter : ∀ x ∈ es, textLt e.1 x.1 = true := hbound e.1 rfl
    refine ⟨?_, ?_⟩
    · intro p hp x hx
      have hpe := hentry.later p hp
      rcases List.mem_cons.mp hx with rfl | hx
      · exact hpe
      · exact textLt_trans p e.1 x.1 hpe (hafter x hx)
    · rw [List.map_cons, List.pairwise_cons]
      refine ⟨?_, hsorted⟩
      intro name hname
      obtain ⟨x, hx, rfl⟩ := List.mem_map.mp hname
      exact hafter x hx

/-- The four names in order. -/
def sortedNames : List String := ["length", "name", "piece length", "pieces"]

/-- Sorted keys that are those of an info dictionary are in the order of the encoder. -/
theorem names_of_hasInfoNames {es : List (String × Val × Bytes)}
    (hsorted : (es.map (·.1)).Pairwise fun a b => textLt a b = true)
    (h : hasInfoNames (.dict es) = true) : es.map (·.1) = sortedNames := by
  unfold hasInfoNames at h
  rw [Bool.and_eq_true, List.all_eq_true] at h
  have hlen : es.length = infoNames.length := of_decide_eq_true h.1
  have hall : infoNames ⊆ es.map (·.1) := fun name hname => of_decide_eq_true (h.2 name hname)
  have hnodup : infoNames.Nodup := by decide
  have hsub : infoNames.Subperm (es.map (·.1)) := List.subperm_of_subset hnodup hall
  have hperm : infoNames.Perm (es.map (·.1)) :=
    hsub.perm_of_length_le (by rw [List.length_map, hlen])
  have hsame : infoNames.Perm sortedNames := by decide
  refine eq_of_sorted textLt_irrefl textLt_trans hsorted (by decide +kernel) ?_
  intro name
  exact (hperm.symm.trans hsame).mem_iff

/-! ## §5. Which files are taken. -/

/-- Where the dictionary of a component has byte order marks. -/
structure Marks where
  lengthKey : Bool
  length : Bool
  nameKey : Bool
  name : Bool
  pieceLengthKey : Bool
  pieceLength : Bool
  piecesKey : Bool
  deriving DecidableEq

def Marks.none : Marks := ⟨false, false, false, false, false, false, false⟩

/-- The dictionary of a component with these marks. -/
def spelled (m : Marks) (size : Nat) (k : Component) (pieces : Bytes) : Bytes :=
  100 :: (netstring (marked m.lengthKey (ascii "length")) ++ intBytes m.length size ++
    (netstring (marked m.nameKey (ascii "name")) ++
      netstring (marked m.name (ascii k.fileName))) ++
    (netstring (marked m.pieceLengthKey (ascii "piece length")) ++
      intBytes m.pieceLength Torrent.pieceLength) ++
    (netstring (marked m.piecesKey (ascii "pieces")) ++ netstring pieces)) ++ [101]

/-- A natural number is written in decimal. -/
theorem intText_natural (n : Nat) : Ben.intText n = decimalText n := by
  unfold Ben.intText
  rw [if_neg (by omega)]
  rfl

/-- Without marks it is the canonical dictionary. -/
theorem spelled_none (size : Nat) (k : Component) (pieces : Bytes) :
    spelled .none size k pieces = (infoDict size k pieces).encode := by
  simp [spelled, Marks.none, marked, intBytes, infoDict, infoEntries, Ben.encode, Ben.encodeEntries,
    intText_natural]

/-- The bytes between two cursors are what was read. -/
theorem between_eq {c c' : Cursor} {b : Bytes} (h : c.rest = b ++ c'.rest) : between c c' = b := by
  unfold between
  rw [h, List.length_append, Nat.add_sub_cancel, List.take_left]

/-- ASCII text has one byte for each character. -/
theorem ascii_eq_encodeText {s : String} (hs : Ascii7 s.toList) : ascii s = encodeText s := by
  rw [encodeText_ascii hs]
  rfl

/-- A key and the text it was decoded to. -/
theorem key_spelled {b : Bytes} {s : String} (hs : Ascii7 s.toList)
    (h : decodeText b = some s) : ∃ mark, b = marked mark (ascii s) := by
  obtain ⟨mark, hb⟩ := decodeText_sound h
  exact ⟨mark, by rw [hb, ascii_eq_encodeText hs]⟩

/-- One input starts with one dictionary of a component. -/
theorem infoDict_append_inj {size size' : Nat} {k k' : Component} {pieces pieces' r r' : Bytes}
    (h : (infoDict size k pieces).encode ++ r = (infoDict size' k' pieces').encode ++ r') :
    size = size' ∧ k = k' ∧ pieces = pieces' ∧ r = r' := by
  obtain ⟨hdict, hrest⟩ := Ben.encode_append_inj _ _ h
  simp only [infoDict, infoEntries, Ben.dict.injEq, List.cons.injEq, Prod.mk.injEq, true_and,
    Ben.int.injEq, Ben.str.injEq, and_true] at hdict
  obtain ⟨hsize, hname, hpieces⟩ := hdict
  have hk := congrArg componentOf hname
  rw [componentOf_fileName, componentOf_fileName] at hk
  exact ⟨Int.ofNat.inj hsize, Option.some.inj hk, hpieces, hrest⟩

/-- Both programs have the same limit for a component. -/
theorem limits_eq (k : Component) : limits k = k.limit := by
  cases k <;> rfl

/-- A file name that is found is that of its component. -/
theorem find_component {text : String} {k : Component} {name : String}
    (h : componentNames.find? (fun c => c.2 = text) = some (k, name)) : text = k.fileName := by
  have htext : name = text := by
    have := List.find?_some h
    simpa using this
  have hall : ∀ c ∈ componentNames, c.2 = c.1.fileName := by decide
  rw [← htext]
  exact hall _ (List.mem_of_find?_eq_some h)

/-- Every component has a name. -/
theorem find_fileName (k : Component) :
    ∃ name, componentNames.find? (fun c => c.2 = k.fileName) = some (k, name) := by
  cases k with
  | disk => exact ⟨_, rfl⟩
  | state => exact ⟨_, rfl⟩
  | profile => exact ⟨_, rfl⟩
  | descriptor => exact ⟨_, rfl⟩

/-- The component is the one that is asked for, if one is. -/
theorem kind_all {kind : Option Component} {k : Component} :
    kind.any (fun k' => decide (k' ≠ k)) = false ↔ kind.all (· = k) = true := by
  cases kind with
  | none => simp
  | some k' => simp

/-- The fields of `info` that `verifyInfo` asks for. -/
structure Fields (info : Val) (kind : Option Component) (size : Nat) (k : Component)
    (pieces : Bytes) : Prop where
  name : filenameOf info = .ok k.fileName
  length : info.intField "length" = some (size : Int)
  pieceLength : info.intField "piece length" = some (Torrent.pieceLength : Int)
  hashes : info.bytesField "pieces" = some pieces
  fits : Fits kind size k pieces

/-- **The checks of `info`.** -/
theorem verifyInfo_ok {sha1 : Bytes → Bytes} {info : Val} {raw : Bytes} {expected : String}
    {kind : Option Component} {r : Report}
    (h : verifyInfo sha1 info raw expected kind = .ok r) :
    ∃ size k pieces, Fields info kind size k pieces ∧ expected = hex (sha1 raw) ∧
      r = ⟨expected, k, k.fileName, size, pieceCount size⟩ := by
  unfold verifyInfo at h
  obtain ⟨filename, hfilename, h⟩ := ok_of_bind h
  split at h
  next k name size pieces hfind hlength hpieces =>
    split at h
    · cases h
    next hkind =>
      split at h
      · cases h
      next hrange =>
        push Not at hrange
        obtain ⟨hlow, hhigh, hpl, hcount⟩ := hrange
        split at h
        · cases h
        next hhash =>
          obtain rfl := Except.ok.inj h
          obtain rfl := find_component hfind
          obtain rfl := not_not.mp hhash
          rw [limits_eq] at hhigh
          have hnat : ((size.toNat : Nat) : Int) = size := by omega
          refine ⟨size.toNat, k, pieces, ⟨hfilename, ?_, hpl, hpieces, ?_, ?_, ?_, hcount⟩, rfl,
            rfl⟩
          · rw [hnat]
            exact hlength
          · omega
          · omega
          · exact kind_all.mp (by simpa using hkind)
  · split at h
    · cases h
    · cases h
  · cases h

/-- An info dictionary with good fields and the right hash passes. -/
theorem verifyInfo_eq {sha1 : Bytes → Bytes} {info : Val} {raw : Bytes} {expected : String}
    {kind : Option Component} {size : Nat} {k : Component} {pieces : Bytes}
    (h : Fields info kind size k pieces) (hhash : expected = hex (sha1 raw)) :
    verifyInfo sha1 info raw expected kind =
      .ok ⟨expected, k, k.fileName, size, pieceCount size⟩ := by
  obtain ⟨name, hfind⟩ := find_fileName k
  have hlow := h.fits.low
  have hhigh := h.fits.high
  have hpl := h.pieceLength
  have hcount := h.fits.pieces
  have hrange : ¬((size : Int) < 1 ∨ (limits k : Int) < size ∨
      info.intField "piece length" ≠ some (256 * 1024) ∨
      pieces.length ≠ 20 * (((size : Int).toNat + 256 * 1024 - 1) / (256 * 1024))) := by
    rw [limits_eq]
    rintro (hbad | hbad | hbad | hbad)
    · omega
    · omega
    · exact hbad hpl
    · exact hbad hcount
  unfold verifyInfo
  rw [h.name, h.length, h.hashes]
  show (match componentNames.find? (fun c => c.2 = k.fileName), some (size : Int), some pieces with
    | some (actual, _), some size, some hashes => _
    | some (actual, _), _, _ => _
    | none, _, _ => _) = _
  rw [hfind]
  dsimp only
  rw [kind_all.mpr h.fits.kind, if_neg (by decide), if_neg hrange, hhash, if_neg (by simp)]
  rfl

/-- A dictionary with these names, in order. -/
def fourFields (v₁ v₂ v₃ v₄ : Val × Bytes) : List (String × Val × Bytes) :=
  [("length", v₁), ("name", v₂), ("piece length", v₃), ("pieces", v₄)]

/-- Four entries in the order of the encoder. -/
theorem four_of_names {es : List (String × Val × Bytes)} (h : es.map (·.1) = sortedNames) :
    ∃ v₁ v₂ v₃ v₄, es = fourFields v₁ v₂ v₃ v₄ := by
  match es, h with
  | [(_, v₁), (_, v₂), (_, v₃), (_, v₄)], h =>
    simp only [List.map_cons, List.map_nil, sortedNames, List.cons.injEq] at h
    obtain ⟨rfl, rfl, rfl, rfl, -⟩ := h
    exact ⟨v₁, v₂, v₃, v₄, rfl⟩

/-- An integer field is an entry of the dictionary. -/
theorem intField_some {v : Val} {name : String} {n : Int} (h : v.intField name = some n) :
    ∃ raw, v.get? name = some (.int n, raw) := by
  unfold Val.intField at h
  split at h
  next m raw hget =>
    obtain rfl := Option.some.inj h
    exact ⟨raw, hget⟩
  · cases h

/-- So is a field of bytes. -/
theorem bytesField_some {v : Val} {name : String} {b : Bytes} (h : v.bytesField name = some b) :
    ∃ raw, v.get? name = some (.bytes b, raw) := by
  unfold Val.bytesField at h
  split at h
  next b' raw hget =>
    obtain rfl := Option.some.inj h
    exact ⟨raw, hget⟩
  · cases h

/-- A file name was decoded from the field `name`. -/
theorem filenameOf_ok {v : Val} {k : Component} (h : filenameOf v = .ok k.fileName) :
    ∃ b raw, v.get? "name" = some (.bytes b, raw) ∧ decodeText b = some k.fileName := by
  unfold filenameOf at h
  split at h
  · -- no component has an empty name
    have hempty := Except.ok.inj h
    cases k <;> exact absurd hempty (by decide)
  next b hfield =>
    obtain ⟨raw, hget⟩ := bytesField_some hfield
    split at h
    · cases h
    next text htext =>
      obtain rfl := Except.ok.inj h
      exact ⟨b, raw, hget, htext⟩

/-- The file names are ASCII. -/
theorem fileName_ascii (k : Component) : Ascii7 k.fileName.toList := by
  cases k <;> simp [Ascii7, Component.fileName]

/-- An entry whose value is known. -/
theorem entry_int {fuel depth : Nat} {previous : Option String} {c c' : Cursor} {name : String}
    {n : Nat} {raw : Bytes} (hname : Ascii7 name.toList)
    (h : Entry fuel depth previous c c' (name, .int n, raw)) :
    ∃ mk mv, c.rest = netstring (marked mk (ascii name)) ++ (intBytes mv n ++ c'.rest) := by
  obtain ⟨b, c₁, hkey, htext, hvalue, -⟩ := h.entry
  obtain ⟨mk, rfl⟩ := key_spelled hname htext
  obtain ⟨mv, hint⟩ := parse_int_ok (Int.natCast_nonneg n) hvalue
  exact ⟨mk, mv, by rw [hkey, hint, Int.toNat_natCast]⟩

/-- An entry with a string was read from its name, with a mark or without, and its netstring. -/
theorem entry_bytes {fuel depth : Nat} {previous : Option String} {c c' : Cursor} {name : String}
    {b raw : Bytes} (hname : Ascii7 name.toList)
    (h : Entry fuel depth previous c c' (name, .bytes b, raw)) :
    ∃ mk, c.rest = netstring (marked mk (ascii name)) ++ (netstring b ++ c'.rest) := by
  obtain ⟨key, c₁, hkey, htext, hvalue, -⟩ := h.entry
  obtain ⟨mk, rfl⟩ := key_spelled hname htext
  exact ⟨mk, by rw [hkey, parse_bytes_ok hvalue]⟩

/-- The bytes of a dictionary that passes the checks. -/
theorem info_spelled {fuel depth : Nat} {c c' : Cursor} {info : Val} {kind : Option Component}
    {size : Nat} {k : Component} {pieces : Bytes} (h : parse fuel depth c = .ok (info, c'))
    (hnames : hasInfoNames info = true) (hfields : Fields info kind size k pieces) :
    ∃ m, c.rest = spelled m size k pieces ++ c'.rest := by
  cases info with
  | int n => cases hnames
  | bytes b => cases hnames
  | list items => cases hnames
  | dict es =>
    obtain ⟨_, after, hstart, hloop⟩ := parse_dict_ok h
    obtain ⟨v₁, v₂, v₃, v₄, rfl⟩ :=
      four_of_names (names_of_hasInfoNames (parseDict_sorted hloop).2 hnames)
    -- the values are those the checks asked for
    obtain ⟨raw₁, h₁⟩ := intField_some hfields.length
    obtain ⟨name, raw₂, h₂, htext⟩ := filenameOf_ok hfields.name
    obtain ⟨raw₃, h₃⟩ := intField_some hfields.pieceLength
    obtain ⟨raw₄, h₄⟩ := bytesField_some hfields.hashes
    obtain rfl : v₁ = _ := Option.some.inj h₁
    obtain rfl : v₂ = _ := Option.some.inj h₂
    obtain rfl : v₃ = _ := Option.some.inj h₃
    obtain rfl : v₄ = _ := Option.some.inj h₄
    obtain ⟨mark, rfl⟩ := key_spelled (fileName_ascii k) htext
    -- and the bytes are theirs, one entry after the other
    obtain ⟨_, c₁, -, he₁, hloop⟩ := parseDict_cons hloop
    obtain ⟨_, c₂, -, he₂, hloop⟩ := parseDict_cons hloop
    obtain ⟨_, c₃, -, he₃, hloop⟩ := parseDict_cons hloop
    obtain ⟨_, c₄, -, he₄, hloop⟩ := parseDict_cons hloop
    obtain ⟨m₁, m₂, hrest₁⟩ := entry_int (by simp [Ascii7]) he₁
    obtain ⟨m₃, hrest₂⟩ := entry_bytes (by simp [Ascii7]) he₂
    obtain ⟨m₄, m₅, hrest₃⟩ := entry_int (by simp [Ascii7]) he₃
    obtain ⟨m₆, hrest₄⟩ := entry_bytes (by simp [Ascii7]) he₄
    refine ⟨⟨m₁, m₂, m₃, mark, m₄, m₅, m₆⟩, ?_⟩
    have hafter : after = _ := hrest₁
    rw [hstart, hafter, hrest₂, hrest₃, hrest₄, parseDict_nil hloop]
    simp [spelled]

/-- ASCII text is decoded to itself. -/
theorem decodeText_plain {s : String} (hs : Ascii7 s.toList) : decodeText (ascii s) = some s := by
  rw [ascii_eq_encodeText hs]
  exact decodeText_marked (take_ne_mark hs) false

/-- A dictionary does not end before its end. -/
theorem parseDict_rest {fuel depth : Nat} {previous : Option String} {c c' : Cursor}
    {es : List (String × Val × Bytes)} (h : parseDict fuel depth previous c = .ok (es, c')) :
    c.rest ≠ [] := by
  intro hnil
  cases es with
  | nil =>
    rw [parseDict_nil h] at hnil
    cases hnil
  | cons e es =>
    obtain ⟨_, c₁, -, hentry, -⟩ := parseDict_cons h
    obtain ⟨b, c₂, hrest, -⟩ := hentry.entry
    rw [hrest, netstring] at hnil
    simp at hnil

/-- The first entry of a file that starts with the key `info`. -/
theorem bdecode_framed {raw rawInfo : Bytes} {value info : Val}
    (h : bdecode (framed raw) = .ok value) (hget : value.get? "info" = some (info, rawInfo)) :
    ∃ fuel c c' last es, parse fuel 1 c = .ok (info, c') ∧ c.rest = raw ++ [101] ∧
      rawInfo = between c c' ∧ parseDict fuel 0 (some "info") c' = .ok (es, last) ∧
      last.rest = [] := by
  unfold bdecode at h
  obtain ⟨⟨value', c⟩, hparse, h⟩ := ok_of_bind h
  dsimp only at h
  split at h
  · cases h
  next hend =>
    obtain rfl := Except.ok.inj h
    cases value' with
    | int n => cases hget
    | bytes b => cases hget
    | list items => cases hget
    | dict es =>
      obtain ⟨_, after, hstart, hloop⟩ := parse_dict_ok hparse
      rw [framed_eq] at hstart
      obtain rfl : _ = after := (List.cons.inj hstart).2
      cases es with
      | nil => cases hget
      | cons e es =>
        obtain ⟨fuel, c', -, hentry, hloop⟩ := parseDict_cons hloop
        obtain ⟨b, c₁, hkey, htext, hvalue, hraw⟩ := hentry.entry
        have hkey : netstring (ascii "info") ++ raw ++ [101] = netstring b ++ c₁.rest := hkey
        rw [List.append_assoc] at hkey
        obtain ⟨rfl, hrest⟩ := netstring_append_inj hkey
        rw [decodeText_plain (by simp [Ascii7])] at htext
        have hname : e.1 = "info" := (Option.some.inj htext).symm
        have hfirst : (Val.dict (e :: es)).get? "info" = some e.2 := by
          simp [Val.get?, Val.entries, hname]
        rw [hfirst] at hget
        have he : e.2 = (info, rawInfo) := Option.some.inj hget
        rw [he] at hvalue hraw
        rw [hname] at hloop
        exact ⟨fuel, c₁, c', _, es, hvalue, hrest.symm, hraw, hloop, not_not.mp hend⟩

/-- What stands behind `info` was read as the rest of a dictionary, up to the end of the file. -/
def Follows (rest : Bytes) : Prop :=
  ∃ fuel c c' es, parseDict fuel 0 (some "info") c = .ok (es, c') ∧ c.rest = rest ++ [101] ∧
    c'.rest = []

/-- A file that is taken starts with the dictionary of a component, marks allowed. -/
theorem verify_sound {sha1 : Bytes → Bytes} {raw : Bytes} {text : String}
    {kind : Option Component} {r : Report}
    (h : verifyMetadata sha1 (framed raw) text kind = .ok r) :
    ∃ m size k pieces rest, raw = spelled m size k pieces ++ rest ∧ Fits kind size k pieces ∧
      (unhex text 20).isSome = true ∧ text = hex (sha1 (spelled m size k pieces)) ∧
      (framed raw).length ≤ metadataLimit kind ∧
      r = ⟨text, k, k.fileName, size, pieceCount size⟩ ∧ Follows rest := by
  unfold verifyMetadata at h
  split at h
  · cases h
  next hvalid =>
    split at h
    · cases h
    next hlen =>
      split at h
      · cases h
      next value hvalue =>
        split at h
        · cases h
        next info rawInfo hinfo =>
          split at h
          next hnames =>
            obtain ⟨size, k, pieces, hfields, htext, hr⟩ := verifyInfo_ok h
            obtain ⟨fuel, c, c', c'', es, hparse, hrest, rfl, hmore, hend⟩ := bdecode_framed hvalue hinfo
            obtain ⟨m, hspelled⟩ := info_spelled hparse hnames hfields
            rw [between_eq hspelled] at htext
            obtain ⟨rest, last, hlast⟩ := (List.eq_nil_or_concat' _).resolve_left (parseDict_rest hmore)
            rw [hspelled, hlast, ← List.append_assoc] at hrest
            obtain ⟨hraw, hclose⟩ := List.append_inj' hrest rfl
            refine ⟨m, size, k, pieces, rest, hraw.symm, hfields.fits, ?_, htext, by omega, hr,
              fuel, c', c'', es, hmore, hlast.trans (by rw [hclose]), hend⟩
            rw [Option.isSome_iff_ne_none]
            simpa using hvalid
          · cases h

/-! ## §6. And these are. -/

/-- A number is read back, with a mark or without. -/
theorem number_decimal {close : UInt8} (hclose : isDigit close = false) (negative mark : Bool)
    {n : Nat} (hn : n < 10 ^ 14) (hmark : ∀ y ∈ byteOrderMark, y ≠ close) (after : Bytes) :
    number close negative (marked mark (decimalText n) ++ close :: after) =
      .ok ((n : Int), after) := by
  have hlen : (marked mark (decimalText n)).length ≤ 17 := by
    have hdigits : (decimalText n).length ≤ 14 := by
      rw [decimalText, List.length_map, Nat.length_toDigits_le_iff (by decide) (by decide)]
      exact hn
    cases mark with
    | true =>
      show (decimalText n).length + 3 ≤ 17
      omega
    | false =>
      show (decimalText n).length ≤ 17
      omega
  have hdigits : ∀ y ∈ decimalText n, y ≠ close := by
    rintro y hy rfl
    rw [isDigit_of_mem_decimal hy] at hclose
    cases hclose
  have hbytes : ∀ y ∈ marked mark (decimalText n), y ≠ close := by
    intro y hy
    cases mark with
    | true =>
      rcases List.mem_append.mp hy with hy | hy
      · exact hmark y hy
      · exact hdigits y hy
    | false => exact hdigits y hy
  have htext : decodeText (marked mark (decimalText n)) = some (digitsText n) := by
    rw [← encodeText_digits]
    exact decodeText_marked (take_ne_mark (digitsText_ascii n)) mark
  have hint : integerText negative (digitsText n).toList = some (n : Int) := by
    rw [digitsText, String.toList_ofList]
    exact integerText_digits negative n
  exact number_eq hbytes hlen htext hint (by omega)

/-- A netstring is read, whatever follows. -/
theorem string_netstring {b : Bytes} (hb : b.length < 10 ^ 14) (rest : Bytes) :
    string (netstring b ++ rest) = .ok (b, rest) := by
  have hnumber : number 58 false (decimalText b.length ++ 58 :: (b ++ rest)) = _ :=
    number_decimal rfl false false hb (by simp [byteOrderMark]) (b ++ rest)
  unfold string netstring
  rw [List.append_assoc, List.cons_append, hnumber]
  show (if (b.length : Int) < 0 ∨ (b ++ rest).length < (b.length : Int).toNat then _ else _) = _
  rw [Int.toNat_natCast, if_neg (by rw [List.length_append]; omega), List.take_left, List.drop_left]
  rfl

/-- So `parse` reads it, within its limits. -/
theorem parse_netstring {fuel depth nodes : Nat} {b : Bytes} (hb : b.length < 10 ^ 14)
    (hnodes : nodes < 256) (hdepth : depth ≤ 8) (rest : Bytes) :
    parse (fuel + 1) depth ⟨netstring b ++ rest, nodes⟩ = .ok (.bytes b, ⟨rest, nodes + 1⟩) := by
  have hstring := string_netstring hb rest
  cases hn : netstring b ++ rest with
  | nil => exact absurd (congrArg List.length hn) (by simp [netstring])
  | cons type after =>
    rw [hn] at hstring
    have hdigit : isDigit type = true := by
      rw [netstring, List.append_assoc] at hn
      exact decimalText_head hn
    simp only [isDigit, Bool.and_eq_true, decide_eq_true_eq] at hdigit
    have hrange : 48 ≤ type ∧ type ≤ 57 := by
      rw [UInt8.le_iff_toNat_le, UInt8.le_iff_toNat_le]
      exact hdigit
    have hne : ∀ x : UInt8, 57 < x.toNat → type ≠ x := by
      rintro x hx rfl
      omega
    rw [parse]
    dsimp only
    rw [if_neg (by omega), if_neg (hne 105 (by decide)), if_neg (hne 100 (by decide)),
      if_neg (hne 108 (by decide)), if_pos hrange, hstring]
    rfl

/-- So it reads an integer, with a mark or without. -/
theorem parse_intBytes {fuel depth nodes n : Nat} (mark : Bool) (hn : n < 10 ^ 14)
    (hnodes : nodes < 256) (hdepth : depth ≤ 8) (rest : Bytes) :
    parse (fuel + 1) depth ⟨intBytes mark n ++ rest, nodes⟩ =
      .ok (.int (n : Int), ⟨rest, nodes + 1⟩) := by
  have hbytes : intBytes mark n ++ rest = 105 :: (marked mark (decimalText n) ++ 101 :: rest) := by
    simp [intBytes]
  rw [hbytes, parse]
  dsimp only
  rw [if_neg (by omega), if_pos rfl, number_decimal rfl true mark hn (by simp [byteOrderMark])]
  rfl

/-- One more entry, whose key is any text. -/
theorem parseDict_more {fuel depth nodes : Nat} {previous : Option String} {key rest : Bytes}
    {name : String} {v : Val} {c c' : Cursor} {es : List (String × Val × Bytes)}
    (htext : decodeText key = some name) (hlen : key.length < 10 ^ 14)
    (hlater : ∀ p ∈ previous, textLt p name = true) (hnodes : nodes < 256) (hdepth : depth < 8)
    (hvalue : parse (fuel + 1) (depth + 1) ⟨rest, nodes + 1⟩ = .ok (v, c))
    (hloop : parseDict (fuel + 1) depth (some name) c = .ok (es, c')) :
    parseDict (fuel + 2) depth previous ⟨netstring key ++ rest, nodes⟩ =
      .ok ((name, v, between ⟨rest, nodes + 1⟩ c) :: es, c') := by
  have hkey : parse (fuel + 1) (depth + 1) ⟨netstring key ++ rest, nodes⟩ = _ :=
    parse_netstring hlen hnodes (by omega) rest
  rw [parseDict]
  split
  next after hstart =>
    -- a key starts with a digit
    exact absurd hstart (Ben.netstring_ne (by decide) _ _ _)
  next =>
    rw [hkey]
    show (match decodeText key with | none => _ | some name => _) = _
    rw [htext]
    have hall : (previous.all fun p => textLt p name) = true := by
      cases previous with
      | none => rfl
      | some p => exact hlater p rfl
    dsimp only
    rw [if_pos hall, hvalue]
    show (parseDict (fuel + 1) depth (some name) c >>= _) = _
    rw [hloop]
    rfl

/-- One more entry of a component's dictionary, with a mark or without. -/
theorem parseDict_entry (fuel depth nodes : Nat) (previous : Option String) (mark : Bool)
    (name : String) {rest : Bytes} {v : Val} {c c' : Cursor} {es : List (String × Val × Bytes)}
    (hname : Ascii7 name.toList) (hlen : (marked mark (ascii name)).length < 10 ^ 14)
    (hlater : previous.all (fun p => textLt p name) = true) (hnodes : nodes < 256)
    (hdepth : depth < 8)
    (hvalue : parse (fuel + 1) (depth + 1) ⟨rest, nodes + 1⟩ = .ok (v, c))
    (hloop : parseDict (fuel + 1) depth (some name) c = .ok (es, c')) :
    parseDict (fuel + 2) depth previous ⟨netstring (marked mark (ascii name)) ++ rest, nodes⟩ =
      .ok ((name, v, between ⟨rest, nodes + 1⟩ c) :: es, c') := by
  have htext : decodeText (marked mark (ascii name)) = some name := by
    rw [ascii_eq_encodeText hname]
    exact decodeText_marked (take_ne_mark hname) mark
  refine parseDict_more htext hlen (fun p hp => ?_) hnodes hdepth hvalue hloop
  rw [Option.mem_def] at hp
  rw [hp] at hlater
  exact hlater

/-- The loop stops at an `e`. -/
theorem parseDict_end (fuel depth : Nat) (previous : Option String) (rest : Bytes) (nodes : Nat) :
    parseDict (fuel + 1) depth previous ⟨101 :: rest, nodes⟩ = .ok ([], ⟨rest, nodes⟩) := by
  rw [parseDict]
  rfl

/-- A dictionary is read by the loop over its entries, one node later. -/
theorem parse_dictionary {fuel depth nodes : Nat} {after : Bytes} (hnodes : nodes < 256)
    (hdepth : depth ≤ 8) : parse (fuel + 1) depth ⟨100 :: after, nodes⟩ =
      (parseDict fuel depth none ⟨after, nodes + 1⟩).map fun r => (.dict r.1, r.2) := by
  rw [parse]
  dsimp only
  rw [if_neg (by omega), if_neg (by decide), if_pos rfl]
  cases parseDict fuel depth none ⟨after, nodes + 1⟩ <;> rfl

/-- A mark has three bytes. -/
theorem marked_length (mark : Bool) (b : Bytes) : (marked mark b).length ≤ b.length + 3 := by
  cases mark with
  | true => exact le_refl _
  | false =>
    show b.length ≤ b.length + 3
    omega

/-- A short name with a mark is short. -/
theorem marked_short {mark : Bool} {b : Bytes} (hb : b.length ≤ 16) :
    (marked mark b).length < 10 ^ 14 := by
  have := marked_length mark b
  omega

/-- The dictionary of a component, parsed. -/
theorem parse_spelled (m : Marks) (size : Nat) (k : Component) {pieces : Bytes}
    (hsize : size < 10 ^ 14) (hpieces : pieces.length < 10 ^ 14) (rest : Bytes) :
    ∃ r₁ r₂ r₃ r₄, parse 512 1 ⟨spelled m size k pieces ++ rest, 2⟩ =
      .ok (.dict (fourFields (.int size, r₁) (.bytes (marked m.name (ascii k.fileName)), r₂)
        (.int Torrent.pieceLength, r₃) (.bytes pieces, r₄)), ⟨rest, 11⟩) := by
  have hname : (marked m.name (ascii k.fileName)).length < 10 ^ 14 :=
    marked_short (by cases k <;> decide)
  have hlength : Torrent.pieceLength < 10 ^ 14 := by decide
  -- the entries from the last to the first
  have h₄ := parseDict_entry 506 1 9 (some "piece length") m.piecesKey "pieces"
    (by simp [Ascii7]) (marked_short (by decide))
    (by decide +kernel) (by decide) (by decide)
    (parse_netstring hpieces (by decide) (by decide) (101 :: rest))
    (parseDict_end 506 1 (some "pieces") rest 11)
  have h₃ := parseDict_entry 507 1 7 (some "name") m.pieceLengthKey "piece length"
    (by simp [Ascii7]) (marked_short (by decide))
    (by decide +kernel) (by decide) (by decide)
    (parse_intBytes m.pieceLength hlength (by decide) (by decide) _) h₄
  have h₂ := parseDict_entry 508 1 5 (some "length") m.nameKey "name"
    (by simp [Ascii7]) (marked_short (by decide))
    (by decide +kernel) (by decide) (by decide)
    (parse_netstring hname (by decide) (by decide) _) h₃
  have h₁ := parseDict_entry 509 1 3 none m.lengthKey "length"
    (by simp [Ascii7]) (marked_short (by decide))
    (by decide +kernel) (by decide) (by decide)
    (parse_intBytes m.length hsize (by decide) (by decide) _) h₂
  have hbytes : spelled m size k pieces ++ rest = 100 ::
      (netstring (marked m.lengthKey (ascii "length")) ++ (intBytes m.length size ++
        (netstring (marked m.nameKey (ascii "name")) ++
          (netstring (marked m.name (ascii k.fileName)) ++
            (netstring (marked m.pieceLengthKey (ascii "piece length")) ++
              (intBytes m.pieceLength Torrent.pieceLength ++
                (netstring (marked m.piecesKey (ascii "pieces")) ++
                  (netstring pieces ++ 101 :: rest)))))))) := by
    simp [spelled]
  rw [hbytes, parse_dictionary (by decide) (by decide), h₁]
  exact ⟨_, _, _, _, rfl⟩

/-- The file of a component is taken, with marks in its dictionary and more keys after it. -/
theorem verify_complete {sha1 : Bytes → Bytes} {m : Marks} {size : Nat} {k : Component}
    {pieces rest : Bytes} {text : String} {kind : Option Component} {nodes : Nat}
    {es : List (String × Val × Bytes)} (hfits : Fits kind size k pieces)
    (hvalid : (unhex text 20).isSome = true) (htext : text = hex (sha1 (spelled m size k pieces)))
    (hlen : (framed (spelled m size k pieces ++ rest)).length ≤ metadataLimit kind)
    (hrest : parseDict 512 0 (some "info") ⟨rest ++ [101], 11⟩ = .ok (es, ⟨[], nodes⟩)) :
    verifyMetadata sha1 (framed (spelled m size k pieces ++ rest)) text kind =
      .ok ⟨text, k, k.fileName, size, pieceCount size⟩ := by
  have hlimit : k.limit ≤ 2 ^ 40 + 2 ^ 30 + 198 := by cases k <;> decide
  have hhigh := hfits.high
  have hpieces : pieces.length < 10 ^ 14 := by
    have hcount := hfits.pieces
    unfold pieceCount Torrent.pieceLength at hcount
    omega
  obtain ⟨r₁, r₂, r₃, r₄, hinfo⟩ := parse_spelled m size k (by omega) hpieces
    (rest ++ [101])
  have houter := parseDict_entry 511 0 1 none false "info"
    (by simp [Ascii7]) (marked_short (by decide))
    (by decide +kernel) (by decide) (by decide) hinfo hrest
  have hbetween : between ⟨spelled m size k pieces ++ (rest ++ [101]), 2⟩ ⟨rest ++ [101], 11⟩ =
      spelled m size k pieces := between_eq rfl
  rw [hbetween] at houter
  have hdecode : bdecode (framed (spelled m size k pieces ++ rest)) =
      .ok (.dict (("info", .dict (fourFields (.int size, r₁)
        (.bytes (marked m.name (ascii k.fileName)), r₂) (.int Torrent.pieceLength, r₃)
        (.bytes pieces, r₄)), spelled m size k pieces) :: es)) := by
    have hbytes : framed (spelled m size k pieces ++ rest) =
        100 :: (netstring (marked false (ascii "info")) ++
          (spelled m size k pieces ++ (rest ++ [101]))) := by
      rw [framed_eq]
      simp [marked]
    unfold bdecode
    rw [hbytes, parse_dictionary (by decide) (by decide), houter]
    rfl
  have hfields : Fields (.dict (fourFields (.int size, r₁)
      (.bytes (marked m.name (ascii k.fileName)), r₂) (.int Torrent.pieceLength, r₃)
      (.bytes pieces, r₄))) kind size k pieces := by
    refine ⟨?_, rfl, rfl, rfl, hfits⟩
    show (match decodeText (marked m.name (ascii k.fileName)) with
      | none => _
      | some text => _) = _
    rw [ascii_eq_encodeText (fileName_ascii k),
      decodeText_marked (take_ne_mark (fileName_ascii k)) m.name]
  have hnone : ¬(unhex text 20).isNone = true := by
    rw [Option.isNone_iff_eq_none]
    exact Option.isSome_iff_ne_none.mp hvalid
  have hpos : (framed (spelled m size k pieces ++ rest)).length ≠ 0 := by
    rw [framed_eq]
    simp
  unfold verifyMetadata
  rw [if_neg hnone, if_neg (by omega), hdecode]
  show (if hasInfoNames _ = true then _ else _) = _
  rw [if_pos (by rfl)]
  exact verifyInfo_eq hfields htext

/-- The canonical file of a component is taken. -/
theorem verify_canonical {sha1 : Bytes → Bytes} {size : Nat} {k : Component} {pieces : Bytes}
    {text : String} {kind : Option Component} (hfits : Fits kind size k pieces)
    (hvalid : (unhex text 20).isSome = true)
    (htext : text = hex (sha1 (infoDict size k pieces).encode))
    (hlen : (framed (infoDict size k pieces).encode).length ≤ metadataLimit kind) :
    verifyMetadata sha1 (framed (infoDict size k pieces).encode) text kind =
      .ok ⟨text, k, k.fileName, size, pieceCount size⟩ := by
  rw [← spelled_none] at htext hlen ⊢
  rw [← List.append_nil (spelled .none size k pieces)] at hlen ⊢
  exact verify_complete hfits hvalid htext hlen (parseDict_end 511 0 (some "info") [] 11)

/-- The text of a digest is a valid infohash. -/
theorem digest_valid {digest : Bytes} (h : digest.length = 20) :
    (unhex (hex digest) 20).isSome = true := by
  rw [← h, unhex_hex]
  rfl

end My98.Web.Metadata
