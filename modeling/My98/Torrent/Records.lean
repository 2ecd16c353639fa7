/-
  My98.Torrent.Records — signed records as JSON, and the byte strings the identity signs
  (`protocol.py`: `as_json`, `from_json`; `src/disk/src/lib.rs`: the signed disk header).

  One Ed25519 key signs three FAMILIES of messages: disk headers, publications and locations.
  A signature says nothing about the family it was meant for, so the byte strings themselves
  must: `headers_apart` and `salts_apart` keep the families disjoint, and
  `publication_injective`, `locations_injective` make each of them spell one record only.
-/
import Mathlib.Algebra.Order.Ring.Nat
import Mathlib.Tactic.Common
import My98.Lib.Json
import My98.Disk.Header
import My98.Torrent.Protocol

namespace My98.Torrent

open My98.Lib

/-! ## §1. Records as JSON. -/

/-- A field of `length` bytes in canonical hexadecimal. -/
def hexField (value : Json) (name : String) (length : Nat) : Option Bytes :=
  (value.text? name).bind fun text => unhex text length

/-- `sequence(value["sequence"])`: a positive safe integer, written as an integer. -/
def sequenceField (value : Json) : Option Nat :=
  match value.get? "sequence" with
  | some (.int n) => if 1 ≤ n ∧ n ≤ maxSequence then some n.toNat else none
  | _ => none

def Record.asJson (wire : Wire) (r : Record) : Except Failure Json := do
  r.verify wire
  return .obj [("publicKey", .str (hex r.publicKey)), ("sequence", .int r.sequence),
    ("infoHash", .str (hex r.infoHash)), ("signature", .str (hex r.signature)),
    ("salt", .str (hex publicationSalt))]

/-- The part of `from_json` inside its `try`. -/
def Record.decode (wire : Wire) (value : Json) : Option Record :=
  match hexField value "publicKey" 32, hexField value "signature" 64, sequenceField value,
      hexField value "infoHash" 20 with
  | some publicKey, some signature, some seq, some infoHash =>
    match Record.verify wire ⟨publicKey, seq, infoHash, signature⟩ with
    | .ok _ => some ⟨publicKey, seq, infoHash, signature⟩
    | .error _ => none
  | _, _, _, _ => none

/-- The identity a caller expects, if any. -/
def Record.expect (expectedKey : Option Bytes) (r : Record) : Except Failure Record :=
  if expectedKey = none ∨ expectedKey = some r.publicKey then .ok r
  else .error (.publication "Publication belongs to a different identity")

def recordKeys : List String := ["publicKey", "sequence", "infoHash", "signature", "salt"]

def Record.fromJson (wire : Wire) (value : Json) (expectedKey : Option Bytes) :
    Except Failure Record :=
  if value.hasKeys recordKeys ∧ value.text? "salt" = some (hex publicationSalt) then
    match Record.decode wire value with
    | some r => r.expect expectedKey
    | none => .error (.publication "Invalid signed publication record")
  else .error (.publication "Invalid signed publication record")

/-! ## §2. The signed messages. -/

/-- The payload of a locations record. -/
def locationsPayload (seq : Nat) (origins : List String) : Except Failure Bytes := do
  let value ← locationsValue origins
  mutablePayload locationsSalt seq value

/-- Text that `encode` turns into one byte a character. -/
def Ascii (text : String) : Prop := ∀ c ∈ text.toList, c.toNat < 128

theorem ascii_injective {a b : String} (ha : Ascii a) (hb : Ascii b) (h : ascii a = ascii b) :
    a = b := by
  have hback : ∀ {s : String}, Ascii s →
      (ascii s).map (fun x => Char.ofNat x.toNat) = s.toList := by
    intro s hs
    unfold ascii
    rw [List.map_map]
    refine (List.map_congr_left fun c hc => ?_).trans (List.map_id _)
    show Char.ofNat (c.toNat % 256) = c
    have := hs c hc
    rw [Nat.mod_eq_of_lt (by omega)]
    exact Char.ofNat_toNat c
  have hlist : a.toList = b.toList := by rw [← hback ha, h, hback hb]
  exact String.toList_inj.mp hlist

theorem map_ascii_injective : ∀ {xs ys : List String}, (∀ o ∈ xs, Ascii o) → (∀ o ∈ ys, Ascii o) →
    xs.map ascii = ys.map ascii → xs = ys := by
  intro xs
  induction xs with
  | nil =>
    intro ys _ _ h
    exact (List.map_eq_nil_iff.mp h.symm).symm
  | cons x xs ih =>
    intro ys hx hy h
    cases ys with
    | nil => cases h
    | cons y ys =>
      injection h with hhead htail
      rw [ascii_injective (hx x List.mem_cons_self) (hy y List.mem_cons_self) hhead,
        ih (fun o ho => hx o (List.mem_cons_of_mem _ ho))
          (fun o ho => hy o (List.mem_cons_of_mem _ ho)) htail]

theorem mutablePayload_ok {salt value payload : Bytes} {seq : Nat}
    (h : mutablePayload salt seq value = .ok payload) :
    payload = ascii "4:salt" ++ decimal salt.length ++ ascii ":" ++ salt ++ ascii "3:seqi" ++
      decimal seq ++ ascii "e1:v" ++ value := by
  unfold mutablePayload sequence at h
  split at h
  · exact (Except.ok.inj h).symm
  · cases h

/-- Under one salt, the payload spells the sequence and the value. -/
theorem mutablePayload_injective {salt value value' payload : Bytes} {seq seq' : Nat}
    (h : mutablePayload salt seq value = .ok payload)
    (h' : mutablePayload salt seq' value' = .ok payload) : seq = seq' ∧ value = value' := by
  have heq := (mutablePayload_ok h).symm.trans (mutablePayload_ok h')
  simp only [List.append_assoc] at heq
  have hrest := List.append_cancel_left (List.append_cancel_left (List.append_cancel_left
    (List.append_cancel_left (List.append_cancel_left heq))))
  -- the sequence ends at the `e`
  have hfield : decimalText seq ++ 101 :: (ascii "1:v" ++ value)
      = decimalText seq' ++ 101 :: (ascii "1:v" ++ value') := hrest
  obtain ⟨hseq, -, hvalue⟩ := decimal_append_inj (by decide) (by decide) hfield
  exact ⟨hseq, List.append_cancel_left hvalue⟩

/-- **A publication payload spells one record.** -/
theorem publication_injective {seq seq' : Nat} {infoHash infoHash' payload : Bytes}
    (h : signingPayload seq infoHash = .ok payload)
    (h' : signingPayload seq' infoHash' = .ok payload) : seq = seq' ∧ infoHash = infoHash' := by
  obtain ⟨value, hvalue, h⟩ := ok_of_bind h
  obtain ⟨value', hvalue', h'⟩ := ok_of_bind h'
  obtain ⟨hseq, rfl⟩ := mutablePayload_injective h h'
  refine ⟨hseq, ?_⟩
  unfold valueBytes at hvalue hvalue'
  split at hvalue
  · split at hvalue'
    · have heq := (Except.ok.inj hvalue).trans (Except.ok.inj hvalue').symm
      unfold infoValue at heq
      rw [List.append_assoc, List.append_assoc] at heq
      exact List.append_cancel_right (List.append_cancel_left heq)
    · cases hvalue'
  · cases hvalue

theorem originsValue_eq (origins : List String) :
    originsValue origins = ascii "d7:originsl" ++
      ((origins.map fun origin => netstring (ascii origin)).flatten ++
        101 :: ascii "7:versioni1ee") := by
  have hitem : ∀ origin : String, decimal origin.length ++ ascii ":" ++ ascii origin
      = netstring (ascii origin) := by
    intro origin
    unfold netstring
    have hlen : (ascii origin).length = origin.length := by
      rw [ascii, List.length_map, String.length_toList]
    rw [hlen, List.append_assoc]
    rfl
  unfold originsValue
  rw [List.append_assoc]
  simp only [hitem]
  rfl

/-- **A locations payload spells one list of origins.** -/
theorem locations_injective {seq seq' : Nat} {origins origins' : List String} {payload : Bytes}
    (ho : ∀ o ∈ origins, Ascii o) (ho' : ∀ o ∈ origins', Ascii o)
    (h : locationsPayload seq origins = .ok payload)
    (h' : locationsPayload seq' origins' = .ok payload) : seq = seq' ∧ origins = origins' := by
  obtain ⟨value, hvalue, h⟩ := ok_of_bind h
  obtain ⟨value', hvalue', h'⟩ := ok_of_bind h'
  obtain ⟨hseq, rfl⟩ := mutablePayload_injective h h'
  refine ⟨hseq, ?_⟩
  unfold locationsValue at hvalue hvalue'
  split at hvalue
  · cases hvalue
  · split at hvalue'
    · cases hvalue'
    · have heq := (Except.ok.inj hvalue).trans (Except.ok.inj hvalue').symm
      rw [originsValue_eq, originsValue_eq] at heq
      have hlists := List.append_cancel_left heq
      have hlists : ((origins.map ascii).map netstring).flatten ++ 101 :: ascii "7:versioni1ee"
          = ((origins'.map ascii).map netstring).flatten ++ 101 :: ascii "7:versioni1ee" := by
        simpa only [List.map_map, Function.comp_def] using hlists
      obtain ⟨hmap, -⟩ := netstrings_inj (by decide) hlists
      exact map_ascii_injective ho ho' hmap

/-! ## §3. The families are disjoint. -/

/-- A disk header message starts with its domain, the others with a salt. -/
theorem headers_apart {b salt value payload : Bytes} {seq : Nat}
    (h : mutablePayload salt seq value = .ok payload) : payload ≠ Disk.signed b := by
  intro heq
  rw [mutablePayload_ok h] at heq
  have hhead := congrArg List.head? heq
  simp only [List.append_assoc] at hhead
  have hsalt : ∀ r : Bytes, (ascii "4:salt" ++ r).head? = some 52 := fun _ => rfl
  have hdomain : ∀ r : Bytes, (Disk.DOMAIN ++ r).head? = some 115 := fun _ => rfl
  rw [hsalt, Disk.signed, hdomain] at hhead
  exact absurd hhead (by decide)

/-- The salts have different lengths, so one decimal decides. -/
theorem salts_apart {seq seq' : Nat} {value value' payload payload' : Bytes}
    (h : mutablePayload publicationSalt seq value = .ok payload)
    (h' : mutablePayload locationsSalt seq' value' = .ok payload') : payload ≠ payload' := by
  intro heq
  rw [mutablePayload_ok h, mutablePayload_ok h'] at heq
  simp only [List.append_assoc] at heq
  have hlen := List.append_cancel_left heq
  have hfield : ∀ n : Nat, ∀ r : Bytes, decimal n ++ (ascii ":" ++ r) = decimalText n ++ 58 :: r :=
    fun _ _ => rfl
  rw [hfield, hfield] at hlen
  exact absurd (decimal_append_inj (by decide) (by decide) hlen).1 (by decide)

end My98.Torrent
