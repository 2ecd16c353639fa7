/-
  My98.Web.TorrentEntries — the keys behind `info` in a torrent file, as the browser's parser reads
  them (`src/disk/web/torrent-protocol.js`: `bdecode`).

    • `Plain`, `Ordinary`   — what lies within the limits of both parsers;
    • `parse_encode`        — the browser reads every canonical value among them;
    • `canonical_of_parse`  — and of these none but the canonical ones;
    • `parse_markFree`      — whatever it reads is bencoded, where no byte order mark stands.

  The three theorems are inductions on the value, on the value and on the fuel; each has one part
  for `parse` and one for either loop.
-/
import Mathlib.Algebra.Order.Ring.Nat
import Mathlib.Tactic.Common
import My98.Web.TorrentMetadata

namespace My98.Web.Metadata

open My98.Lib My98.Torrent

/-! ## §1. Any key behind `info`. -/

/-- A key that the decoder gives back whole. -/
def TextOf (b : Bytes) (s : String) : Prop := b = encodeText s ∧ b.take 3 ≠ byteOrderMark

theorem TextOf.decode {b : Bytes} {s : String} (h : TextOf b s) : decodeText b = some s := by
  obtain ⟨rfl, hmark⟩ := h
  exact decodeText_marked hmark false

theorem text_ascii {s : String} (hs : Ascii7 s.toList) : TextOf (ascii s) s := by
  rw [ascii_eq_encodeText hs]
  exact ⟨rfl, take_ne_mark hs⟩

theorem info_text : TextOf (ascii "info") "info" := text_ascii (by simp [Ascii7])

/-- What both parsers have a place for: integers that JavaScript holds exactly, and dictionaries
    whose keys are UTF-8 without a mark and stand in one order as bytes and as UTF-16. -/
inductive Plain : Ben → Prop where
  | int {n : Int} (safe : n.natAbs ≤ 2 ^ 53 - 1) : Plain (.int n)
  | str (b : Bytes) : Plain (.str b)
  | list {items : List Ben} (h : ∀ item ∈ items, Plain item) : Plain (.list items)
  | dict {entries : List (Bytes × Ben)} (text : ∀ e ∈ entries, ∃ s, TextOf e.1 s)
      (order : ∀ a ∈ entries, ∀ b ∈ entries, ∀ s t, TextOf a.1 s → TextOf b.1 t →
        (a.1 < b.1 ↔ textLt s t = true))
      (h : ∀ e ∈ entries, Plain e.2) : Plain (.dict entries)

/-- A file within the limits of both parsers. -/
structure Ordinary (v : Ben) : Prop where
  nodes : v.nodes ≤ 256
  height : v.height ≤ 8
  plain : Plain v

theorem Plain.ints {v : Ben} (h : Plain v) : v.Ints fun n => -(2 ^ 63) ≤ n ∧ n < 2 ^ 63 := by
  induction h with
  | int safe => exact .int ⟨by omega, by omega⟩
  | str b => exact .str b
  | list _ ih => exact .list ih
  | dict _ _ _ ih => exact .dict ih

theorem Ordinary.small {v : Ben} (h : Ordinary v) : Small v := ⟨h.nodes, h.height, h.plain.ints⟩

/-- The text of an integer. -/
def intChars (n : Int) : List Char :=
  if n < 0 then '-' :: Nat.toDigits 10 n.natAbs else Nat.toDigits 10 n.natAbs

theorem intChars_ascii (n : Int) : Ascii7 (String.ofList (intChars n)).toList := by
  intro c hc
  rw [String.toList_ofList, intChars] at hc
  split at hc
  · rcases List.mem_cons.mp hc with rfl | hc
    · decide
    · have := digit_range hc
      omega
  · have := digit_range hc
    omega

theorem encodeText_intChars (n : Int) : encodeText (String.ofList (intChars n)) = Ben.intText n := by
  rw [encodeText_ascii (intChars_ascii n), String.toList_ofList]
  unfold intChars Ben.intText
  split <;> rfl

theorem integerText_eq_some {cs : List Char} {n : Int} :
    integerText true cs = some n ↔ cs = intChars n := by
  unfold intChars
  constructor
  · intro h
    unfold integerText at h
    split at h
    · obtain ⟨m, hm, h⟩ := Option.bind_eq_some_iff.mp h
      split at h
      · cases h
      · obtain rfl := Option.some.inj h
        rw [if_pos (by omega), naturalText_eq_some.mp hm]
        congr
        omega
    · obtain ⟨m, hm, rfl⟩ := Option.map_eq_some_iff.mp h
      rw [if_neg (by simp), naturalText_eq_some.mp hm]
      rfl
  · rintro rfl
    split
    next hneg =>
      have hnat := naturalText_eq_some.mpr (rfl : Nat.toDigits 10 n.natAbs = Nat.toDigits 10 n.natAbs)
      show ((naturalText (Nat.toDigits 10 n.natAbs)).bind fun m => if m = 0 then none else some (-(m : Int))) = _
      rw [hnat]
      show (if n.natAbs = 0 then none else some (-(n.natAbs : Int))) = _
      rw [if_neg (by omega)]
      congr 1
      omega
    next hneg =>
      rw [integerText_digits]
      congr 1
      omega

/-- A safe integer is read back. -/
theorem number_int {n : Int} (hn : n.natAbs ≤ 2 ^ 53 - 1) (after : Bytes) :
    number 101 true (Ben.intText n ++ 101 :: after) = .ok (n, after) := by
  have hdigits : (decimalText n.natAbs).length ≤ 16 := by
    rw [decimalText, List.length_map, Nat.length_toDigits_le_iff (by decide) (by decide)]
    omega
  have hlen : (Ben.intText n).length ≤ 17 := by
    unfold Ben.intText
    split
    · rw [List.length_cons]
      omega
    · omega
  have hbytes : ∀ y ∈ Ben.intText n, y ≠ 101 := by
    have hdecimal : ∀ y ∈ decimalText n.natAbs, y ≠ 101 := by
      rintro y hy rfl
      exact absurd (isDigit_of_mem_decimal hy) (by decide)
    intro y hy
    unfold Ben.intText at hy
    split at hy
    · rcases List.mem_cons.mp hy with rfl | hy
      · decide
      · exact hdecimal y hy
    · exact hdecimal y hy
  have htext : decodeText (Ben.intText n) = some (String.ofList (intChars n)) := by
    rw [← encodeText_intChars]
    exact decodeText_marked (take_ne_mark (intChars_ascii n)) false
  exact number_eq hbytes hlen htext (by rw [String.toList_ofList]; exact integerText_eq_some.mpr rfl) hn

theorem parse_list {fuel depth nodes : Nat} {after : Bytes} (hnodes : nodes < 256)
    (hdepth : depth ≤ 8) : parse (fuel + 1) depth ⟨108 :: after, nodes⟩ =
      (parseList fuel depth ⟨after, nodes + 1⟩).map fun r => (.list r.1, r.2) := by
  rw [parse]
  dsimp only
  rw [if_neg (by omega), if_neg (by decide), if_neg (by decide), if_pos rfl]
  cases parseList fuel depth ⟨after, nodes + 1⟩ <;> rfl

theorem parse_int {fuel depth nodes : Nat} {n : Int} (hn : n.natAbs ≤ 2 ^ 53 - 1)
    (hnodes : nodes < 256) (hdepth : depth ≤ 8) (rest : Bytes) :
    parse (fuel + 1) depth ⟨(Ben.int n).encode ++ rest, nodes⟩ = .ok (.int n, ⟨rest, nodes + 1⟩) := by
  have hbytes : (Ben.int n).encode ++ rest = 105 :: (Ben.intText n ++ 101 :: rest) := by
    simp [Ben.encode]
  rw [hbytes, parse]
  dsimp only
  rw [if_neg (by omega), if_pos rfl, number_int hn]
  rfl

mutual

/-- **The browser reads what is canonical**, within its limits. -/
theorem parse_encode : ∀ (v : Ben) (fuel depth nodes : Nat) (rest : Bytes), Plain v → v.Canonical →
    2 * v.nodes ≤ fuel → depth + v.height ≤ 8 → nodes + v.nodes ≤ 256 →
    v.encode.length < 10 ^ 14 →
      ∃ val, parse fuel depth ⟨v.encode ++ rest, nodes⟩ = .ok (val, ⟨rest, nodes + v.nodes⟩)
  | v, 0, depth, nodes, rest, _, _, hfuel, _, _, _ => by
    have hpos : 1 ≤ v.nodes := by cases v <;> simp [Ben.nodes]
    omega
  | .int n, fuel + 1, depth, nodes, rest, hplain, _, _, hdepth, hnodes, _ => by
    cases hplain with
    | int safe =>
      simp only [Ben.nodes, Ben.height] at *
      exact ⟨_, parse_int safe (by omega) (by omega) rest⟩
  | .str b, fuel + 1, depth, nodes, rest, _, _, _, hdepth, hnodes, hlen => by
    simp only [Ben.nodes, Ben.height, Ben.encode] at *
    have hb : b.length < 10 ^ 14 := by
      simp only [netstring, List.length_append, List.length_cons] at hlen
      omega
    exact ⟨_, parse_netstring hb (by omega) (by omega) rest⟩
  | .list items, fuel + 1, depth, nodes, rest, hplain, hcanon, hfuel, hdepth, hnodes, hlen => by
    cases hplain with
    | list hplain =>
      cases hcanon with
      | list hcanon =>
        simp only [Ben.nodes, Ben.height, Ben.encode, List.length_cons, List.length_append] at *
        obtain ⟨out, hloop⟩ := parseList_encode items fuel depth (nodes + 1) rest hplain hcanon
          (by omega) (by omega) (by omega) (by omega)
        have hbytes : 108 :: Ben.encodeItems items ++ [101] ++ rest =
            108 :: (Ben.encodeItems items ++ 101 :: rest) := by simp
        rw [hbytes, parse_list (by omega) (by omega), hloop]
        exact ⟨.list out, by simp only [Except.map]; congr 3; omega⟩
  | .dict entries, fuel + 1, depth, nodes, rest, hplain, hcanon, hfuel, hdepth, hnodes, hlen => by
    cases hplain with
    | dict htext horder hplain =>
      cases hcanon with
      | dict hsorted hcanon =>
        simp only [Ben.nodes, Ben.height, Ben.encode, List.length_cons, List.length_append] at *
        have htexts : entries.Pairwise fun a b => ∀ s t, TextOf a.1 s → TextOf b.1 t → textLt s t = true :=
          hsorted.imp_of_mem fun ha hb hlt s t hs ht => (horder _ ha _ hb s t hs ht).mp hlt
        obtain ⟨out, hloop⟩ := parseDict_encode entries fuel depth (nodes + 1) none rest htext htexts
          (fun p hp => absurd hp (by simp)) hplain hcanon (by omega) (by omega) (by omega) (by omega)
        have hbytes : 100 :: Ben.encodeEntries entries ++ [101] ++ rest =
            100 :: (Ben.encodeEntries entries ++ 101 :: rest) := by simp
        rw [hbytes, parse_dictionary (by omega) (by omega), hloop]
        exact ⟨.dict out, by simp only [Except.map]; congr 3; omega⟩

theorem parseList_encode : ∀ (items : List Ben) (fuel depth nodes : Nat) (rest : Bytes),
    (∀ item ∈ items, Plain item) → (∀ item ∈ items, item.Canonical) →
    2 * Ben.nodesItems items + 1 ≤ fuel → depth + Ben.heightItems items ≤ 8 →
    nodes + Ben.nodesItems items ≤ 256 → (Ben.encodeItems items).length < 10 ^ 14 →
      ∃ out, parseList fuel depth ⟨Ben.encodeItems items ++ 101 :: rest, nodes⟩ =
        .ok (out, ⟨rest, nodes + Ben.nodesItems items⟩)
  | _, 0, depth, nodes, rest, _, _, hfuel, _, _, _ => by omega
  | [], fuel + 1, depth, nodes, rest, _, _, _, _, _, _ => by
    refine ⟨[], ?_⟩
    rw [parseList]
    rfl
  | item :: items, fuel + 1, depth, nodes, rest, hplain, hcanon, hfuel, hdepth, hnodes, hlen => by
    simp only [Ben.nodesItems, Ben.heightItems, Ben.encodeItems, List.length_append] at *
    obtain ⟨hp, hplain⟩ := List.forall_mem_cons.mp hplain
    obtain ⟨hc, hcanon⟩ := List.forall_mem_cons.mp hcanon
    have hpos : 1 ≤ item.nodes := by cases item <;> simp [Ben.nodes]
    obtain ⟨val, hitem⟩ := parse_encode item fuel (depth + 1) nodes
      (Ben.encodeItems items ++ 101 :: rest) hp hc (by omega) (by omega) (by omega) (by omega)
    obtain ⟨out, hloop⟩ := parseList_encode items fuel depth (nodes + item.nodes) rest hplain hcanon
      (by omega) (by omega) (by omega) (by omega)
    refine ⟨val :: out, ?_⟩
    rw [List.append_assoc, parseList]
    split
    next after hstart => exact absurd hstart (Ben.encode_ne_end _ _ _)
    next =>
      rw [hitem]
      show (parseList fuel depth _ >>= _) = _
      rw [hloop, Nat.add_assoc]
      rfl

theorem parseDict_encode : ∀ (entries : List (Bytes × Ben)) (fuel depth nodes : Nat)
    (previous : Option String) (rest : Bytes), (∀ e ∈ entries, ∃ s, TextOf e.1 s) →
    (entries.Pairwise fun a b => ∀ s t, TextOf a.1 s → TextOf b.1 t → textLt s t = true) →
    (∀ p ∈ previous, ∀ e ∈ entries, ∀ t, TextOf e.1 t → textLt p t = true) →
    (∀ e ∈ entries, Plain e.2) → (∀ e ∈ entries, e.2.Canonical) →
    2 * Ben.nodesEntries entries + 1 ≤ fuel → depth + Ben.heightEntries entries ≤ 8 →
    nodes + Ben.nodesEntries entries ≤ 256 → (Ben.encodeEntries entries).length < 10 ^ 14 →
      ∃ out, parseDict fuel depth previous ⟨Ben.encodeEntries entries ++ 101 :: rest, nodes⟩ =
        .ok (out, ⟨rest, nodes + Ben.nodesEntries entries⟩)
  | _, 0, depth, nodes, previous, rest, _, _, _, _, _, hfuel, _, _, _ => by omega
  | [], fuel + 1, depth, nodes, previous, rest, _, _, _, _, _, _, _, _, _ =>
    ⟨[], parseDict_end fuel depth previous rest nodes⟩
  | (_, _) :: _, 1, depth, nodes, previous, rest, _, _, _, _, _, hfuel, _, _, _ => by
    simp only [Ben.nodesEntries] at hfuel
    omega
  | (key, v) :: entries, fuel + 2, depth, nodes, previous, rest, htext, hsorted, hlater, hplain,
      hcanon, hfuel, hdepth, hnodes, hlen => by
    simp only [Ben.nodesEntries, Ben.heightEntries, Ben.encodeEntries, List.length_append] at *
    obtain ⟨⟨s, hs⟩, htext⟩ := List.forall_mem_cons.mp htext
    obtain ⟨hfirst, hsorted⟩ := List.pairwise_cons.mp hsorted
    obtain ⟨hp, hplain⟩ := List.forall_mem_cons.mp hplain
    obtain ⟨hc, hcanon⟩ := List.forall_mem_cons.mp hcanon
    have hkey : key.length < 10 ^ 14 := by
      simp only [netstring, List.length_append, List.length_cons] at hlen
      omega
    have hpos : 1 ≤ v.nodes := by cases v <;> simp [Ben.nodes]
    obtain ⟨val, hvalue⟩ := parse_encode v (fuel + 1) (depth + 1) (nodes + 1)
      (Ben.encodeEntries entries ++ 101 :: rest) hp hc (by omega) (by omega) (by omega) (by omega)
    have hnext : ∀ p ∈ some s, ∀ e ∈ entries, ∀ t, TextOf e.1 t → textLt p t = true := by
      intro p hp e he t ht
      rw [Option.mem_def, Option.some.injEq] at hp
      subst hp
      exact hfirst e he s t hs ht
    obtain ⟨out, hloop⟩ := parseDict_encode entries (fuel + 1) depth (nodes + 1 + v.nodes) (some s)
      rest htext hsorted hnext hplain hcanon (by omega) (by omega) (by omega) (by omega)
    have hmore := parseDict_more hs.decode hkey (fun p hp => hlater p hp _ List.mem_cons_self s hs)
      (by omega) (by omega) hvalue hloop
    have hcount : nodes + 1 + v.nodes + Ben.nodesEntries entries =
        nodes + (v.nodes + 1 + Ben.nodesEntries entries) := by omega
    rw [hcount] at hmore
    rw [List.append_assoc, List.append_assoc]
    exact ⟨_, hmore⟩

end

/-! ## §2. What was read. -/

/-- How the loop over a list goes on. -/
theorem parseList_ok {fuel depth : Nat} {c c' : Cursor} {out : List Val}
    (h : parseList fuel depth c = .ok (out, c')) :
    c.rest = 101 :: c'.rest ∨ ∃ fuel' item c₁ out', fuel = fuel' + 1 ∧
      parse fuel' (depth + 1) c = .ok (item, c₁) ∧ parseList fuel' depth c₁ = .ok (out', c') := by
  cases fuel with
  | zero => cases h
  | succ fuel =>
    rw [parseList] at h
    split at h
    next after hrest =>
      cases h
      exact .inl hrest
    · obtain ⟨⟨item, c₁⟩, hitem, h⟩ := ok_of_bind h
      obtain ⟨⟨items, c₂⟩, hloop, h⟩ := ok_of_bind h
      cases h
      exact .inr ⟨fuel, item, c₁, items, rfl, hitem, hloop⟩

mutual

/-- **What the browser reads of a plain value was canonical**, and it stops at its end. -/
theorem canonical_of_parse : ∀ (v : Ben) (fuel depth : Nat) (c c' : Cursor) (val : Val) (rest : Bytes),
    Plain v → parse fuel depth c = .ok (val, c') → c.rest = v.encode ++ rest →
      v.Canonical ∧ c'.rest = rest
  -- Each value starts with a byte of its own, so one branch of `parse` is left.
  | .int n, fuel, depth, c, c', val, rest, hplain, h, hc => by
    have hbytes : c.rest = 105 :: (Ben.intText n ++ 101 :: rest) := by
      rw [hc]
      simp [Ben.encode]
    obtain ⟨_, -, hparsed⟩ := parse_ok h
    cases hparsed with
    | int hstart hnumber =>
      cases hplain with
      | int safe =>
        rw [hstart] at hbytes
        rw [(List.cons.inj hbytes).2, number_int safe] at hnumber
        exact ⟨.int n, (Prod.mk.inj (Except.ok.inj hnumber)).2.symm⟩
    | bytes hstart hdigit _ =>
      rw [hstart] at hbytes
      obtain rfl := (List.cons.inj hbytes).1
      exact absurd hdigit (by decide)
    | dict hstart _ =>
      rw [hstart] at hbytes
      exact absurd (List.cons.inj hbytes).1 (by decide)
    | list hstart _ =>
      rw [hstart] at hbytes
      exact absurd (List.cons.inj hbytes).1 (by decide)
  | .str b, fuel, depth, c, c', val, rest, _, h, hc => by
    rw [Ben.encode] at hc
    obtain ⟨_, -, hparsed⟩ := parse_ok h
    cases hparsed with
    | bytes hstart hdigit hstring =>
      rw [hstart, string_ok hdigit hstring] at hc
      exact ⟨.str b, (netstring_append_inj hc).2⟩
    | int hstart _ =>
      rw [hstart] at hc
      exact absurd hc.symm (Ben.netstring_ne (by decide) _ _ _)
    | dict hstart _ =>
      rw [hstart] at hc
      exact absurd hc.symm (Ben.netstring_ne (by decide) _ _ _)
    | list hstart _ =>
      rw [hstart] at hc
      exact absurd hc.symm (Ben.netstring_ne (by decide) _ _ _)
  | .list items, fuel, depth, c, c', val, rest, hplain, h, hc => by
    have hbytes : c.rest = 108 :: (Ben.encodeItems items ++ 101 :: rest) := by
      rw [hc]
      simp [Ben.encode]
    obtain ⟨fuel', -, hparsed⟩ := parse_ok h
    cases hparsed with
    | list hstart hloop =>
      cases hplain with
      | list hplain =>
        rw [hstart] at hbytes
        obtain ⟨hcanon, hrest⟩ := canonical_of_parseList items fuel' depth _ c' _ rest hplain hloop
          (List.cons.inj hbytes).2
        exact ⟨.list hcanon, hrest⟩
    | bytes hstart hdigit _ =>
      rw [hstart] at hbytes
      obtain rfl := (List.cons.inj hbytes).1
      exact absurd hdigit (by decide)
    | dict hstart _ =>
      rw [hstart] at hbytes
      exact absurd (List.cons.inj hbytes).1 (by decide)
    | int hstart _ =>
      rw [hstart] at hbytes
      exact absurd (List.cons.inj hbytes).1 (by decide)
  | .dict entries, fuel, depth, c, c', val, rest, hplain, h, hc => by
    have hbytes : c.rest = 100 :: (Ben.encodeEntries entries ++ 101 :: rest) := by
      rw [hc]
      simp [Ben.encode]
    obtain ⟨fuel', -, hparsed⟩ := parse_ok h
    cases hparsed with
    | dict hstart hloop =>
      cases hplain with
      | dict htext horder hplain =>
        rw [hstart] at hbytes
        obtain ⟨hcanon, hrest, -, hsorted⟩ := canonical_of_parseDict entries fuel' depth none _ c' _
          rest htext hplain hloop (List.cons.inj hbytes).2
        -- The browser orders keys as texts, the encoder as bytes; plain keys are ordered alike.
        refine ⟨.dict (hsorted.imp_of_mem fun ha hb hlt => ?_) hcanon, hrest⟩
        obtain ⟨s, hs⟩ := htext _ ha
        obtain ⟨t, ht⟩ := htext _ hb
        exact (horder _ ha _ hb s t hs ht).mpr (hlt s t hs ht)
    | bytes hstart hdigit _ =>
      rw [hstart] at hbytes
      obtain rfl := (List.cons.inj hbytes).1
      exact absurd hdigit (by decide)
    | list hstart _ =>
      rw [hstart] at hbytes
      exact absurd (List.cons.inj hbytes).1 (by decide)
    | int hstart _ =>
      rw [hstart] at hbytes
      exact absurd (List.cons.inj hbytes).1 (by decide)

theorem canonical_of_parseList : ∀ (items : List Ben) (fuel depth : Nat) (c c' : Cursor)
    (out : List Val) (rest : Bytes), (∀ item ∈ items, Plain item) →
    parseList fuel depth c = .ok (out, c') → c.rest = Ben.encodeItems items ++ 101 :: rest →
      (∀ item ∈ items, item.Canonical) ∧ c'.rest = rest
  | [], fuel, depth, c, c', out, rest, _, h, hc => by
    obtain hend | ⟨fuel', item, c₁, out', -, hitem, -⟩ := parseList_ok h
    · rw [hc] at hend
      exact ⟨fun _ hitem => absurd hitem List.not_mem_nil, (List.cons.inj hend).2.symm⟩
    · -- no value starts with the byte that ends the list
      obtain ⟨type, after, hstart, htype⟩ := parse_start hitem
      rw [hc] at hstart
      exact absurd (List.cons.inj hstart).1.symm htype
  | item :: items, fuel, depth, c, c', out, rest, hplain, h, hc => by
    obtain ⟨hp, hplain⟩ := List.forall_mem_cons.mp hplain
    rw [Ben.encodeItems, List.append_assoc] at hc
    obtain hend | ⟨fuel', val, c₁, out', -, hitem, hloop⟩ := parseList_ok h
    · rw [hc] at hend
      exact absurd hend (Ben.encode_ne_end _ _ _)
    · obtain ⟨hcanon, hrest⟩ := canonical_of_parse item fuel' (depth + 1) c c₁ val _ hp hitem hc
      obtain ⟨hcanons, hend⟩ := canonical_of_parseList items fuel' depth c₁ c' out' rest hplain hloop hrest
      exact ⟨List.forall_mem_cons.mpr ⟨hcanon, hcanons⟩, hend⟩

theorem canonical_of_parseDict : ∀ (entries : List (Bytes × Ben)) (fuel depth : Nat)
    (previous : Option String) (c c' : Cursor) (out : List (String × Val × Bytes)) (rest : Bytes),
    (∀ e ∈ entries, ∃ s, TextOf e.1 s) → (∀ e ∈ entries, Plain e.2) →
    parseDict fuel depth previous c = .ok (out, c') →
    c.rest = Ben.encodeEntries entries ++ 101 :: rest →
      (∀ e ∈ entries, e.2.Canonical) ∧ c'.rest = rest ∧
        (∀ p ∈ previous, ∀ e ∈ entries, ∀ t, TextOf e.1 t → textLt p t = true) ∧
        entries.Pairwise fun a b => ∀ s t, TextOf a.1 s → TextOf b.1 t → textLt s t = true
  | [], fuel, depth, previous, c, c', out, rest, _, _, h, hc => by
    cases out with
    | nil =>
      have hend := parseDict_nil h
      rw [hc] at hend
      exact ⟨fun _ he => absurd he List.not_mem_nil, (List.cons.inj hend).2.symm,
        fun _ _ _ he => absurd he List.not_mem_nil, .nil⟩
    | cons e out =>
      obtain ⟨_, _, -, hentry, -⟩ := parseDict_cons h
      obtain ⟨b, c₁, hkey, -⟩ := hentry.entry
      rw [hc] at hkey
      exact absurd hkey.symm (Ben.netstring_ne (by decide) _ _ _)
  | (key, v) :: entries, fuel, depth, previous, c, c', out, rest, htext, hplain, h, hc => by
    obtain ⟨⟨s, hs⟩, htext⟩ := List.forall_mem_cons.mp htext
    obtain ⟨hp, hplain⟩ := List.forall_mem_cons.mp hplain
    rw [Ben.encodeEntries, List.append_assoc, List.append_assoc] at hc
    cases out with
    | nil =>
      have hend := parseDict_nil h
      rw [hc] at hend
      exact absurd hend (Ben.netstring_ne (by decide) _ _ _)
    | cons e out =>
      obtain ⟨fuel', c₂, -, hentry, hloop⟩ := parseDict_cons h
      obtain ⟨b, c₁, hkey, hname, hvalue, -⟩ := hentry.entry
      rw [hc] at hkey
      obtain ⟨rfl, hrest⟩ := netstring_append_inj hkey
      -- the key is the text it was decoded to
      have he : e.1 = s := Option.some.inj (hname.symm.trans hs.decode)
      obtain ⟨hcanon, hnext⟩ := canonical_of_parse v fuel' (depth + 1) c₁ c₂ e.2.1 _ hp hvalue hrest.symm
      obtain ⟨hcanons, hend, hlater, hsorted⟩ := canonical_of_parseDict entries fuel' depth (some e.1) c₂
        c' out rest htext hplain hloop hnext
      have hunique : ∀ t, TextOf key t → t = s := fun t ht =>
        Option.some.inj (ht.decode.symm.trans hs.decode)
      rw [he] at hlater
      refine ⟨List.forall_mem_cons.mpr ⟨hcanon, hcanons⟩, hend, ?_, ?_⟩
      · intro p hp e' he' t ht
        have hps : textLt p s = true := he ▸ hentry.later p hp
        rcases List.mem_cons.mp he' with rfl | he'
        · rw [hunique t ht]
          exact hps
        · exact textLt_trans p s t hps (hlater s rfl e' he' t ht)
      · refine List.pairwise_cons.mpr ⟨fun b hb s' t hs' ht => ?_, hsorted⟩
        rw [hunique s' hs']
        exact hlater s rfl b hb t ht

end

/-! ## §3. Nothing else behind `info`. -/

/-- No byte order mark stands anywhere. -/
def MarkFree (b : Bytes) : Prop := ¬byteOrderMark <:+: b

theorem MarkFree.tail {a b : Bytes} (h : MarkFree (a ++ b)) : MarkFree b :=
  fun hb => h (hb.trans (List.suffix_append a b).isInfix)

/-- Without a mark an integer is spelled in one way. -/
theorem number_markFree {after rest : Bytes} {n : Int} (hfree : MarkFree after)
    (h : number 101 true after = .ok (n, rest)) : after = Ben.intText n ++ 101 :: rest := by
  obtain ⟨digits, text, rfl, htext, hint⟩ := number_ok h
  obtain ⟨mark, rfl⟩ := decodeText_sound htext
  cases mark with
  | true =>
    refine absurd ?_ hfree
    rw [marked, if_pos rfl, List.append_assoc]
    exact (List.prefix_append _ _).isInfix
  | false =>
    have hchars : text = String.ofList (intChars n) := by
      rw [← integerText_eq_some.mp hint, String.ofList_toList]
    rw [hchars, encodeText_intChars]
    rfl

/-- **What the browser reads is bencoded**, where no mark stands. -/
theorem parse_markFree (fuel : Nat) :
    (∀ depth c c' val, parse fuel depth c = .ok (val, c') → MarkFree c.rest →
      ∃ v : Ben, c.rest = v.encode ++ c'.rest) ∧
    (∀ depth c c' out, parseList fuel depth c = .ok (out, c') → MarkFree c.rest →
      ∃ items, c.rest = Ben.encodeItems items ++ 101 :: c'.rest) ∧
    ∀ depth previous c c' out, parseDict fuel depth previous c = .ok (out, c') → MarkFree c.rest →
      ∃ entries, c.rest = Ben.encodeEntries entries ++ 101 :: c'.rest := by
  induction fuel with
  | zero =>
    refine ⟨fun _ _ _ _ h => ?_, fun _ _ _ _ h => ?_, fun _ _ _ _ _ h => ?_⟩
    · rw [parse] at h
      cases h
    · rw [parseList] at h
      cases h
    · rw [parseDict] at h
      cases h
  | succ fuel ih =>
    obtain ⟨ihParse, ihList, ihDict⟩ := ih
    refine ⟨?_, ?_, ?_⟩
    · intro depth c c' val h hfree
      obtain ⟨_, hfuel, hparsed⟩ := parse_ok h
      obtain rfl := Nat.succ.inj hfuel
      cases hparsed with
      | @int n after hstart hnumber =>
        rw [hstart] at hfree ⊢
        refine ⟨.int n, ?_⟩
        rw [number_markFree (MarkFree.tail (a := [105]) hfree) hnumber]
        simp [Ben.encode]
      | @bytes type after b hstart hdigit hstring =>
        refine ⟨.str b, ?_⟩
        rw [hstart, string_ok hdigit hstring, Ben.encode]
      | @dict after es hstart hloop =>
        rw [hstart] at hfree ⊢
        obtain ⟨entries, hentries⟩ := ihDict _ _ _ _ _ hloop (MarkFree.tail (a := [100]) hfree)
        refine ⟨.dict entries, ?_⟩
        have hafter : after = Ben.encodeEntries entries ++ 101 :: c'.rest := hentries
        rw [hafter]
        simp [Ben.encode]
      | @list after es hstart hloop =>
        rw [hstart] at hfree ⊢
        obtain ⟨items, hitems⟩ := ihList _ _ _ _ hloop (MarkFree.tail (a := [108]) hfree)
        refine ⟨.list items, ?_⟩
        have hafter : after = Ben.encodeItems items ++ 101 :: c'.rest := hitems
        rw [hafter]
        simp [Ben.encode]
    · intro depth c c' out h hfree
      obtain hend | ⟨_, item, c₁, out', hfuel, hitem, hloop⟩ := parseList_ok h
      · exact ⟨[], hend⟩
      · obtain rfl := Nat.succ.inj hfuel
        -- An item, and what follows it has no mark either.
        obtain ⟨v, hv⟩ := ihParse _ _ _ _ hitem hfree
        rw [hv] at hfree
        obtain ⟨items, hitems⟩ := ihList _ _ _ _ hloop hfree.tail
        refine ⟨v :: items, ?_⟩
        rw [hv, hitems, Ben.encodeItems, List.append_assoc]
    · intro depth previous c c' out h hfree
      cases out with
      | nil => exact ⟨[], parseDict_nil h⟩
      | cons e out =>
        obtain ⟨_, c₂, hfuel, hentry, hloop⟩ := parseDict_cons h
        obtain rfl := Nat.succ.inj hfuel
        -- A key and its value, and again no mark in what follows.
        obtain ⟨b, c₁, hkey, -, hvalue, -⟩ := hentry.entry
        rw [hkey] at hfree
        obtain ⟨v, hv⟩ := ihParse _ _ _ _ hvalue hfree.tail
        have hfree₁ := hfree.tail
        rw [hv] at hfree₁
        obtain ⟨entries, hentries⟩ := ihDict _ _ _ _ _ hloop hfree₁.tail
        refine ⟨(b, v) :: entries, ?_⟩
        rw [hkey, hv, hentries, Ben.encodeEntries, List.append_assoc, List.append_assoc]

theorem MarkFree.close {b : Bytes} (h : MarkFree b) : MarkFree (b ++ [101]) := by
  rintro ⟨s, t, hst⟩
  obtain rfl | ⟨t', x, rfl⟩ := List.eq_nil_or_concat' t
  · -- a mark does not end in that byte
    rw [List.append_nil] at hst
    have hlast := congrArg List.getLast? hst
    simp [byteOrderMark] at hlast
  · rw [← List.append_assoc] at hst
    exact h ⟨s, t', (List.append_inj' hst rfl).1⟩

/-- What stands behind `info` is bencoded too. -/
theorem Follows.entries {rest : Bytes} (h : Follows rest) (hfree : MarkFree rest) :
    ∃ entries, rest = Ben.encodeEntries entries := by
  obtain ⟨fuel, c, c', es, hloop, hc, hend⟩ := h
  obtain ⟨entries, hentries⟩ := (parse_markFree fuel).2.2 0 (some "info") c c' es hloop
    (by rw [hc]; exact hfree.close)
  rw [hc, hend] at hentries
  exact ⟨entries, (List.append_inj' hentries rfl).1⟩

end My98.Web.Metadata
