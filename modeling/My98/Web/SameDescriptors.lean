/-
  My98.Web.SameDescriptors — the browser and the seedbox accept the same descriptors, but for one kind
  (`parseDescriptor` of `src/disk/web/torrent-protocol.js`, `parse_descriptor` and `descriptor_bytes` of
  `src/torrent/my98_torrent/protocol.py`).

  A descriptor is a JSON object with four fields, each of them once, in any order and spelling.  Both
  readers are compared with that (`Describes`): one finds duplicates with a hook on the pairs, the other
  with its scan.  Such a text is in characters of one byte.  So UTF-8 with or without a byte order mark is
  decoded alike, and all that the seedbox reads and the browser does not is a descriptor in UTF-16 or
  UTF-32, which `json.loads` guesses from its first bytes.

    • `Describes`            — what the text of a descriptor is;
    • `textDescriptor_iff`   — the seedbox takes just these texts;
    • `parseText_iff`        — and so does the browser;
    • `describes_ascii`      — their characters;
    • `same_descriptors`     — the two functions, on all bytes.
-/
import Mathlib
import My98.Web.DescriptorScan

namespace My98.Web.Descriptor

open My98.Lib My98.Lib.JsonText My98.Torrent My98.Torrent.DescriptorText My98.Torrent.Formats

/-! ## §1. What a descriptor is. -/

/-- A string that spells an infohash. -/
def HashOf (t : Tree) (h : HashText) : Prop := ∃ l, t = .str l ∧ utf16Value l = h.text

def ComponentOf (t : Tree) : Option HashText → Prop
  | none => t = .null
  | some h => HashOf t h

/-- The fields of that name are such. -/
def Field (fields : List (Units × Tree)) (name : Units) (P : Tree → Prop) : Prop :=
  ∀ f ∈ fields, utf16Value f.1 = name → P f.2

/-- **The four fields**, once each, and what they say. -/
structure Fields (fields : List (Units × Tree)) (v : Value) : Prop where
  names : (fields.map fun f => utf16Value f.1).Perm names
  hasVersion : Field fields version fun t => isOne t = true
  hasDisk : Field fields disk fun t => HashOf t v.disk
  hasState : Field fields state fun t => ComponentOf t v.state
  hasProfile : Field fields profile fun t => ComponentOf t v.profile

/-- **A text of the descriptor `v`.** -/
def Describes (v : Value) (text : Units) : Prop :=
  ∃ fields, Document words (.obj fields) text ∧ Fields fields v

/-! ## §2. Names. -/

/-- The four names are different. -/
theorem names_nodup : names.Nodup := by decide

/-- They have no character beyond the basic plane. -/
theorem names_basic : ∀ n ∈ names, ∀ c ∈ n, c < 0xD800 := by decide

/-- The two ways to read a name agree on those of a descriptor. -/
theorem codePoints_name {l n : Units} (hn : n ∈ names) : codePoints l = n ↔ utf16Value l = n :=
  codePoints_eq_iff (names_basic n hn)

/-- Where the keys are among the four names, both parsers read the same keys. -/
theorem map_codePoints {fields : List (Units × Tree)}
    (h : (∀ f ∈ fields, codePoints f.1 ∈ names) ∨ ∀ f ∈ fields, utf16Value f.1 ∈ names) :
    keys fields = fields.map fun f => utf16Value f.1 := by
  refine List.map_congr_left fun f hf => ?_
  rcases h with h | h
  · exact ((codePoints_name (h f hf)).mp rfl).symm
  · exact (codePoints_name (h f hf)).mpr rfl

/-- With each name once, a field is found by its name. -/
theorem find_name {spell : Units → Units} {fields : List (Units × Tree)}
    (hnodup : (fields.map fun f => spell f.1).Nodup) {f : Units × Tree} (hf : f ∈ fields) :
    fields.find? (fun g => spell g.1 = spell f.1) = some f := by
  induction fields with
  | nil => cases hf
  | cons g fields ih =>
    obtain ⟨hnew, hrest⟩ := List.nodup_cons.mp hnodup
    rcases List.mem_cons.mp hf with rfl | hf
    · exact List.find?_cons_of_pos (decide_eq_true rfl)
    · have hne : spell g.1 ≠ spell f.1 := fun heq => hnew (List.mem_map.mpr ⟨f, hf, heq.symm⟩)
      rw [List.find?_cons_of_neg (by simpa using hne)]
      exact ih hrest hf

/-- **The field of a name**: both readers find it, and there is no other. -/
theorem get_name {fields : List (Units × Tree)} (hnames : (fields.map fun f => utf16Value f.1).Perm names)
    {n : Units} (hn : n ∈ names) :
    ∃ f ∈ fields, DescriptorText.get fields n = some f.2 ∧ lookupField utf16Value fields n = some f.2 ∧
      ∀ P, Field fields n P ↔ P f.2 := by
  have hnodup := hnames.nodup_iff.mpr names_nodup
  obtain ⟨f, hf, rfl⟩ := List.mem_map.mp (hnames.mem_iff.mpr hn)
  have hall : ∀ f ∈ fields, utf16Value f.1 ∈ names := fun f hf =>
    hnames.mem_iff.mp (List.mem_map.mpr ⟨f, hf, rfl⟩)
  have hfind := find_name hnodup hf
  refine ⟨f, hf, ?_, ?_, fun P => ⟨fun h => h f hf rfl, fun h g hg hname => ?_⟩⟩
  · have hpoints := (codePoints_name (hall f hf)).mpr rfl
    have hkeys : (fields.map fun f => codePoints f.1).Nodup := by
      have heq : (fields.map fun f => codePoints f.1) = _ := map_codePoints (Or.inr hall)
      rw [heq]
      exact hnodup
    have hget := find_name hkeys hf
    rw [hpoints] at hget
    unfold DescriptorText.get
    rw [hget]
    rfl
  · have hreverse : (fields.reverse.map fun f => utf16Value f.1).Nodup := by
      rw [List.map_reverse]
      exact List.nodup_reverse.mpr hnodup
    unfold lookupField
    rw [find_name hreverse (List.mem_reverse.mpr hf)]
    rfl
  · have hsame := find_name hnodup hg
    rw [hname, hfind] at hsame
    rwa [← Option.some.inj hsame]

/-- Every field has one of the four names. -/
theorem field_cases {fields : List (Units × Tree)} (P : Tree → Prop)
    (hnames : (fields.map fun f => utf16Value f.1).Perm names) (hversion : Field fields version P)
    (hdisk : Field fields disk P) (hstate : Field fields state P) (hprofile : Field fields profile P) :
    ∀ f ∈ fields, P f.2 := by
  intro f hf
  have hmem : utf16Value f.1 ∈ names := hnames.mem_iff.mp (List.mem_map.mpr ⟨f, hf, rfl⟩)
  simp only [names, List.mem_cons, List.not_mem_nil, or_false] at hmem
  rcases hmem with hname | hname | hname | hname
  · exact hversion f hf hname
  · exact hdisk f hf hname
  · exact hstate f hf hname
  · exact hprofile f hf hname

/-! ## §3. Values. -/

/-- A hash is written in ASCII. -/
theorem hash_basic (h : HashText) : ∀ c ∈ h.text, c < 128 := by
  have hall := (Bool.and_eq_true_iff.mp h.property).2
  intro c hc
  have hdigit := List.all_eq_true.mp hall c hc
  simp only [isHashDigit, Bool.or_eq_true, Bool.and_eq_true, decide_eq_true_eq] at hdigit
  omega

/-- A hash is read from its text, and from no other. -/
theorem hashText?_eq_some {text : Units} {h : HashText} : hashText? text = some h ↔ text = h.text := by
  unfold hashText?
  constructor
  · intro heq
    split at heq
    · rw [← Option.some.inj heq]
    · cases heq
  · rintro rfl
    rw [dif_pos h.property]

/-- A literal stands for a hash when its value is the text of the hash. -/
theorem hashOf_str {l : Units} {h : HashText} : HashOf (.str l) h ↔ utf16Value l = h.text :=
  ⟨fun ⟨_, heq, hl⟩ => Tree.str.inj heq ▸ hl, fun hl => ⟨l, rfl, hl⟩⟩

/-- Nothing but a string stands for a hash. -/
theorem not_hashOf {t : Tree} {h : HashText} (ht : ∀ l, t ≠ .str l) : ¬HashOf t h :=
  fun ⟨l, heq, _⟩ => ht l heq

/-- **A hash**, to the seedbox. -/
theorem hashBytes_ok {t : Tree} {h : HashText} : hashBytes t = .ok h ↔ HashOf t h := by
  cases t with
  | str l =>
    have hspells : codePoints l = h.text ↔ utf16Value l = h.text :=
      codePoints_eq_iff fun c hc => (hash_basic h c hc).trans (by decide)
    rw [hashOf_str, ← hspells, ← hashText?_eq_some]
    unfold hashBytes
    dsimp only
    cases hashText? (codePoints l) with
    | none => exact iff_of_false (fun heq => by cases heq) (fun heq => by cases heq)
    | some h' =>
      exact ⟨fun heq => congrArg some (Except.ok.inj heq), fun heq => congrArg Except.ok (Option.some.inj heq)⟩
  | _ => exact iff_of_false (fun heq => by cases heq) (not_hashOf fun l heq => by cases heq)

/-- **A hash**, to the browser. -/
theorem infoHash_ok {t : Tree} {h : HashText} : infoHash (some t) = .ok h ↔ HashOf t h := by
  cases t with
  | str l =>
    rw [hashOf_str, ← hashText?_eq_some]
    unfold infoHash
    dsimp only
    cases hashText? (utf16Value l) with
    | none => exact iff_of_false (fun heq => by cases heq) (fun heq => by cases heq)
    | some h' =>
      exact ⟨fun heq => congrArg some (Except.ok.inj heq), fun heq => congrArg Except.ok (Option.some.inj heq)⟩
  | _ => exact iff_of_false (fun heq => by cases heq) (not_hashOf fun l heq => by cases heq)

/-- `null` is no component, and anything else has to be a hash. -/
theorem component_iff {α : Type} {t : Tree} {o : Option HashText} {x : Except α (Option HashText)}
    {y : Except α HashText} (hnull : t = .null → x = .ok none) (hother : t ≠ .null → x = y.map some)
    (hy : ∀ h, y = .ok h ↔ HashOf t h) : x = .ok o ↔ ComponentOf t o := by
  by_cases ht : t = .null
  · rw [hnull ht]
    cases o with
    | none => exact iff_of_true rfl ht
    | some h =>
      refine iff_of_false (fun heq => by cases heq) (not_hashOf fun l heq => ?_)
      cases ht.symm.trans heq
  · rw [hother ht]
    cases hvalue : y with
    | error e =>
      refine iff_of_false (fun heq => by cases heq) fun hcomponent => ?_
      cases o with
      | none => exact ht hcomponent
      | some h => cases hvalue.symm.trans ((hy h).mpr hcomponent)
    | ok h' =>
      cases o with
      | none => exact iff_of_false (fun heq => by cases heq) ht
      | some h =>
        show Except.ok (some h') = .ok (some h) ↔ HashOf t h
        rw [← hy h, hvalue]
        exact ⟨fun heq => congrArg Except.ok (Option.some.inj (Except.ok.inj heq)),
          fun heq => congrArg (fun h => Except.ok (some h)) (Except.ok.inj heq)⟩

/-- The browser reads an optional component as it is described. -/
theorem optionalHash_ok {t : Tree} {o : Option HashText} : optionalHash t = .ok o ↔ ComponentOf t o := by
  refine component_iff (fun ht => ?_) (fun ht => ?_) fun _ => hashBytes_ok
  · rw [ht]
    rfl
  · unfold optionalHash
    split
    · exact absurd rfl ht
    · rfl

/-- So does the seedbox. -/
theorem component_ok {t : Tree} {o : Option HashText} : component (some t) = .ok o ↔ ComponentOf t o := by
  refine component_iff (fun ht => ?_) (fun ht => ?_) fun _ => infoHash_ok
  · rw [ht]
    rfl
  · unfold component
    split
    next heq => exact absurd (Option.some.inj heq) ht
    · rfl

/-- What a production spells. -/
def SpelledItem : Item → Prop
  | .value v => v.Spelled
  | .elements vs => AllSpelled vs
  | .members fs => FieldsSpelled fs
  | .field k v => Chars k ∧ v.Spelled

/-- Whatever the grammar reads is spelled by it. -/
theorem reads_spelled {item : Item} {text rest : Units} (h : Reads words item text rest) :
    SpelledItem item := by
  induction h with
  | word h =>
    simp only [words, List.mem_cons, List.not_mem_nil, or_false, Prod.mk.injEq] at h
    rcases h with ⟨-, rfl⟩ | ⟨-, rfl⟩ | ⟨-, rfl⟩
    · trivial
    · trivial
    · trivial
  | num h => exact h
  | str h => exact h
  | arrNil hsp => trivial
  | arr hsp h ih => exact ih
  | objNil hsp => trivial
  | obj hsp h ih => exact ih
  | last hsp h ih => exact ⟨ih, trivial⟩
  | next hsp hsp' h h' ih ih' => exact ⟨ih, ih'⟩
  | lastField hsp h ih => exact ⟨ih.1, ih.2, trivial⟩
  | nextField hsp hsp' h h' ih ih' => exact ⟨ih.1, ih.2, ih'⟩
  | field hk hsp hsp' h ih => exact ⟨hk, ih⟩

/-- So is each field of an object. -/
theorem spelled_of_mem {fields : List (Units × Tree)} (h : FieldsSpelled fields) {f : Units × Tree}
    (hf : f ∈ fields) : Chars f.1 ∧ f.2.Spelled := by
  induction fields with
  | nil => cases hf
  | cons g fields ih =>
    rcases List.mem_cons.mp hf with rfl | hf
    · exact ⟨h.1, h.2.1⟩
    · exact ih h.2.2 hf

/-- Fields with finite values are finite. -/
theorem finite_of_mem {fields : List (Units × Tree)} (h : ∀ f ∈ fields, finite f.2 = true) :
    finiteFields fields = true := by
  induction fields with
  | nil => rfl
  | cons g fields ih =>
    have htail := ih fun f hf => h f (List.mem_cons_of_mem _ hf)
    rw [finiteFields, h g List.mem_cons_self, htail]
    rfl

/-- Further digits make no number smaller. -/
theorem natValue_mono {ds : Units} {n k : Nat} (h : k ≤ n) :
    k ≤ ds.foldl (fun n c => 10 * n + (c - 48)) n := by
  induction ds generalizing n with
  | nil => exact h
  | cons c ds ih =>
    have hstep : k ≤ 10 * n + (c - 48) := by omega
    exact ih hstep

/-- **The integer one has one spelling.** -/
theorem one_of_int {l : Units} (h : IsNumber l) (hone : intValue l = some 1) : l = [49] := by
  obtain ⟨c, tl, rfl, hc⟩ := isNumber_head h
  rw [intValue] at hone
  split at hone
  · split at hone
    · have hneg := Option.some.inj hone
      omega
    · cases hone
  next hsign =>
    split at hone
    next hall =>
      have hvalue : natValue (c :: tl) = 1 := by exact_mod_cast Option.some.inj hone
      have hdigits := List.all_eq_true.mp hall
      have hrange : 48 ≤ c ∧ c ≤ 57 := by
        simpa [isNumeral] using hdigits c List.mem_cons_self
      cases tl with
      | nil =>
        have hlast : 10 * 0 + (c - 48) = 1 := hvalue
        rw [show c = 49 by omega]
      | cons d tl =>
        -- a longer number does not start with zero, so it is ten at least
        have hpositive : 1 ≤ c - 48 := by
          obtain ⟨s, i, f, e, heq, hs, hi, hf, he⟩ := h
          have hsnil : s = [] := by
            rcases hs with rfl | rfl
            · rfl
            · exact absurd (List.cons.inj heq).1 hsign
          subst hsnil
          rw [List.nil_append] at heq
          rcases hi with rfl | ⟨hnumerals, hhead⟩
          · obtain ⟨-, hbehind⟩ := List.cons.inj heq
            have hd := hdigits d (List.mem_cons_of_mem _ List.mem_cons_self)
            have hstops : ¬isNumeral d = true := by
              rcases hf with rfl | ⟨ds, rfl, -⟩
              · rcases he with rfl | ⟨c', s', ds, rfl, hc', -, -⟩
                · cases hbehind
                · rw [(List.cons.inj hbehind).1]
                  rcases hc' with rfl | rfl
                  · decide
                  · decide
              · rw [(List.cons.inj hbehind).1]
                decide
            exact absurd hd hstops
          · cases i with
            | nil => exact absurd rfl hnumerals.ne
            | cons c' i =>
              have hcc : c = c' := (List.cons.inj heq).1
              have hne : c' ≠ 48 := fun heq => hhead (congrArg some heq)
              omega
        have hten : 10 ≤ natValue (c :: d :: tl) := by
          show 10 ≤ tl.foldl _ (10 * (10 * 0 + (c - 48)) + (d - 48))
          exact natValue_mono (by omega)
        omega
    · cases hone

/-- A literal that the scanner takes for one is the number one, for both parsers. -/
theorem isOne_int {t : Tree} (h : isOne t = true) : int? t = some 1 ∧ LoadProfiles.jsNumber t = some 1 := by
  have hint : int? t = some 1 := by
    unfold isOne at h
    split at h
    · rw [of_decide_eq_true h]
      rfl
    · cases h
  have hnumber := LoadProfiles.jsNumber_of_int hint (by norm_num)
  exact ⟨hint, by simpa using hnumber⟩

/-- The only integer literal with the value one is the one that the scanner takes. -/
theorem int_isOne {t : Tree} (hspelled : t.Spelled) (h : int? t = some 1) : isOne t = true := by
  cases t with
  | num l => exact decide_eq_true (one_of_int hspelled h)
  | _ => cases h

/-- A literal that is no number is not one. -/
theorem int_finite {t : Tree} (h : int? t = some 1) : finite t = true := by
  cases t with
  | num l =>
    refine decide_eq_true fun hmem => ?_
    have hint : intValue l = some 1 := h
    simp only [nonFinite, List.mem_cons, List.not_mem_nil, or_false] at hmem
    rcases hmem with rfl | rfl | rfl
    · exact absurd hint (by decide)
    · exact absurd hint (by decide)
    · exact absurd hint (by decide)
  | _ => cases h

/-- A component has no infinite number in it. -/
theorem component_finite {t : Tree} {o : Option HashText} (h : ComponentOf t o) : finite t = true := by
  cases o with
  | none =>
    rw [show t = .null from h]
    rfl
  | some hash =>
    obtain ⟨l, rfl, -⟩ := h
    rfl

/-! ## §4. The seedbox. -/

section Readers

variable {text : Units} {fields : List (Units × Tree)} {v : Value}

/-- Three components are read when each of them is. -/
theorem three_ok {α : Type} {x : Except α HashText} {y z : Except α (Option HashText)} :
    (do
      let disk ← x
      let state ← y
      let profile ← z
      pure (⟨disk, state, profile⟩ : Value)) = .ok v ↔
    x = .ok v.disk ∧ y = .ok v.state ∧ z = .ok v.profile := by
  constructor
  · intro h
    obtain ⟨disk, hx, h₁⟩ := ok_of_bind h
    obtain ⟨state, hy, h₂⟩ := ok_of_bind h₁
    obtain ⟨profile, hz, h₃⟩ := ok_of_bind h₂
    rw [← Except.ok.inj h₃]
    exact ⟨hx, hy, hz⟩
  · rintro ⟨rfl, rfl, rfl⟩
    rfl

/-- Fields with unique keys in their values have unique keys. -/
theorem unique_of_mem (h : ∀ f ∈ fields, unique f.2 = true) : uniqueFields fields = true := by
  induction fields with
  | nil => rfl
  | cons g fields ih =>
    have htail := ih fun f hf => h f (List.mem_cons_of_mem _ hf)
    rw [uniqueFields, h g List.mem_cons_self, htail]
    rfl

/-- A component has no object in it, so no key twice. -/
theorem component_unique {t : Tree} {o : Option HashText} (h : ComponentOf t o) : unique t = true := by
  cases o with
  | none =>
    rw [show t = .null from h]
    rfl
  | some hash =>
    obtain ⟨l, rfl, -⟩ := h
    rfl

/-- Nor has the version. -/
theorem isOne_unique {t : Tree} (h : isOne t = true) : unique t = true := by
  cases t with
  | num l => rfl
  | _ => cases h

/-- With no key twice, the seedbox asks for exactly the four names. -/
theorem hasNames_iff (hnodup : (keys fields).Nodup) : hasNames fields = true ↔ (keys fields).Perm names := by
  rw [List.perm_ext_iff_of_nodup hnodup names_nodup]
  unfold hasNames
  rw [Bool.and_eq_true, List.all_eq_true, List.all_eq_true]
  simp only [decide_eq_true_eq]
  exact ⟨fun h k => ⟨h.1 k, h.2 k⟩, fun h => ⟨fun k => (h k).mp, fun k => (h k).mpr⟩⟩

/-- The fields of a document are spelled. -/
theorem spelled_of_document (h : Document words (.obj fields) text) : FieldsSpelled fields := by
  obtain ⟨sp, text', sp', -, -, -, hreads⟩ := h
  exact reads_spelled hreads

/-- What the seedbox looks at. -/
theorem descriptor_ok (hnames : (fields.map fun f => utf16Value f.1).Perm names) :
    descriptor (.obj fields) = .ok v ↔ hasNames fields = true ∧
      Field fields version (fun t => int? t = some 1) ∧ Field fields disk (fun t => HashOf t v.disk) ∧
      Field fields state (fun t => ComponentOf t v.state) ∧
      Field fields profile fun t => ComponentOf t v.profile := by
  obtain ⟨f₁, -, hget₁, -, hfield₁⟩ := get_name hnames (n := version) (by decide)
  obtain ⟨f₂, -, hget₂, -, hfield₂⟩ := get_name hnames (n := disk) (by decide)
  obtain ⟨f₃, -, hget₃, -, hfield₃⟩ := get_name hnames (n := state) (by decide)
  obtain ⟨f₄, -, hget₄, -, hfield₄⟩ := get_name hnames (n := profile) (by decide)
  rw [hfield₁, hfield₂, hfield₃, hfield₄]
  unfold descriptor
  dsimp only
  rw [hget₁, hget₂, hget₃, hget₄]
  split
  next hchecks =>
    rw [three_ok]
    show hashBytes f₂.2 = _ ∧ optionalHash f₃.2 = _ ∧ optionalHash f₄.2 = _ ↔ _
    rw [hashBytes_ok, optionalHash_ok, optionalHash_ok]
    exact ⟨fun h => ⟨hchecks.1, hchecks.2, h⟩, fun h => h.2.2⟩
  next hchecks => exact iff_of_false (fun h => by cases h) fun h => hchecks ⟨h.1, h.2.1⟩

/-- **The seedbox takes the texts of descriptors**, and no others. -/
theorem textDescriptor_iff : textDescriptor text = .ok v ↔ Describes v text := by
  constructor
  · intro h
    obtain ⟨t, hloads, hdescriptor⟩ := ok_of_bind h
    unfold loads at hloads
    split at hloads
    · cases hloads
    next t' hparse =>
      split at hloads
      next hunique =>
        obtain rfl := Except.ok.inj hloads
        cases t' with
        | obj fields =>
          have hnodup : (keys fields).Nodup := of_decide_eq_true (Bool.and_eq_true_iff.mp hunique).1
          have hhas : hasNames fields = true := by
            unfold descriptor at hdescriptor
            dsimp only at hdescriptor
            split at hdescriptor
            next hchecks => exact hchecks.1
            · cases hdescriptor
          have hperm := (hasNames_iff hnodup).mp hhas
          have hspell : ∀ f ∈ fields, codePoints f.1 ∈ names := fun f hf =>
            hperm.mem_iff.mp (List.mem_map.mpr ⟨f, hf, rfl⟩)
          rw [map_codePoints (Or.inl hspell)] at hperm
          obtain ⟨-, hversion, hdisk, hstate, hprofile⟩ := (descriptor_ok hperm).mp hdescriptor
          -- A description has no number beyond the range of a double, so it is a document.
          have hfinite : finite (.obj fields) = true := finite_of_mem (field_cases
            (fun t => finite t = true) hperm (fun f hf hn => int_finite (hversion f hf hn))
            (fun f hf hn => component_finite (o := some v.disk) (hdisk f hf hn))
            (fun f hf hn => component_finite (hstate f hf hn))
            (fun f hf hn => component_finite (hprofile f hf hn)))
          have hdocument := parse_sound (parse_words_iff.mpr ⟨hparse, hfinite⟩)
          have hspelled := spelled_of_document hdocument
          exact ⟨fields, hdocument, hperm, fun f hf hn => int_isOne (spelled_of_mem hspelled hf).2 (hversion f hf hn),
            hdisk, hstate, hprofile⟩
        | _ => cases hdescriptor
      · cases hloads
  · rintro ⟨fields, hdocument, hnames, hversion, hdisk, hstate, hprofile⟩
    have hparse := (parse_words_iff.mp ((parse_eq_some words_plain).mpr hdocument)).1
    have hspell : ∀ f ∈ fields, utf16Value f.1 ∈ names := fun f hf =>
      hnames.mem_iff.mp (List.mem_map.mpr ⟨f, hf, rfl⟩)
    -- A description has the four names once each, so no key of it is refused.
    have hkeys : (keys fields).Perm names := by
      rw [map_codePoints (Or.inr hspell)]
      exact hnames
    have hnodup := hkeys.nodup_iff.mpr names_nodup
    have hvalues : uniqueFields fields = true := unique_of_mem (field_cases
      (fun t => unique t = true) hnames (fun f hf hn => isOne_unique (hversion f hf hn))
      (fun f hf hn => component_unique (o := some v.disk) (hdisk f hf hn))
      (fun f hf hn => component_unique (hstate f hf hn))
      (fun f hf hn => component_unique (hprofile f hf hn)))
    have hunique : unique (.obj fields) = true := Bool.and_eq_true_iff.mpr ⟨decide_eq_true hnodup, hvalues⟩
    have hloads : loads text = .ok (.obj fields) := by
      unfold loads
      rw [hparse]
      exact if_pos hunique
    have hdescriptor : descriptor (.obj fields) = .ok v := (descriptor_ok hnames).mpr
      ⟨(hasNames_iff hnodup).mpr hkeys, fun f hf hn => (isOne_int (hversion f hf hn)).1, hdisk, hstate, hprofile⟩
    unfold textDescriptor
    rw [hloads]
    exact hdescriptor

/-! ## §5. The browser. -/

/-- **The scan finds what the hook finds**, and that the version is spelled `1`. -/
theorem checkFields_ok {seen : List Units} : (∃ seen', checkFields seen fields = .ok seen') ↔
    (fields.map fun f => utf16Value f.1).Nodup ∧ (∀ f ∈ fields, utf16Value f.1 ∉ seen) ∧
      Field fields version fun t => isOne t = true := by
  induction fields generalizing seen with
  | nil => exact iff_of_true ⟨seen, rfl⟩ ⟨List.nodup_nil, (fun f hf => by cases hf), fun f hf => by cases hf⟩
  | cons g fields ih =>
    rw [checkFields]
    split
    next hdup =>
      refine iff_of_false (fun hok => ?_) fun h => h.2.1 g List.mem_cons_self hdup
      obtain ⟨seen', hseen⟩ := hok
      cases hseen
    next hnew =>
      split
      next hinexact =>
        refine iff_of_false (fun hok => ?_) fun h => ?_
        · obtain ⟨seen', hseen⟩ := hok
          cases hseen
        · have hone : isOne g.2 = true := h.2.2 g List.mem_cons_self hinexact.1
          rw [hinexact.2] at hone
          cases hone
      next hexact =>
        rw [ih, List.map_cons, List.nodup_cons]
        constructor
        · rintro ⟨hnodup, hfresh, hone⟩
          refine ⟨⟨fun hmem => ?_, hnodup⟩, fun f hf => ?_, fun f hf hname => ?_⟩
          · obtain ⟨f, hf, hsame⟩ := List.mem_map.mp hmem
            exact hfresh f hf (hsame ▸ List.mem_cons_self)
          · rcases List.mem_cons.mp hf with rfl | hf
            · exact hnew
            · exact fun hmem => hfresh f hf (List.mem_cons_of_mem _ hmem)
          · rcases List.mem_cons.mp hf with rfl | hf
            · by_contra hnot
              exact hexact ⟨hname, Bool.eq_false_of_not_eq_true hnot⟩
            · exact hone f hf hname
        · rintro ⟨⟨hhead, hnodup⟩, hfresh, hone⟩
          refine ⟨hnodup, fun f hf hmem => ?_, fun f hf hname => hone f (List.mem_cons_of_mem _ hf) hname⟩
          rcases List.mem_cons.mp hmem with hsame | hmem
          · exact hhead (List.mem_map.mpr ⟨f, hf, hsame⟩)
          · exact hfresh f (List.mem_cons_of_mem _ hf) hmem

/-- **What the browser's scan accepts**: no key twice, and the version spelled as one. -/
theorem scan_ok (h : Document words (.obj fields) text) : scan 0 [] .outside text = .ok () ↔
    (fields.map fun f => utf16Value f.1).Nodup ∧ Field fields version fun t => isOne t = true := by
  have hcheck := @checkFields_ok fields []
  rw [scan_object h]
  constructor
  · intro hok
    cases hseen : checkFields [] fields with
    | error e =>
      rw [hseen] at hok
      cases hok
    | ok seen' =>
      obtain ⟨hnodup, -, hone⟩ := hcheck.mp ⟨seen', hseen⟩
      exact ⟨hnodup, hone⟩
  · rintro ⟨hnodup, hone⟩
    obtain ⟨seen', hseen⟩ := hcheck.mpr ⟨hnodup, fun _ _ => List.not_mem_nil, hone⟩
    rw [hseen]
    rfl

/-- With no key twice, the browser asks for exactly the four names, too. -/
theorem keysAre_iff (hnodup : (fields.map fun f => utf16Value f.1).Nodup) :
    keysAre (.obj fields) names = true ↔ (fields.map fun f => utf16Value f.1).Perm names := by
  unfold keysAre
  dsimp only
  rw [hnodup.dedup, Bool.and_eq_true, List.all_eq_true, decide_eq_true_eq]
  simp only [decide_eq_true_eq]
  constructor
  · rintro ⟨hlength, hall⟩
    exact ((List.subperm_of_subset names_nodup hall).perm_of_length_le hlength.le).symm
  · intro hperm
    exact ⟨hperm.length_eq, fun n hn => hperm.mem_iff.mpr hn⟩

/-- **The browser takes the texts of descriptors**, and no others. -/
theorem parseText_iff : parseText text = .ok v ↔ Describes v text := by
  constructor
  · intro h
    unfold parseText at h
    split at h
    · cases h
    next value hparse =>
      split at h
      · cases h
      next hchecks =>
        obtain ⟨hkeys, -⟩ := not_or.mp hchecks
        obtain ⟨u, hscan, hrest⟩ := ok_of_bind h
        rw [three_ok] at hrest
        cases value with
        | obj fields =>
          have hdocument := parse_sound hparse
          -- No key comes twice, so the last field of a name is the only one.
          obtain ⟨hnodup, hone⟩ := (scan_ok hdocument).mp hscan
          have hnames := (keysAre_iff hnodup).mp (Bool.eq_true_of_not_eq_false hkeys)
          obtain ⟨f₂, -, -, hget₂, hfield₂⟩ := get_name hnames (n := disk) (by decide)
          obtain ⟨f₃, -, -, hget₃, hfield₃⟩ := get_name hnames (n := state) (by decide)
          obtain ⟨f₄, -, -, hget₄, hfield₄⟩ := get_name hnames (n := profile) (by decide)
          unfold prop at hrest
          dsimp only at hrest
          rw [hget₂, hget₃, hget₄, infoHash_ok, component_ok, component_ok] at hrest
          exact ⟨fields, hdocument, hnames, hone, (hfield₂ _).mpr hrest.1, (hfield₃ _).mpr hrest.2.1,
            (hfield₄ _).mpr hrest.2.2⟩
        | _ => exact absurd rfl hkeys
  · rintro ⟨fields, hdocument, hnames, hversion, hdisk, hstate, hprofile⟩
    have hnodup := hnames.nodup_iff.mpr names_nodup
    obtain ⟨f₁, -, -, hget₁, hfield₁⟩ := get_name hnames (n := version) (by decide)
    obtain ⟨f₂, -, -, hget₂, hfield₂⟩ := get_name hnames (n := disk) (by decide)
    obtain ⟨f₃, -, -, hget₃, hfield₃⟩ := get_name hnames (n := state) (by decide)
    obtain ⟨f₄, -, -, hget₄, hfield₄⟩ := get_name hnames (n := profile) (by decide)
    have hone := (isOne_int ((hfield₁ _).mp hversion)).2
    have hchecks : ¬(keysAre (.obj fields) names = false ∨
        (prop (.obj fields) version).bind LoadProfiles.jsNumber ≠ some 1) := by
      rintro (hkeys | hnot)
      · rw [(keysAre_iff hnodup).mpr hnames] at hkeys
        cases hkeys
      · unfold prop at hnot
        dsimp only at hnot
        rw [hget₁] at hnot
        exact hnot hone
    unfold parseText
    rw [(parse_eq_some words_plain).mpr hdocument]
    dsimp only
    rw [if_neg hchecks, (scan_ok hdocument).mpr ⟨hnodup, hversion⟩]
    show (do
      let disk ← infoHash (prop (.obj fields) disk)
      let state ← component (prop (.obj fields) state)
      let profile ← component (prop (.obj fields) profile)
      pure (⟨disk, state, profile⟩ : Value)) = _
    rw [three_ok]
    unfold prop
    dsimp only
    rw [hget₂, hget₃, hget₄, infoHash_ok, component_ok, component_ok]
    exact ⟨(hfield₂ _).mp hdisk, (hfield₃ _).mp hstate, (hfield₄ _).mp hprofile⟩

/-! ## §6. The characters of a descriptor. -/

/-- Space is ASCII. -/
theorem space_ascii {sp : Units} (h : Space sp) : Ascii sp := by
  intro c hc
  have hcases := space_cases (h c hc)
  omega

/-- A value that has no other characters than those of one byte. -/
def Plain (t : Tree) : Prop := t = .null ∨ isOne t = true ∨ ∃ l, t = .str l ∧ ∀ c ∈ utf16Value l, c < 128

/-- A component is plain. -/
theorem component_plain {t : Tree} {o : Option HashText} (h : ComponentOf t o) : Plain t := by
  cases o with
  | none => exact Or.inl h
  | some hash =>
    obtain ⟨l, rfl, hl⟩ := h
    refine Or.inr (Or.inr ⟨l, rfl, ?_⟩)
    rw [hl]
    exact hash_basic hash

/-- A plain value is written in ASCII, if what follows it is. -/
theorem value_ascii {t : Tree} {rest : Units} (h : Reads words (.value t) text rest) (ht : Plain t)
    (hrest : Ascii rest) : Ascii text := by
  have hword : ∀ e ∈ words, Ascii e.1 := by
    intro e he
    simp only [words, List.mem_cons, List.not_mem_nil, or_false] at he
    unfold JsonText.Ascii
    rcases he with rfl | rfl | rfl
    · decide
    · decide
    · decide
  cases h with
  | word hmem => exact (hword _ hmem).append hrest
  | num hl =>
    rcases ht with ht | ht | ⟨l, ht, -⟩
    · cases ht
    · rw [of_decide_eq_true ht]
      exact Ascii.cons (by decide) hrest
    · cases ht
  | str hl =>
    rcases ht with ht | ht | ⟨l, ht, hvalue⟩
    · cases ht
    · cases ht
    · obtain rfl := Tree.str.inj ht
      exact Ascii.cons (by decide) ((hl.ascii hvalue).append (Ascii.cons (by decide) hrest))
  | _ =>
    rcases ht with ht | ht | ⟨l, ht, -⟩
    · cases ht
    · cases ht
    · cases ht

/-- So is a field with an ASCII name. -/
theorem field_ascii {k sp rest : Units} {t : Tree} (hk : ∀ c ∈ utf16Value k, c < 128) (ht : Plain t)
    (h : Reads words (.field k t) text (sp ++ rest)) (hsp : Space sp) (hrest : Ascii rest) : Ascii text := by
  generalize hbehind : sp ++ rest = behind at h
  have hascii : Ascii behind := hbehind ▸ (space_ascii hsp).append hrest
  cases h with
  | field hchars hsp₁ hsp₂ hvalue =>
    have htail := (space_ascii hsp₂).append (value_ascii hvalue ht hascii)
    have hcolon := (space_ascii hsp₁).append (Ascii.cons (c := 58) (by decide) htail)
    exact Ascii.cons (by decide) ((hchars.ascii hk).append (Ascii.cons (by decide) hcolon))

/-- So are the members of an object. -/
theorem members_ascii {rest : Units} (h : Reads words (.members fields) text rest)
    (hfields : ∀ f ∈ fields, (∀ c ∈ utf16Value f.1, c < 128) ∧ Plain f.2) (hrest : Ascii rest) :
    Ascii text := by
  induction fields generalizing text with
  | nil => cases h
  | cons f fields ih =>
    obtain ⟨hk, ht⟩ := hfields f List.mem_cons_self
    cases h with
    | lastField hsp hfield => exact field_ascii hk ht hfield hsp (Ascii.cons (by decide) hrest)
    | nextField hsp hsp' hfield hmembers =>
      have htail := ih hmembers fun g hg => hfields g (List.mem_cons_of_mem _ hg)
      exact field_ascii hk ht hfield hsp (Ascii.cons (by decide) ((space_ascii hsp').append htail))

/-- **The text of a descriptor is in characters of one byte**, none of them zero. -/
theorem describes_ascii (h : Describes v text) : Ascii text := by
  obtain ⟨fields, ⟨sp, text', sp', hsp, hsp', rfl, hreads⟩, hnames, hversion, hdisk, hstate, hprofile⟩ := h
  have hplain := field_cases Plain hnames
    (fun f hf hn => Or.inr (Or.inl (hversion f hf hn)))
    (fun f hf hn => component_plain (o := some v.disk) (hdisk f hf hn))
    (fun f hf hn => component_plain (hstate f hf hn)) (fun f hf hn => component_plain (hprofile f hf hn))
  have hletters : ∀ n ∈ names, ∀ c ∈ n, c < 128 := by decide
  have hfields : ∀ f ∈ fields, (∀ c ∈ utf16Value f.1, c < 128) ∧ Plain f.2 := fun f hf =>
    ⟨hletters _ (hnames.mem_iff.mp (List.mem_map.mpr ⟨f, hf, rfl⟩)), hplain f hf⟩
  refine (space_ascii hsp).append ?_
  cases hreads with
  | word hword =>
    simp only [words, List.mem_cons, List.not_mem_nil, or_false, Prod.mk.injEq] at hword
    rcases hword with ⟨-, hv⟩ | ⟨-, hv⟩ | ⟨-, hv⟩
    · cases hv
    · cases hv
    · cases hv
  | objNil hsp₁ =>
    have hclose := Ascii.cons (c := 125) (by decide) (space_ascii hsp')
    exact Ascii.cons (by decide) ((space_ascii hsp₁).append hclose)
  | obj hsp₁ hmembers =>
    exact Ascii.cons (by decide) ((space_ascii hsp₁).append (members_ascii hmembers hfields (space_ascii hsp')))

end Readers

/-! ## §7. Bytes. -/

section Bytes

variable {data : Bytes} {text : Units} {v : Value}

/-- A byte is told by its number. -/
theorem byte_eq (a : UInt8) : UInt8.ofNat a.toNat = a := UInt8.ofNat_toNat

/-- Bytes that stand for such characters only are these characters. -/
theorem utf8Pass_ascii (h : utf8Pass data = some text) (hascii : JsonText.Ascii text) :
    data = text.map UInt8.ofNat := by
  fun_induction utf8Pass data generalizing text with
  | case1 =>
    obtain rfl := Option.some.inj h
    rfl
  | case2 a rest ha ih =>
    obtain ⟨tail, htail, rfl⟩ := Option.map_eq_some_iff.mp h
    have hrest := ih htail fun c hc => hascii c (List.mem_cons_of_mem _ hc)
    rw [List.map_cons, byte_eq, ← hrest]
  | case3 => cases h
  | case4 a ha b rest hlead ih =>
    obtain ⟨tail, htail, rfl⟩ := Option.map_eq_some_iff.mp h
    have hsmall := (hascii _ List.mem_cons_self).2
    omega
  | case5 => cases h
  | case6 a ha b hb c rest hlead ih =>
    obtain ⟨tail, htail, rfl⟩ := Option.map_eq_some_iff.mp h
    have hsmall := (hascii _ List.mem_cons_self).2
    omega
  | case7 => cases h
  | case8 a ha b hb c hc d rest hlead ih =>
    obtain ⟨tail, htail, rfl⟩ := Option.map_eq_some_iff.mp h
    have hsmall := (hascii _ List.mem_cons_self).2
    omega
  | case9 => cases h

/-- A character of the basic plane is one unit. -/
theorem utf16_char {c : Char} (h : c.toNat < 0x10000) : utf16Char c = [c.toNat] := by
  unfold utf16Char
  rw [if_pos h]

/-- The code units are the code points, where a pair would show. -/
theorem utf16_points {s : String} (h : JsonText.Ascii (utf16 s) ∨ JsonText.Ascii (points s)) :
    utf16 s = points s := by
  have hsmall : ∀ c ∈ s.toList, c.toNat < 0x10000 := by
    intro c hc
    by_contra hlarge
    rcases h with h | h
    · have hunit : 0xD800 + (c.toNat - 0x10000) / 0x400 ∈ utf16 s := by
        refine List.mem_flatMap.mpr ⟨c, hc, ?_⟩
        unfold utf16Char
        rw [if_neg hlarge]
        exact List.mem_cons_self
      have hascii := (h _ hunit).2
      omega
    · have hascii := (h c.toNat (List.mem_map_of_mem hc)).2
      omega
  unfold utf16 points
  generalize s.toList = text at hsmall ⊢
  induction text with
  | nil => rfl
  | cons c cs ih =>
    rw [List.flatMap_cons, utf16_char (hsmall c List.mem_cons_self),
      ih fun d hd => hsmall d (List.mem_cons_of_mem _ hd)]
    rfl

/-- ASCII that passes the incremental decoder is decoded to the same text. -/
theorem utf8?_ascii (h : utf8Pass data = some text) (hascii : JsonText.Ascii text) :
    ∃ s, utf8? data = some s ∧ utf16 s = text := by
  obtain ⟨hpoints, hencode, -⟩ := points_ascii hascii
  refine ⟨String.ofList (text.map Char.ofNat), ?_, ?_⟩
  · rw [utf8?_eq_some, hencode]
    exact utf8Pass_ascii h hascii
  · rw [utf16_points (Or.inr (hpoints.symm ▸ hascii)), hpoints]

/-- **Such a text is decoded alike**, unless it is taken for UTF-16 or UTF-32. -/
theorem decodeText_of_decode (h : decode data (detectEncoding data) = some text)
    (hnarrow : (detectEncoding data).wide = false) (hascii : JsonText.Ascii text) :
    ∃ s, decodeText data = some s ∧ utf16 s = text := by
  rw [narrow_eq hnarrow] at h
  unfold decodeText
  by_cases hmark : data.take 3 = byteOrderMark
  · rw [if_pos hmark] at h ⊢
    rw [decode, if_pos hmark] at h
    exact utf8?_ascii h hascii
  · rw [if_neg hmark] at h ⊢
    exact utf8?_ascii h hascii

/-- **What the seedbox accepts**: at most 4096 bytes, which decode to a description of the value. -/
theorem seedbox_iff : DescriptorText.parseDescriptor data = .ok v ↔
    data.length ≤ 4096 ∧ ∃ text, decode data (detectEncoding data) = some text ∧ Describes v text := by
  unfold DescriptorText.parseDescriptor
  split
  next hlong => exact iff_of_false (fun h => by cases h) fun h => absurd h.1 (by omega)
  next hshort =>
    split
    next hnone =>
      refine iff_of_false (fun h => by cases h) ?_
      rintro ⟨-, text, htext, -⟩
      rw [hnone] at htext
      cases htext
    next text htext =>
      rw [textDescriptor_iff]
      constructor
      · exact fun h => ⟨by omega, text, htext, h⟩
      · rintro ⟨-, text', htext', h⟩
        obtain rfl := Option.some.inj (htext.symm.trans htext')
        exact h

/-- **What the browser accepts**: the same, of the text that `TextDecoder` gives. -/
theorem browser_iff : parseDescriptor data = .ok v ↔
    data.length ≤ 4096 ∧ ∃ s, decodeText data = some s ∧ Describes v (utf16 s) := by
  unfold parseDescriptor
  split
  next hlong => exact iff_of_false (fun h => by cases h) fun h => absurd h.1 (by omega)
  next hshort =>
    split
    next hnone =>
      refine iff_of_false (fun h => by cases h) ?_
      rintro ⟨-, s, hs, -⟩
      rw [hnone] at hs
      cases hs
    next s hs =>
      rw [parseText_iff]
      constructor
      · exact fun h => ⟨by omega, s, hs, h⟩
      · rintro ⟨-, s', hs', h⟩
        obtain rfl := Option.some.inj (hs.symm.trans hs')
        exact h

/-- **What the browser takes**, of all that the seedbox takes. -/
theorem browser_of_seedbox : parseDescriptor data = .ok v ↔
    DescriptorText.parseDescriptor data = .ok v ∧ (detectEncoding data).wide = false := by
  rw [browser_iff, seedbox_iff]
  constructor
  · rintro ⟨hshort, s, hs, h⟩
    have hpoints := utf16_points (Or.inl (describes_ascii h))
    rw [hpoints] at h
    have hzero : 0 ∉ points s := fun hmem => absurd (describes_ascii h 0 hmem).1 (lt_irrefl 0)
    have hnarrow := narrow_of_decodeText hs hzero
    exact ⟨⟨hshort, points s, decode_of_decodeText hs hnarrow, h⟩, hnarrow⟩
  · rintro ⟨⟨hshort, text, htext, h⟩, hnarrow⟩
    obtain ⟨s, hs, hunits⟩ := decodeText_of_decode htext hnarrow (describes_ascii h)
    exact ⟨hshort, s, hs, hunits.symm ▸ h⟩

/-! ## §8. What is written. -/

/-- A hash is written in plain letters. -/
theorem hash_letters (h : HashText) : Letters h.text := by
  have hall := (Bool.and_eq_true_iff.mp h.property).2
  intro c hc
  have hdigit := List.all_eq_true.mp hall c hc
  simp only [isHashDigit, Bool.or_eq_true, Bool.and_eq_true, decide_eq_true_eq] at hdigit
  omega

/-- The tree of a hash stands for it. -/
theorem hashTree_hash (h : HashText) : HashOf (hashTree h) h := ⟨h.text, rfl, (hash_letters h).utf16Value⟩

/-- The tree of an optional component stands for it. -/
theorem optionalTree_component (o : Option HashText) : ComponentOf (optionalTree o) o := by
  cases o with
  | none => rfl
  | some h => exact hashTree_hash h

/-- A hash takes 42 characters of one byte each. -/
theorem hashTree_written (h : HashText) : (hashTree h).Spelled ∧ (hashTree h).OneByte ∧
    (print (hashTree h)).length = 42 := by
  have hlength : h.text.length = 40 := of_decide_eq_true (Bool.and_eq_true_iff.mp h.property).1
  refine ⟨(hash_letters h).chars, fun c hc => ⟨?_, hash_basic h c hc⟩, ?_⟩
  · have hlow := (hash_letters h c hc).1
    omega
  · show (34 :: (h.text ++ [34])).length = 42
    rw [List.length_cons, List.length_append, hlength]
    rfl

/-- An optional one takes at most as many. -/
theorem optionalTree_written (o : Option HashText) : (optionalTree o).Spelled ∧ (optionalTree o).OneByte ∧
    (print (optionalTree o)).length ≤ 42 := by
  cases o with
  | none => exact ⟨trivial, trivial, by decide⟩
  | some h =>
    obtain ⟨hspelled, hone, hlength⟩ := hashTree_written h
    exact ⟨hspelled, hone, hlength.le⟩

/-- The dictionary says what the descriptor is. -/
theorem fields_tree (v : Value) : Fields [(units "disk", hashTree v.disk), (units "profile", optionalTree v.profile),
    (units "state", optionalTree v.state), (units "version", .num [49])] v := by
  have hone : isOne (.num [49]) = true := rfl
  have hnames : ∀ {name : Units} {P : Tree → Prop}, (utf16Value (units "disk") = name → P (hashTree v.disk)) →
      (utf16Value (units "profile") = name → P (optionalTree v.profile)) →
      (utf16Value (units "state") = name → P (optionalTree v.state)) →
      (utf16Value (units "version") = name → P (.num [49])) →
      Field [(units "disk", hashTree v.disk), (units "profile", optionalTree v.profile),
        (units "state", optionalTree v.state), (units "version", .num [49])] name P := by
    intro name P hdisk hprofile hstate hversion f hf
    simp only [List.mem_cons, List.not_mem_nil, or_false] at hf
    rcases hf with rfl | rfl | rfl | rfl
    · exact hdisk
    · exact hprofile
    · exact hstate
    · exact hversion
  refine ⟨?_, hnames ?_ ?_ ?_ fun _ => hone, hnames (fun _ => hashTree_hash v.disk) ?_ ?_ ?_,
    hnames ?_ ?_ (fun _ => optionalTree_component v.state) ?_,
    hnames ?_ (fun _ => optionalTree_component v.profile) ?_ ?_⟩
  · show [utf16Value (units "disk"), utf16Value (units "profile"), utf16Value (units "state"),
      utf16Value (units "version")].Perm names
    decide
  all_goals exact fun h => absurd h (by decide)

/-- **What `descriptor_bytes` writes is read**, by both. -/
theorem descriptorBytes_read (v : Value) : parseDescriptor (descriptorBytes v) = .ok v := by
  obtain ⟨hspelled₁, hone₁, hlength₁⟩ := hashTree_written v.disk
  obtain ⟨hspelled₂, hone₂, hlength₂⟩ := optionalTree_written v.profile
  obtain ⟨hspelled₃, hone₃, hlength₃⟩ := optionalTree_written v.state
  have hnames : ∀ n ∈ [units "disk", units "profile", units "state", units "version"], Letters n ∧
      JsonText.Ascii n ∧ n.length ≤ 7 := by
    unfold Letters JsonText.Ascii
    decide
  have hletters : ∀ n ∈ [units "disk", units "profile", units "state", units "version"], Chars n := fun n hn =>
    (hnames n hn).1.chars
  have hnumber : IsNumber [49] := numeral_isNumber 1
  have hspelled : v.tree.Spelled :=
    ⟨hletters _ (by simp), hspelled₁, hletters _ (by simp), hspelled₂, hletters _ (by simp), hspelled₃,
      hletters _ (by simp), hnumber, trivial⟩
  have hascii : v.tree.OneByte :=
    ⟨(hnames _ (by simp)).2.1, hone₁, (hnames _ (by simp)).2.1, hone₂, (hnames _ (by simp)).2.1, hone₃,
      (hnames _ (by simp)).2.1, numeral_ascii 1, trivial⟩
  have hlength : (descriptorBytes v).length ≤ 4096 := by
    have hprint := length_print_obj [(units "disk", hashTree v.disk), (units "profile", optionalTree v.profile),
      (units "state", optionalTree v.state), (units "version", .num [49])]
    have hone : (print (.num [49])).length = 1 := rfl
    have h₁ : (units "disk").length = 4 := rfl
    have h₂ : (units "profile").length = 7 := rfl
    have h₃ : (units "state").length = 5 := rfl
    have h₄ : (units "version").length = 7 := rfl
    simp only [List.map_cons, List.map_nil, List.sum_cons, List.sum_nil, h₁, h₂, h₃, h₄, hone] at hprint
    unfold descriptorBytes Value.tree
    rw [List.length_map]
    omega
  obtain ⟨hparse, -⟩ := parseBytes_print hspelled hascii
  obtain ⟨s, hs, hwords⟩ := Option.bind_eq_some_iff.mp hparse
  have hdescribes : Describes v (points s) := ⟨_, parse_sound hwords, fields_tree v⟩
  have hunits := utf16_points (Or.inr (describes_ascii hdescribes))
  exact browser_iff.mpr ⟨hlength, s, hs, hunits.symm ▸ hdescribes⟩

/-! ## §9. The two functions. -/

/-- A descriptor that is not in UTF-8. -/
def Wide (data : Bytes) : Prop :=
  (detectEncoding data).wide = true ∧ data.length ≤ 4096 ∧
    ∃ text v, decode data (detectEncoding data) = some text ∧ Describes v text

/-- **The same descriptors.**  The two functions agree on all bytes but those of a descriptor in UTF-16 or
    UTF-32.  Whatever one of them accepts has each field once, no others, and a version that is spelled
    `1`; and both read what `descriptor_bytes` writes. -/
theorem same_descriptors (data : Bytes) :
    ((∀ v, parseDescriptor data = .ok v ↔ DescriptorText.parseDescriptor data = .ok v) ↔ ¬Wide data) ∧
    (∀ v, parseDescriptor data = .ok v ∨ DescriptorText.parseDescriptor data = .ok v →
      ∃ text fields, decode data (detectEncoding data) = some text ∧ Document words (.obj fields) text ∧
        (fields.map fun f => utf16Value f.1).Perm names ∧ Field fields version fun t => isOne t = true) ∧
    ∀ v, parseDescriptor (descriptorBytes v) = .ok v ∧
      DescriptorText.parseDescriptor (descriptorBytes v) = .ok v := by
  refine ⟨⟨fun hsame hwide => ?_, fun hnarrow v => ?_⟩, fun v h => ?_, fun v => ?_⟩
  · obtain ⟨hwide, hshort, text, v, htext, h⟩ := hwide
    have hbrowser := (hsame v).mpr (seedbox_iff.mpr ⟨hshort, text, htext, h⟩)
    rw [(browser_of_seedbox.mp hbrowser).2] at hwide
    cases hwide
  · refine ⟨fun h => (browser_of_seedbox.mp h).1, fun h => browser_of_seedbox.mpr ⟨h, ?_⟩⟩
    by_contra hwide
    obtain ⟨hshort, text, htext, hdescribes⟩ := seedbox_iff.mp h
    exact hnarrow ⟨Bool.eq_true_of_not_eq_false hwide, hshort, text, v, htext, hdescribes⟩
  · have hseedbox : DescriptorText.parseDescriptor data = .ok v :=
      h.elim (fun hb => (browser_of_seedbox.mp hb).1) id
    obtain ⟨-, text, htext, fields, hdocument, hfields⟩ := seedbox_iff.mp hseedbox
    exact ⟨text, fields, htext, hdocument, hfields.names, hfields.hasVersion⟩
  · have hbrowser := descriptorBytes_read v
    exact ⟨hbrowser, (browser_of_seedbox.mp hbrowser).1⟩

def demoHash : HashText := ⟨List.replicate 40 97, by decide⟩

def demoDescriptor : Value := { disk := demoHash, state := none, profile := none }

/-- Every byte of it with a zero behind. -/
def demoWide : Bytes := (descriptorBytes demoDescriptor).flatMap fun b => [b, 0]

/-- A descriptor in UTF-16: the seedbox accepts it, the browser does not. -/
theorem demo_wide : DescriptorText.parseDescriptor demoWide = .ok demoDescriptor ∧
    ∀ v, parseDescriptor demoWide ≠ .ok v := by
  refine ⟨by decide +kernel, fun v h => ?_⟩
  have hwide : (detectEncoding demoWide).wide = true := by decide +kernel
  rw [(browser_of_seedbox.mp h).2] at hwide
  cases hwide

end Bytes

end My98.Web.Descriptor
