import Catalyst.Library.JsonText

/-!
# The hash of an operation's input

A run keeps the SHA-256 of its input's canonical text in place of the input. The input is first
made a JSON value, then written with the keys of each object in order.
-/

namespace Catalyst

open Library

-- -----------------
-- Values of JavaScript as JSON
-- -----------------

inductive JsNumber where
  | finite (n : JsonNumber)
  | nan
  | infinity (negative : Bool)

def JsNumber.text : JsNumber → Units
  | .finite n => n.text
  | .nan => ascii "NaN"
  | .infinity negative => ascii (if negative then "-Infinity" else "Infinity")

/-- A value of JavaScript. An object is known by what `Object.entries` lists, a function, symbol
or bigint by its `String`. -/
inductive Unknown where
  | null
  | undefined
  | boolean (b : Bool)
  | number (n : JsNumber)
  | string (s : Units)
  | bigint (text : Units)
  | symbol (text : Units)
  | function (text : Units)
  | array (items : List Unknown)
  | object (entries : List (Units × Unknown))

def protoKey : Units := ascii "__proto__"

/-- `result[key] = value` ahead of the later fields: `__proto__` names the prototype, not a field. -/
def assign (key : Units) (value : JsonValue) (fields : List (Units × JsonValue)) : List (Units × JsonValue) :=
  if key = protoKey then fields else (key, value) :: fields

mutual
def unknownToJsonValue : Unknown → JsonValue
  | .null => .null
  | .boolean b => .boolean b
  | .string s => .string s
  | .number (.finite n) => .number n
  | .number n => .string n.text
  | .array items => .array (unknownItems items)
  | .object entries => .object (unknownEntries entries)
  | .undefined => .null
  | .bigint text | .symbol text | .function text => .string text

def unknownItems : List Unknown → List JsonValue
  | [] => []
  | value :: items => unknownToJsonValue value :: unknownItems items

def unknownEntries : List (Units × Unknown) → List (Units × JsonValue)
  | [] => []
  | (_, .undefined) :: entries | (_, .symbol _) :: entries | (_, .function _) :: entries => unknownEntries entries
  | (key, nested) :: entries => assign key (unknownToJsonValue nested) (unknownEntries entries)
end

mutual
/-- A JSON value as JavaScript holds it. -/
def asUnknown : JsonValue → Unknown
  | .null => .null
  | .boolean b => .boolean b
  | .number n => .number (.finite n)
  | .string s => .string s
  | .array items => .array (itemsAsUnknown items)
  | .object fields => .object (fieldsAsUnknown fields)

def itemsAsUnknown : List JsonValue → List Unknown
  | [] => []
  | value :: items => asUnknown value :: itemsAsUnknown items

def fieldsAsUnknown : List (Units × JsonValue) → List (Units × Unknown)
  | [] => []
  | (key, value) :: fields => (key, asUnknown value) :: fieldsAsUnknown fields
end

namespace Operations

/-- `Object.keys(value).sort()`: by code units. -/
def sortKeys (keys : List Units) : List Units := keys.mergeSort fun a b => decide (a ≤ b)

def fieldText (key : Units) (text : Units) : Units := quote key ++ ascii ":" ++ text

mutual
def canonicalJson : JsonValue → Units
  | .array items => [0x5b] ++ separated 0x2c (canonicalItems items) ++ [0x5d]
  | .object fields =>
    let texts := canonicalFields fields
    [0x7b] ++ separated 0x2c ((sortKeys (fields.map Prod.fst)).map fun key =>
      fieldText key ((texts.lookup key).getD (ascii "null"))) ++ [0x7d]
  | .null => ascii "null"
  | .boolean b => ascii (if b then "true" else "false")
  | .number n => n.text
  | .string s => quote s

def canonicalItems : List JsonValue → List Units
  | [] => []
  | value :: items => canonicalJson value :: canonicalItems items

def canonicalFields : List (Units × JsonValue) → List (Units × Units)
  | [] => []
  | (key, value) :: fields => (key, canonicalJson value) :: canonicalFields fields
end

/-- The text that `hashInput` takes the SHA-256 of. -/
def hashedText (input : Unknown) : Units := canonicalJson (unknownToJsonValue input)

theorem canonicalItems_eq (items : List JsonValue) : canonicalItems items = items.map canonicalJson := by
  induction items with
  | nil => rfl
  | cons value items ih => rw [canonicalItems, ih, List.map_cons]

theorem canonicalFields_eq (fields : List (Units × JsonValue)) :
    canonicalFields fields = fields.map fun f => (f.1, canonicalJson f.2) := by
  induction fields with
  | nil => rfl
  | cons f fields ih => rw [canonicalFields, ih, List.map_cons]

theorem sortKeys_perm (keys : List Units) : (sortKeys keys).Perm keys := List.mergeSort_perm _ _

theorem sortKeys_eq (h : keys.Perm others) : sortKeys keys = sortKeys others := by
  have htrans (a b c : Units) (hab : decide (a ≤ b)) (hbc : decide (b ≤ c)) : decide (a ≤ c) := by
    simp only [decide_eq_true_eq] at hab hbc ⊢
    exact le_trans hab hbc
  have htotal (a b : Units) : decide (a ≤ b) || decide (b ≤ a) := by
    simpa using le_total a b
  have hsorted (ks : List Units) : (sortKeys ks).Pairwise (· ≤ ·) := by
    have hpairwise := List.pairwise_mergeSort htrans htotal ks
    simp only [decide_eq_true_eq] at hpairwise
    exact hpairwise
  have hperm : (sortKeys keys).Perm (sortKeys others) := (sortKeys_perm keys).trans (h.trans (sortKeys_perm others).symm)
  exact hperm.eq_of_pairwise (fun a b _ _ => le_antisymm) (hsorted _) (hsorted _)

theorem lookup_canonicalFields (hd : (fields.map Prod.fst).Nodup) (h : f ∈ fields) :
    (canonicalFields fields).lookup f.1 = some (canonicalJson f.2) := by
  have hkeys : (canonicalFields fields).map Prod.fst = fields.map Prod.fst := by
    simp [canonicalFields_eq]
  have hmem : (f.1, canonicalJson f.2) ∈ canonicalFields fields := by
    rw [canonicalFields_eq]
    exact List.mem_map_of_mem h
  exact lookup_of_mem (hkeys.symm ▸ hd) hmem

def pairText (f : Units × JsonValue) : Units := fieldText f.1 (canonicalJson f.2)

theorem canonicalJson_object {fields sorted : List (Units × JsonValue)} (hd : (fields.map Prod.fst).Nodup)
    (hp : sorted.Perm fields) (hs : sorted.map Prod.fst = sortKeys (fields.map Prod.fst)) :
    canonicalJson (.object fields) = [0x7b] ++ separated 0x2c (sorted.map pairText) ++ [0x7d] := by
  rw [canonicalJson, ← hs, List.map_map]
  congr 3
  refine List.map_congr_left fun f hf => ?_
  simp [pairText, lookup_canonicalFields hd (hp.mem_iff.mp hf)]

theorem kindAt_canonicalJson (v : JsonValue) : ∃ u text, canonicalJson v = u :: text ∧ kindAt u = some v.kind := by
  cases v with
  | null => exact ⟨_, _, rfl, rfl⟩
  | boolean b => cases b <;> exact ⟨_, _, rfl, rfl⟩
  | number n =>
    obtain ⟨u, text, htext⟩ := List.exists_cons_of_ne_nil n.ne_nil
    exact ⟨u, text, by rw [canonicalJson, htext], kindAt_numeral (n.numeral u (htext ▸ List.mem_cons_self))⟩
  | string s => exact ⟨_, _, rfl, rfl⟩
  | array items => exact ⟨_, _, rfl, rfl⟩
  | object fields => exact ⟨_, _, rfl, rfl⟩

theorem kind_eq (h : canonicalJson a ++ r = canonicalJson b ++ s) : a.kind = b.kind := by
  obtain ⟨u, text, htext, hu⟩ := kindAt_canonicalJson a
  obtain ⟨v, text', htext', hv⟩ := kindAt_canonicalJson b
  rw [htext, htext'] at h
  obtain rfl : u = v := (List.cons.inj h).1
  exact Option.some.inj (hu.symm.trans hv)

theorem canonicalJson_ne (hclose : kindAt close = none) (v : JsonValue) (r s : Units) :
    canonicalJson v ++ r ≠ close :: s := by
  obtain ⟨u, text, htext, hu⟩ := kindAt_canonicalJson v
  rw [htext]
  rintro h
  obtain rfl : u = close := (List.cons.inj h).1
  exact absurd (hu.symm.trans hclose) (by simp)

def SameField (f g : Units × JsonValue) : Prop := f.1 = g.1 ∧ f.2.Same g.2

theorem forall₂_sameField (h : List.Forall₂ SameField fs gs) :
    fs.map Prod.fst = gs.map Prod.fst ∧ List.Forall₂ JsonValue.Same (fs.map Prod.snd) (gs.map Prod.snd) := by
  induction h with
  | nil => exact ⟨rfl, .nil⟩
  | cons hf _ ih => exact ⟨by rw [List.map_cons, List.map_cons, hf.1, ih.1], .cons hf.2 ih.2⟩

theorem pairText_splits (h : Splits canonicalJson JsonValue.Distinct JsonValue.Same Ends f.2) :
    Splits pairText (fun g => g.2.Distinct) SameField Ends f := by
  rintro g hg r s hr hs heq
  simp only [pairText, fieldText, List.append_assoc] at heq
  obtain ⟨hkey, heq⟩ := quote_inj heq
  obtain ⟨hvalue, hrest⟩ := h g.2 hg r s hr hs (List.append_cancel_left heq)
  exact ⟨⟨hkey, hvalue⟩, hrest⟩

/-- A value's text is read as that value, up to the order of keys, and what follows it is told apart. -/
theorem canonicalJson_splits (a : JsonValue) (ha : a.Distinct) :
    Splits canonicalJson JsonValue.Distinct JsonValue.Same Ends a := by
  induction a with
  | null =>
    rintro b - r s - - h
    cases b with
    | null => exact ⟨.null, List.append_cancel_left h⟩
    | _ => cases kind_eq h
  | boolean c =>
    rintro b - r s - - h
    cases b with
    | boolean d =>
      cases c <;> cases d
      · exact ⟨.boolean _, List.append_cancel_left h⟩
      · exact absurd h (by simp [canonicalJson, ascii])
      · exact absurd h (by simp [canonicalJson, ascii])
      · exact ⟨.boolean _, List.append_cancel_left h⟩
    | _ => cases kind_eq h
  | number n =>
    rintro b - r s hr hs h
    cases b with
    | number m =>
      obtain ⟨rfl, hrest⟩ := JsonNumber.text_inj hr hs h
      exact ⟨.number n, hrest⟩
    | _ => cases kind_eq h
  | string us =>
    rintro b - r s - - h
    cases b with
    | string vs =>
      obtain ⟨rfl, hrest⟩ := quote_inj h
      exact ⟨.string us, hrest⟩
    | _ => cases kind_eq h
  | array items ih =>
    rintro b hb r s - - h
    cases b with
    | array others =>
      simp only [canonicalJson, canonicalItems_eq, List.append_assoc] at h
      obtain ⟨hsame, hrest⟩ := Splits.separated (fun v hv => ih v hv (ha.items v hv)) hb.items (by decide)
        (canonicalJson_ne rfl) (fun _ => .inl rfl) (fun _ => .inr (.inl rfl)) (List.append_cancel_left h)
      exact ⟨.array hsame, hrest⟩
    | _ => cases kind_eq h
  | object fields ih =>
    rintro b hb r s - - h
    cases b with
    | object others =>
      obtain ⟨fs, hfs, hsorted⟩ := exists_perm_keys (sortKeys_perm (fields.map Prod.fst))
      obtain ⟨gs, hgs, hsorted'⟩ := exists_perm_keys (sortKeys_perm (others.map Prod.fst))
      rw [canonicalJson_object ha.keys hfs hsorted, canonicalJson_object hb.keys hgs hsorted'] at h
      simp only [List.append_assoc] at h
      have hsplits : ∀ f ∈ fs, Splits pairText (fun g => g.2.Distinct) SameField Ends f := by
        rintro f hf
        have hf : f ∈ fields := hfs.mem_iff.mp hf
        exact pairText_splits (ih f hf (ha.fields f hf))
      have hdistinct : ∀ g ∈ gs, g.2.Distinct := by
        rintro g hg
        exact hb.fields g (hgs.mem_iff.mp hg)
      obtain ⟨hsame, hrest⟩ := Splits.separated hsplits hdistinct (by decide)
        (fun f r s heq => by cases heq) (fun _ => .inl rfl) (fun _ => .inr (.inr rfl)) (List.append_cancel_left h)
      obtain ⟨hfst, hsnd⟩ := forall₂_sameField hsame
      exact ⟨.object hfs.symm hfst hsnd hgs, hrest⟩
    | _ => cases kind_eq h

theorem same_of_canonicalJson (ha : a.Distinct) (hb : b.Distinct) (h : canonicalJson a = canonicalJson b) : a.Same b :=
  (canonicalJson_splits a ha b hb [] [] trivial trivial (by simpa using h)).1

theorem forall₂_lookup {fs gs : List (Units × JsonValue)} (hkeys : fs.map Prod.fst = gs.map Prod.fst)
    (h : List.Forall₂ JsonValue.Same (fs.map Prod.snd) (gs.map Prod.snd)) (hf : f ∈ fs) :
    ∃ g ∈ gs, f.1 = g.1 ∧ f.2.Same g.2 := by
  induction fs generalizing gs with
  | nil => exact absurd hf List.not_mem_nil
  | cons f' fs ih =>
    cases gs with
    | nil => cases hkeys
    | cons g gs =>
      obtain ⟨hkey, hkeys⟩ := List.cons.inj hkeys
      obtain ⟨hsame, hrest⟩ := List.forall₂_cons.mp h
      obtain rfl | hf := List.mem_cons.mp hf
      · exact ⟨g, List.mem_cons_self, hkey, hsame⟩
      · obtain ⟨g', hg', hfound⟩ := ih hkeys hrest hf
        exact ⟨g', List.mem_cons_of_mem _ hg', hfound⟩

theorem forall₂_of_mem {R S : α → β → Prop} (h : List.Forall₂ R as bs)
    (himp : ∀ a ∈ as, ∀ b ∈ bs, R a b → S a b) : List.Forall₂ S as bs := by
  induction h with
  | nil => exact .nil
  | cons hab _ ih =>
    refine .cons (himp _ List.mem_cons_self _ List.mem_cons_self hab) (ih ?_)
    exact fun a ha b hb => himp a (List.mem_cons_of_mem _ ha) b (List.mem_cons_of_mem _ hb)

theorem canonicalJson_of_same (ha : a.Distinct) (hb : b.Distinct) (h : a.Same b) : canonicalJson a = canonicalJson b := by
  induction a generalizing b with
  | null => cases h; rfl
  | boolean c => cases h; rfl
  | number n => cases h; rfl
  | string us => cases h; rfl
  | array items ih =>
    cases h with
    | array h =>
      rename_i others
      have htexts : items.map canonicalJson = others.map canonicalJson := by
        rw [← List.forall₂_eq_eq_eq, List.forall₂_map_left_iff, List.forall₂_map_right_iff]
        exact forall₂_of_mem h fun v hv w hw => ih v hv (ha.items v hv) (hb.items w hw)
      rw [canonicalJson, canonicalJson, canonicalItems_eq, canonicalItems_eq, htexts]
  | object fields ih =>
    cases h with
    | object hfs hkeys hsame hgs =>
      rename_i others fs gs
      have hperm : (fields.map Prod.fst).Perm (others.map Prod.fst) :=
        (hfs.map Prod.fst).trans (hkeys ▸ hgs.map Prod.fst)
      rw [canonicalJson, canonicalJson, sortKeys_eq hperm]
      congr 3
      refine List.map_congr_left fun key hkey => ?_
      have hkey : key ∈ fields.map Prod.fst := hperm.mem_iff.mpr ((sortKeys_perm _).mem_iff.mp hkey)
      obtain ⟨f, hf, rfl⟩ := List.mem_map.mp hkey
      obtain ⟨g, hg, hfg, hvalues⟩ := forall₂_lookup hkeys hsame (hfs.mem_iff.mp hf)
      have hg : g ∈ others := hgs.mem_iff.mp hg
      rw [lookup_canonicalFields ha.keys hf, hfg, lookup_canonicalFields hb.keys hg,
        ih f hf (ha.fields f hf) (hb.fields g hg) hvalues]

theorem canonicalJson_eq_iff (ha : a.Distinct) (hb : b.Distinct) : canonicalJson a = canonicalJson b ↔ a.Same b :=
  ⟨same_of_canonicalJson ha hb, canonicalJson_of_same ha hb⟩

mutual
/-- A value without the fields named `__proto__`, at every depth. -/
def withoutProto : JsonValue → JsonValue
  | .array items => .array (itemsWithoutProto items)
  | .object fields => .object (fieldsWithoutProto fields)
  | value => value

def itemsWithoutProto : List JsonValue → List JsonValue
  | [] => []
  | value :: items => withoutProto value :: itemsWithoutProto items

def fieldsWithoutProto : List (Units × JsonValue) → List (Units × JsonValue)
  | [] => []
  | (key, value) :: fields =>
    if key = protoKey then fieldsWithoutProto fields else (key, withoutProto value) :: fieldsWithoutProto fields
end

def inner (f : Units × JsonValue) : Units × JsonValue := (f.1, withoutProto f.2)

theorem itemsWithoutProto_eq (items : List JsonValue) : itemsWithoutProto items = items.map withoutProto := by
  induction items with
  | nil => rfl
  | cons value items ih => rw [itemsWithoutProto, ih, List.map_cons]

theorem fieldsWithoutProto_eq (fields : List (Units × JsonValue)) :
    fieldsWithoutProto fields = (fields.filter (·.1 ≠ protoKey)).map inner := by
  induction fields with
  | nil => rfl
  | cons f fields ih =>
    rw [fieldsWithoutProto, ih]
    by_cases h : f.1 = protoKey
    · simp [h]
    · simp [h, inner]

theorem unknownEntries_cons (key : Units) (value : JsonValue) (entries : List (Units × Unknown)) :
    unknownEntries ((key, asUnknown value) :: entries) =
      assign key (unknownToJsonValue (asUnknown value)) (unknownEntries entries) := by
  cases value <;> simp only [asUnknown, unknownEntries]

/-- The conversion of a JSON value loses the fields named `__proto__` and nothing else. -/
theorem unknownToJsonValue_asUnknown (v : JsonValue) : unknownToJsonValue (asUnknown v) = withoutProto v := by
  induction v with
  | null => rfl
  | boolean b => rfl
  | number n => rfl
  | string s => rfl
  | array items ih =>
    have hitems : unknownItems (itemsAsUnknown items) = itemsWithoutProto items := by
      induction items with
      | nil => rfl
      | cons v items ihs =>
        obtain ⟨hv, hs⟩ := List.forall_mem_cons.mp ih
        rw [itemsAsUnknown, unknownItems, itemsWithoutProto, hv, ihs hs]
    rw [asUnknown, unknownToJsonValue, withoutProto, hitems]
  | object fields ih =>
    have hfields : unknownEntries (fieldsAsUnknown fields) = fieldsWithoutProto fields := by
      induction fields with
      | nil => rfl
      | cons f fields ihs =>
        obtain ⟨hf, hs⟩ := List.forall_mem_cons.mp ih
        rw [fieldsAsUnknown, unknownEntries_cons, fieldsWithoutProto, hf, ihs hs, assign]
    rw [asUnknown, unknownToJsonValue, withoutProto, hfields]

theorem mem_fieldsWithoutProto (h : g ∈ fieldsWithoutProto fields) : ∃ f ∈ fields, inner f = g := by
  rw [fieldsWithoutProto_eq] at h
  obtain ⟨f, hf, hfg⟩ := List.mem_map.mp h
  exact ⟨f, (List.mem_filter.mp hf).1, hfg⟩

theorem withoutProto_distinct (h : v.Distinct) : (withoutProto v).Distinct := by
  induction v with
  | null => exact h
  | boolean b => exact h
  | number n => exact h
  | string s => exact h
  | array items ih =>
    rw [withoutProto, itemsWithoutProto_eq]
    refine .array fun w hw => ?_
    obtain ⟨v, hv, rfl⟩ := List.mem_map.mp hw
    exact ih v hv (h.items v hv)
  | object fields ih =>
    rw [withoutProto]
    refine .object ?_ fun g hg => ?_
    · rw [fieldsWithoutProto_eq, List.map_map]
      exact h.keys.sublist (List.filter_sublist.map Prod.fst)
    · obtain ⟨f, hf, rfl⟩ := mem_fieldsWithoutProto hg
      exact ih f hf (h.fields f hf)

theorem same_fieldsWithoutProto (ih : ∀ f ∈ fs, ∀ w, f.2.Same w → (withoutProto f.2).Same (withoutProto w))
    (hkeys : fs.map Prod.fst = gs.map Prod.fst)
    (h : List.Forall₂ JsonValue.Same (fs.map Prod.snd) (gs.map Prod.snd)) :
    List.Forall₂ SameField (fieldsWithoutProto fs) (fieldsWithoutProto gs) := by
  induction fs generalizing gs with
  | nil =>
    obtain rfl : gs = [] := by simpa using hkeys.symm
    exact .nil
  | cons f fs ihs =>
    cases gs with
    | nil => cases hkeys
    | cons g gs =>
      obtain ⟨hf, hfs⟩ := List.forall_mem_cons.mp ih
      obtain ⟨hkey, hkeys⟩ := List.cons.inj hkeys
      obtain ⟨hsame, hrest⟩ := List.forall₂_cons.mp h
      rw [fieldsWithoutProto, fieldsWithoutProto, ← hkey]
      split_ifs with hproto
      · exact ihs hfs hkeys hrest
      · exact .cons ⟨rfl, hf _ hsame⟩ (ihs hfs hkeys hrest)

theorem Same.withoutProto {a b : JsonValue} (h : a.Same b) : (withoutProto a).Same (withoutProto b) := by
  induction a generalizing b with
  | null => cases h; exact .null
  | boolean c => cases h; exact .boolean c
  | number n => cases h; exact .number n
  | string us => cases h; exact .string us
  | array items ih =>
    cases h with
    | array h =>
      rename_i others
      rw [Operations.withoutProto, Operations.withoutProto, itemsWithoutProto_eq, itemsWithoutProto_eq]
      refine .array ?_
      rw [List.forall₂_map_left_iff, List.forall₂_map_right_iff]
      exact forall₂_of_mem h fun v hv w _ => ih v hv
  | object fields ih =>
    cases h with
    | object hfs hkeys hsame hgs =>
      rename_i others fs gs
      have hinner := same_fieldsWithoutProto (fun f hf w => ih f (hfs.mem_iff.mpr hf)) hkeys hsame
      obtain ⟨hfst, hsnd⟩ := forall₂_sameField hinner
      have hperm {fs gs : List (Units × JsonValue)} (h : fs.Perm gs) :
          (fieldsWithoutProto fs).Perm (fieldsWithoutProto gs) := by
        rw [fieldsWithoutProto_eq, fieldsWithoutProto_eq]
        exact (h.filter _).map inner
      exact .object (hperm hfs) hfst hsnd (hperm hgs)

/-- The values differ, yet only in fields named `__proto__`. -/
def DifferOnlyInProto (a b : JsonValue) : Prop := ¬ a.Same b ∧ (withoutProto a).Same (withoutProto b)

theorem hashedText_eq_iff (ha : a.Distinct) (hb : b.Distinct) :
    hashedText (asUnknown a) = hashedText (asUnknown b) ↔ (withoutProto a).Same (withoutProto b) := by
  rw [hashedText, hashedText, unknownToJsonValue_asUnknown, unknownToJsonValue_asUnknown]
  exact canonicalJson_eq_iff (withoutProto_distinct ha) (withoutProto_distinct hb)

namespace Example

theorem one_ne_nil : ascii "1" ≠ [] := by decide

theorem one_numeral : ∀ u ∈ ascii "1", isNumeral u := by decide

def one : JsonNumber := ⟨ascii "1", one_ne_nil, one_numeral⟩

def pair : JsonValue := .object [(ascii "b", .array [.null]), (ascii "a", .number one)]

def reordered : JsonValue := .object [(ascii "a", .number one), (ascii "b", .array [.null])]

def plain : JsonValue := .object [(ascii "a", .number one)]

def withProto : JsonValue := .object [(protoKey, .number one), (ascii "a", .number one)]

theorem fields_distinct {fields : List (Units × JsonValue)} (hkeys : (fields.map Prod.fst).Nodup)
    (h : ∀ f ∈ fields, f.2 = .number one ∨ f.2 = .array [.null]) : JsonValue.Distinct (.object fields) := by
  refine .object hkeys fun f hf => ?_
  rcases h f hf with h | h <;> rw [h]
  · exact .number one
  · exact .array (by rintro v hv; obtain rfl := List.mem_singleton.mp hv; exact .null)

theorem plain_distinct : plain.Distinct := fields_distinct (by decide) (by simp)

theorem withProto_distinct : withProto.Distinct := fields_distinct (by decide) (by simp)

theorem not_same : ¬ withProto.Same plain := by
  rintro h
  cases h with
  | object ha hkeys _ hb =>
    have hlength := congrArg List.length hkeys
    simp only [List.length_map, ← ha.length_eq, hb.length_eq] at hlength
    cases hlength

end Example

end Operations

end Catalyst
