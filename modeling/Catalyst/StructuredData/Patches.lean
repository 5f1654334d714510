import Catalyst.StructuredData.Model

/-!
# What a patch changes

A patch changes the fields it names. Patches of one resource lose nothing to each other where each
of them is stored while what it does not name is still as it was read.
-/

namespace Catalyst.StructuredData

open Library Library.Check Library.Processes

variable {sections sections' : List StructuredDataSection} {fields : List StructuredDataField} {k k' f : String}
  {ids : AttachmentIds} {sets : List PatchSet} {x : PatchSet} {p : Patch} {current before after read : StructuredDataState}
  {change : List StructuredDataField → List StructuredDataField} {sources : Option (List StructuredDataFieldSource)}

def fieldIn (sections : List StructuredDataSection) (k f : String) : Option StructuredDataField :=
  (sections.find? (·.key = k)).bind fun s => s.fields.find? (·.key = f)

/-- What the last `set` of a field makes its value. -/
def valueSet (k f : String) : List PatchSet → Option FieldValue
  | [] => none
  | x :: sets => (valueSet k f sets).or (if x.sectionKey = k ∧ x.fieldKey = f then some x.value else none)

def Patch.names (p : Patch) (k f : String) : Bool :=
  p.set.any (fun x => x.sectionKey = k ∧ x.fieldKey = f) || p.remove.any (fun x => x.sectionKey = k ∧ x.fieldKey = f)

def Patch.rest (p : Patch) (s : StructuredDataSection) : StructuredDataSection :=
  { s with fields := s.fields.filter fun field => ¬ p.names s.key field.key }

def Patch.others (p : Patch) (state : StructuredDataState) : String × List StructuredDataSection :=
  (state.title, kept (state.sections.map p.rest))

theorem find?_setField_self : ∃ field,
    (setField x sources fields).find? (·.key = x.fieldKey) = some field ∧ field.value = x.value := by
  induction fields with
  | nil => exact ⟨x.added sources, by simp [setField, PatchSet.added], rfl⟩
  | cons field fields ih =>
    by_cases h : field.key = x.fieldKey
    · exact ⟨x.update sources field, by simp [setField, h, PatchSet.update], rfl⟩
    · simpa [setField, h] using ih

theorem find?_setField_ne (h : x.fieldKey ≠ f) :
    (setField x sources fields).find? (·.key = f) = fields.find? (·.key = f) := by
  induction fields with
  | nil => simp [setField, PatchSet.added, h]
  | cons field fields ih =>
    by_cases hfield : field.key = x.fieldKey
    · simp [setField, hfield, PatchSet.update, h]
    · simp only [setField, if_neg hfield, List.find?_cons, ih]

theorem keys_setField : (setField x sources fields).map (·.key) =
    if x.fieldKey ∈ fields.map (·.key) then fields.map (·.key) else fields.map (·.key) ++ [x.fieldKey] := by
  induction fields with
  | nil => simp [setField, PatchSet.added]
  | cons field fields ih =>
    by_cases hfield : field.key = x.fieldKey
    · simp [setField, hfield, PatchSet.update]
    · simp only [setField, if_neg hfield, List.map_cons, ih, List.mem_cons, Ne.symm hfield, false_or]
      split <;> rfl

theorem setField_nodup (h : (fields.map (·.key)).Nodup) : ((setField x sources fields).map (·.key)).Nodup := by
  rw [keys_setField]
  split
  · exact h
  · rename_i hnew
    refine List.nodup_append.mpr ⟨h, List.nodup_singleton _, fun a ha b hb => ?_⟩
    obtain rfl := List.mem_singleton.mp hb
    exact ne_of_mem_of_not_mem ha hnew

theorem filter_setField {q : StructuredDataField → Bool} (h : ∀ field, field.key = x.fieldKey → q field = false) :
    (setField x sources fields).filter q = fields.filter q := by
  induction fields with
  | nil => simp [setField, h _ (show (x.added sources).key = x.fieldKey from rfl)]
  | cons field fields ih =>
    by_cases hfield : field.key = x.fieldKey
    · have hupdate : q (x.update sources field) = false := h _ hfield
      simp [setField, hfield, hupdate, h field hfield]
    · simp [setField, hfield, List.filter_cons, ih]

theorem keys_changeFirst : (changeFirst k change sections).map (·.key) = sections.map (·.key) := by
  induction sections with
  | nil => rfl
  | cons s sections ih =>
    by_cases h : s.key = k
    · simp [changeFirst, h]
    · simp [changeFirst, h, ih]

theorem fieldIn_changeFirst_self : fieldIn (changeFirst k change sections) k f =
    (sections.find? (·.key = k)).bind fun s => (change s.fields).find? (·.key = f) := by
  induction sections with
  | nil => rfl
  | cons s sections ih =>
    by_cases h : s.key = k
    · simp [fieldIn, changeFirst, h]
    · simpa [fieldIn, changeFirst, h] using ih

theorem fieldIn_changeFirst_ne (hk : k ≠ k') : fieldIn (changeFirst k change sections) k' f = fieldIn sections k' f := by
  induction sections with
  | nil => rfl
  | cons s sections ih =>
    by_cases h : s.key = k
    · simp [fieldIn, changeFirst, h, hk]
    · by_cases h' : s.key = k'
      · simp [fieldIn, changeFirst, h', Ne.symm hk]
      · simpa [fieldIn, changeFirst, h, h'] using ih

theorem fieldIn_changeFirst_of_find? (h : ∀ fields, (change fields).find? (·.key = f) = fields.find? (·.key = f)) :
    fieldIn (changeFirst k change sections) k' f = fieldIn sections k' f := by
  by_cases hk : k = k'
  · subst hk
    rw [fieldIn_changeFirst_self]
    simp only [h, fieldIn]
  · exact fieldIn_changeFirst_ne hk

theorem changeFirst_unique (hc : ∀ fields, (fields.map (·.key)).Nodup → ((change fields).map (·.key)).Nodup)
    (h : KeysUnique sections) : KeysUnique (changeFirst k change sections) := by
  refine ⟨by rw [keys_changeFirst]; exact h.nodup, ?_⟩
  have hfields := h.fields_nodup
  clear h
  induction sections with
  | nil => simp [changeFirst]
  | cons s sections ih =>
    obtain ⟨hs, hsections⟩ := List.forall_mem_cons.mp hfields
    by_cases hkey : s.key = k
    · simp only [changeFirst, if_pos hkey]
      exact List.forall_mem_cons.mpr ⟨hc _ hs, hsections⟩
    · simp only [changeFirst, if_neg hkey]
      exact List.forall_mem_cons.mpr ⟨hs, ih hsections⟩

theorem rest_changeFirst (h : ∀ fields, (change fields).filter (fun field => ¬ p.names k field.key) =
    fields.filter fun field => ¬ p.names k field.key) :
    (changeFirst k change sections).map p.rest = sections.map p.rest := by
  induction sections with
  | nil => rfl
  | cons s sections ih =>
    by_cases hkey : s.key = k
    · subst hkey
      simp only [changeFirst, if_true, List.map_cons, Patch.rest, h]
    · simp only [changeFirst, if_neg hkey, List.map_cons, ih]

theorem setIn_ok (h : setIn ids x sections = .ok sections') : (∃ s, sections.find? (·.key = x.sectionKey) = some s) ∧
    ∃ sources, sections' = changeFirst x.sectionKey (setField x sources) sections := by
  simp only [setIn, bind_ok, need_ok, pure_ok] at h
  obtain ⟨s, hs, sources, _, rfl⟩ := h
  exact ⟨⟨s, hs⟩, sources, rfl⟩

theorem setAll_cons_ok (h : setAll ids (x :: sets) sections = .ok sections') :
    ∃ between, setIn ids x sections = .ok between ∧ setAll ids sets between = .ok sections' := by
  simpa only [setAll, bind_ok] using h

theorem setIn_field (h : setIn ids x sections = .ok sections') : if x.sectionKey = k ∧ x.fieldKey = f then
    ∃ field, fieldIn sections' k f = some field ∧ field.value = x.value else fieldIn sections' k f = fieldIn sections k f := by
  obtain ⟨⟨s, hs⟩, sources, rfl⟩ := setIn_ok h
  split
  · rename_i hnamed
    obtain ⟨rfl, rfl⟩ := hnamed
    rw [fieldIn_changeFirst_self, hs]
    exact find?_setField_self
  · rename_i hnamed
    by_cases hk : x.sectionKey = k
    · exact fieldIn_changeFirst_of_find? fun fields => find?_setField_ne fun hf => hnamed ⟨hk, hf⟩
    · exact fieldIn_changeFirst_ne hk

/-- A field has the value of the last `set` of it, or is left as it was. -/
theorem setAll_field (h : setAll ids sets sections = .ok sections') :
    (∀ v, valueSet k f sets = some v → ∃ field, fieldIn sections' k f = some field ∧ field.value = v) ∧
      (valueSet k f sets = none → fieldIn sections' k f = fieldIn sections k f) := by
  induction sets generalizing sections with
  | nil =>
    obtain rfl := Except.ok.inj h
    exact ⟨by rintro _ ⟨⟩, fun _ => rfl⟩
  | cons x sets ih =>
    obtain ⟨between, hx, hsets⟩ := setAll_cons_ok h
    obtain ⟨hset, hunset⟩ := ih hsets
    have hfield := setIn_field (k := k) (f := f) hx
    simp only [valueSet, Option.or_eq_some_iff, Option.or_eq_none_iff]
    split at hfield
    · rename_i hnamed
      refine ⟨?_, fun hnone => absurd hnone.2 (by simp [hnamed])⟩
      rintro v (hv | ⟨hnone, hv⟩)
      · exact hset v hv
      · obtain ⟨field, hfound, hvalue⟩ := hfield
        rw [if_pos hnamed, Option.some.injEq] at hv
        exact ⟨field, (hunset hnone).trans hfound, hvalue.trans hv⟩
    · rename_i hnamed
      simp only [if_neg hnamed, reduceCtorEq, and_false, or_false, and_true]
      exact ⟨hset, fun hnone => (hunset hnone).trans hfield⟩

theorem removeIn_field (r : PatchRemove) : fieldIn (removeIn sections r) k f =
    if r = ⟨k, f⟩ then none else fieldIn sections k f := by
  split
  · rename_i hr
    subst hr
    rw [removeIn, fieldIn_changeFirst_self]
    simp
  · rename_i hr
    by_cases hk : r.sectionKey = k
    · refine fieldIn_changeFirst_of_find? fun fields => ?_
      have hf : r.fieldKey ≠ f := fun hf => hr (by cases r; simp_all)
      simp only [List.find?_filter]
      congr 1
      funext field
      by_cases hfield : field.key = f <;> simp [hfield, Ne.symm hf]
    · exact fieldIn_changeFirst_ne hk

theorem removeAll_field (removes : List PatchRemove) : fieldIn (removes.foldl removeIn sections) k f =
    if ⟨k, f⟩ ∈ removes then none else fieldIn sections k f := by
  induction removes generalizing sections with
  | nil => simp
  | cons r removes ih =>
    rw [List.foldl_cons, ih, removeIn_field]
    by_cases hr : r = ⟨k, f⟩
    · simp [hr]
    · simp [hr, Ne.symm hr]

theorem fieldIn_kept (hu : (sections.map (·.key)).Nodup) : fieldIn (kept sections) k f = fieldIn sections k f := by
  induction sections with
  | nil => rfl
  | cons s sections ih =>
    obtain ⟨hs, hsections⟩ := List.nodup_cons.mp hu
    by_cases hkey : s.key = k
    · cases hfields : s.fields with
      | nil =>
        have hnone : sections.find? (·.key = k) = none := by
          rw [List.find?_eq_none]
          intro t ht htk
          exact hs (List.mem_map.mpr ⟨t, ht, (of_decide_eq_true htk).trans hkey.symm⟩)
        have hrest := ih hsections
        simp only [kept, fieldIn, List.filter_cons, hfields, hnone] at hrest ⊢
        simpa [hkey, hfields] using hrest
      | cons field fields => simp [kept, fieldIn, hfields, hkey]
    · have hrest := ih hsections
      simp only [kept, fieldIn, List.filter_cons] at hrest ⊢
      split <;> simpa [hkey] using hrest

theorem kept_map_rest : kept ((kept sections).map p.rest) = kept (sections.map p.rest) := by
  induction sections with
  | nil => rfl
  | cons s sections ih =>
    cases hfields : s.fields with
    | nil => simpa [kept, List.filter_cons, hfields, Patch.rest] using ih
    | cons field fields =>
      simp only [kept, List.filter_cons, hfields, List.length_cons, Nat.zero_lt_succ, decide_true, if_true,
        List.map_cons] at ih ⊢
      rw [ih]

theorem patched_ok (h : patched ids p read = .ok after) : ∃ sections, setAll ids p.set read.sections = .ok sections ∧
    after = ⟨read.title, kept (p.remove.foldl removeIn sections)⟩ := by
  simp only [patched, bind_ok, require_ok, pure_ok] at h
  obtain ⟨sections, hset, _, _, rfl⟩ := h
  exact ⟨sections, hset, rfl⟩

theorem setAll_unique (h : setAll ids sets sections = .ok sections') (hu : KeysUnique sections) : KeysUnique sections' := by
  induction sets generalizing sections with
  | nil => exact Except.ok.inj h ▸ hu
  | cons x sets ih =>
    obtain ⟨between, hx, hsets⟩ := setAll_cons_ok h
    obtain ⟨-, sources, rfl⟩ := setIn_ok hx
    exact ih hsets (changeFirst_unique (fun _ => setField_nodup) hu)

theorem removeAll_unique (removes : List PatchRemove) (hu : KeysUnique sections) :
    KeysUnique (removes.foldl removeIn sections) := by
  induction removes generalizing sections with
  | nil => exact hu
  | cons r removes ih =>
    exact ih (changeFirst_unique (fun _ hf => hf.sublist (List.filter_sublist.map _)) hu)

theorem kept_unique (hu : KeysUnique sections) : KeysUnique (kept sections) where
  nodup := hu.nodup.sublist (List.filter_sublist.map _)
  fields_nodup s hs := hu.fields_nodup s (List.mem_of_mem_filter hs)

theorem patched_unique (h : patched ids p read = .ok after) (hu : KeysUnique read.sections) : KeysUnique after.sections := by
  obtain ⟨sections, hset, rfl⟩ := patched_ok h
  exact kept_unique (removeAll_unique _ (setAll_unique hset hu))

theorem setAll_rest (h : setAll ids sets sections = .ok sections')
    (hp : ∀ x ∈ sets, p.names x.sectionKey x.fieldKey = true) : sections'.map p.rest = sections.map p.rest := by
  induction sets generalizing sections with
  | nil => exact Except.ok.inj h ▸ rfl
  | cons x sets ih =>
    obtain ⟨between, hx, hsets⟩ := setAll_cons_ok h
    obtain ⟨-, sources, rfl⟩ := setIn_ok hx
    obtain ⟨hnamed, hrest⟩ := List.forall_mem_cons.mp hp
    rw [ih hsets hrest]
    exact rest_changeFirst fun fields => filter_setField fun field hf => by simp [hf, hnamed]

theorem removeAll_rest (sections : List StructuredDataSection) (removes : List PatchRemove)
    (hp : ∀ r ∈ removes, p.names r.sectionKey r.fieldKey = true) :
    (removes.foldl removeIn sections).map p.rest = sections.map p.rest := by
  induction removes generalizing sections with
  | nil => rfl
  | cons r removes ih =>
    obtain ⟨hnamed, hrest⟩ := List.forall_mem_cons.mp hp
    rw [List.foldl_cons, ih _ hrest]
    refine rest_changeFirst fun fields => ?_
    rw [List.filter_filter]
    refine List.filter_congr fun field _ => ?_
    by_cases hf : field.key = r.fieldKey
    · simp [hf, hnamed]
    · simp [hf]

theorem patched_others (h : patched ids p read = .ok after) : p.others after = p.others read := by
  obtain ⟨sections, hset, rfl⟩ := patched_ok h
  have hsets := setAll_rest (p := p) hset fun x hx =>
    Bool.or_eq_true_iff.mpr (.inl (List.any_eq_true.mpr ⟨x, hx, by simp⟩))
  have hremoves := removeAll_rest (p := p) sections p.remove fun r hr =>
    Bool.or_eq_true_iff.mpr (.inr (List.any_eq_true.mpr ⟨r, hr, by simp⟩))
  simp only [Patch.others, kept_map_rest, hremoves, hsets]

theorem patched_field (h : patched ids p read = .ok after) (hu : KeysUnique read.sections) :
    (∀ k f v, valueSet k f p.set = some v → ⟨k, f⟩ ∉ p.remove →
      ∃ field, fieldIn after.sections k f = some field ∧ field.value = v) ∧
    ∀ r ∈ p.remove, fieldIn after.sections r.sectionKey r.fieldKey = none := by
  obtain ⟨sections, hset, rfl⟩ := patched_ok h
  have hnodup := (removeAll_unique p.remove (setAll_unique hset hu)).nodup
  constructor
  · intro k f v hv hr
    rw [fieldIn_kept hnodup, removeAll_field, if_neg hr]
    exact (setAll_field hset).1 v hv
  · intro r hr
    rw [fieldIn_kept hnodup, removeAll_field, if_pos hr]

/-- A field that a patch does not name, as one of the sections without the named fields. -/
theorem fieldIn_others (hu : KeysUnique sections) (hn : p.names k f = false) :
    fieldIn (kept (sections.map p.rest)) k f = fieldIn sections k f := by
  have hkeys : (sections.map p.rest).map (·.key) = sections.map (·.key) := by
    rw [List.map_map]
    rfl
  rw [fieldIn_kept (hkeys ▸ hu.nodup)]
  clear hkeys hu
  induction sections with
  | nil => rfl
  | cons s sections ih =>
    by_cases hkey : s.key = k
    · subst hkey
      simp only [fieldIn, List.map_cons, Patch.rest, List.find?_cons_of_pos, decide_true, Option.bind_some,
        List.find?_filter]
      congr 1
      funext field
      by_cases hf : field.key = f <;> simp [hf, hn]
    · simpa [fieldIn, Patch.rest, hkey] using ih

theorem fieldIn_of_others (hu : KeysUnique before.sections) (hu' : KeysUnique after.sections)
    (h : p.others after = p.others before) (hn : p.names k f = false) :
    fieldIn after.sections k f = fieldIn before.sections k f := by
  have hsections : kept (after.sections.map p.rest) = kept (before.sections.map p.rest) := congrArg Prod.snd h
  rw [← fieldIn_others hu hn, ← fieldIn_others hu' hn, hsections]

/-- What a patch makes of a stored state. -/
structure PatchKept (p : Patch) (before after : StructuredDataState) : Prop where
  /-- The other fields with their sections and the title, in their order. -/
  others : p.others after = p.others before
  set : ∀ k f v, valueSet k f p.set = some v → ⟨k, f⟩ ∉ p.remove →
    ∃ field, fieldIn after.sections k f = some field ∧ field.value = v
  removed : ∀ r ∈ p.remove, fieldIn after.sections r.sectionKey r.fieldKey = none
  /-- A section goes with its last field only. -/
  dropped : ∀ s ∈ before.sections, s.key ∉ after.sections.map (·.key) → ∀ field ∈ s.fields, ⟨s.key, field.key⟩ ∈ p.remove
  unique : KeysUnique after.sections

theorem valueSet_of_mem (h : x ∈ sets) : ∃ v, valueSet x.sectionKey x.fieldKey sets = some v := by
  induction sets with
  | nil => cases h
  | cons y sets ih =>
    rw [← Option.isSome_iff_exists]
    rcases List.mem_cons.mp h with rfl | h
    · simp [valueSet]
    · obtain ⟨v, hv⟩ := ih h
      simp [valueSet, hv]

theorem mem_keys_of_fieldIn {field : StructuredDataField} (h : fieldIn sections k f = some field) :
    k ∈ sections.map (·.key) := by
  obtain ⟨s, hs, -⟩ := Option.bind_eq_some_iff.mp h
  exact List.mem_map.mpr ⟨s, List.mem_of_find?_eq_some hs, by simpa using List.find?_some hs⟩

/-- A patch that is stored on another state than it read keeps what it does not name, if that is the same there. -/
theorem patchKept_iff (h : patched ids p read = .ok after) (hu : KeysUnique read.sections) :
    PatchKept p before after ↔ p.others read = p.others before := by
  constructor
  · intro hkept
    rw [← patched_others h, hkept.others]
  · intro heq
    have hothers : p.others after = p.others before := (patched_others h).trans heq
    obtain ⟨hset, hremoved⟩ := patched_field h hu
    refine ⟨hothers, hset, hremoved, fun s hs hgone field hf => ?_, patched_unique h hu⟩
    by_contra hr
    cases hn : p.names s.key field.key with
    | true =>
      obtain hx | hx := Bool.or_eq_true_iff.mp hn
      · obtain ⟨x, hx, hxkey⟩ := List.any_eq_true.mp hx
        obtain ⟨hsection, hfield⟩ := of_decide_eq_true hxkey
        obtain ⟨v, hv⟩ := valueSet_of_mem hx
        rw [hsection, hfield] at hv
        obtain ⟨_, hfound, -⟩ := hset _ _ v hv hr
        exact hgone (mem_keys_of_fieldIn hfound)
      · obtain ⟨r, hrem, hrkey⟩ := List.any_eq_true.mp hx
        obtain ⟨hsection, hfield⟩ := of_decide_eq_true hrkey
        exact hr (by rw [← hsection, ← hfield]; exact hrem)
    | false =>
      have hmem : p.rest s ∈ kept (before.sections.map p.rest) := by
        refine List.mem_filter.mpr ⟨List.mem_map_of_mem hs, decide_eq_true (List.length_pos_of_mem (a := field) ?_)⟩
        exact List.mem_filter.mpr ⟨hf, by simp [hn]⟩
      have hsections : kept (after.sections.map p.rest) = kept (before.sections.map p.rest) := congrArg Prod.snd hothers
      rw [← hsections] at hmem
      obtain ⟨s', hs', hrest⟩ := List.mem_map.mp (List.mem_of_mem_filter hmem)
      exact hgone (List.mem_map.mpr ⟨s', hs', congrArg (·.key) hrest⟩)

/-- What a `set` makes of its field where it stands in the sections, or is not there. -/
def PatchSet.made (x : PatchSet) (sources : Option (List StructuredDataFieldSource)) :
    Option StructuredDataField → StructuredDataField
  | some field => x.update sources field
  | none => x.added sources

theorem find?_setField (x : PatchSet) (sources : Option (List StructuredDataFieldSource)) (fields : List StructuredDataField) :
    (setField x sources fields).find? (·.key = x.fieldKey) = some (x.made sources (fields.find? (·.key = x.fieldKey))) := by
  induction fields with
  | nil => simp [setField, PatchSet.added, PatchSet.made]
  | cons field fields ih =>
    by_cases h : field.key = x.fieldKey
    · simp [setField, h, PatchSet.update, PatchSet.made]
    · simpa [setField, h] using ih

theorem setIn_made (h : setIn ids x sections = .ok sections') : ∃ sources, mapSources ids x.sources = .ok sources ∧
    fieldIn sections' x.sectionKey x.fieldKey = some (x.made sources (fieldIn sections x.sectionKey x.fieldKey)) := by
  simp only [setIn, bind_ok, need_ok, pure_ok] at h
  obtain ⟨s, hs, sources, hsources, rfl⟩ := h
  refine ⟨sources, hsources, ?_⟩
  rw [fieldIn_changeFirst_self, fieldIn, hs, Option.bind_some, Option.bind_some, find?_setField]

/-- What a patch sets a field to depends on that field alone. -/
theorem setAll_congr {others others' : List StructuredDataSection} (h : setAll ids sets sections = .ok sections')
    (h' : setAll ids sets others = .ok others') (heq : fieldIn sections k f = fieldIn others k f) :
    fieldIn sections' k f = fieldIn others' k f := by
  induction sets generalizing sections others with
  | nil =>
    cases h
    cases h'
    exact heq
  | cons x sets ih =>
    obtain ⟨between, hx, hsets⟩ := setAll_cons_ok h
    obtain ⟨between', hx', hsets'⟩ := setAll_cons_ok h'
    refine ih hsets hsets' ?_
    by_cases hnamed : x.sectionKey = k ∧ x.fieldKey = f
    · obtain ⟨rfl, rfl⟩ := hnamed
      obtain ⟨sources, hsources, hmade⟩ := setIn_made hx
      obtain ⟨sources', hsources', hmade'⟩ := setIn_made hx'
      rw [hsources, Except.ok.injEq] at hsources'
      rw [hmade, hmade', heq, hsources']
    · have hkept := setIn_field (k := k) (f := f) hx
      have hkept' := setIn_field (k := k) (f := f) hx'
      rw [if_neg hnamed] at hkept hkept'
      rw [hkept, hkept', heq]

theorem patched_congr {other after' : StructuredDataState} (h : patched ids p read = .ok after) (h' : patched ids p other = .ok after')
    (hu : KeysUnique read.sections) (hu' : KeysUnique other.sections)
    (heq : fieldIn read.sections k f = fieldIn other.sections k f) : fieldIn after.sections k f = fieldIn after'.sections k f := by
  obtain ⟨sections, hset, rfl⟩ := patched_ok h
  obtain ⟨sections', hset', rfl⟩ := patched_ok h'
  rw [fieldIn_kept (removeAll_unique _ (setAll_unique hset hu)).nodup, fieldIn_kept (removeAll_unique _ (setAll_unique hset' hu')).nodup,
    removeAll_field, removeAll_field, setAll_congr hset hset' heq]

namespace Example

def entry (key value : String) : StructuredDataField := ⟨key, key, .text value, none, none⟩

def person (fields : List StructuredDataField) : StructuredDataState := ⟨"Person", [⟨"person", "Person", fields⟩]⟩

def adding (key value : String) : Patch := ⟨[⟨"person", key, .text value, none, none, none⟩], []⟩

end Example

end Catalyst.StructuredData
