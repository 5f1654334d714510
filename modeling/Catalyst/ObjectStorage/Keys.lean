import Catalyst.Library.Check
import Catalyst.Library.JsText
import Catalyst.Library.PosixPath
import Mathlib

/-!
# Keys of stored objects

A key is brought into the normal form of a path before a store sees it. A prefix is never rewritten: one
that is not in its normal form is refused.
-/

namespace Catalyst.ObjectStorage

open Library Lines PosixPath Check

abbrev Key := List Char

inductive Refusal where
  | emptyKey | leavesStore | noSegment | prefixEnd | prefixCharacter | prefixSegments
  deriving DecidableEq

def Refusal.reason : Refusal → String
  | .emptyKey => "the object key is empty or holds a character no key may hold"
  | .leavesStore => "the object key leaves the store"
  | .noSegment => "the object key names no segment"
  | .prefixEnd => "a prefix must end with '/', so it cannot match a neighbouring key"
  | .prefixCharacter => "the prefix holds a character no key may hold"
  | .prefixSegments => "a prefix names whole segments: no leading '/', no empty segment, no '.' and no '..'"

/-- One more segment on those that are left, the last of them first. -/
def takeSegment (segments : List Segment) (segment : Segment) : Except Refusal (List Segment) :=
  if segment = [] ∨ segment = ['.'] then .ok segments
  else if segment ≠ parent then .ok (segment :: segments)
  else
    match segments with
    | [] => .error .leavesStore
    | _ :: rest => .ok rest

def normalizeObjectKey (key : Key) : Except Refusal Key := do
  require (¬(Js.trim key = [] ∨ '\x00' ∈ key ∨ key.head? = some '/' ∨ '\\' ∈ key)) .emptyKey
  let segments ← (key.splitOn '/').foldlM takeSegment []
  require (segments ≠ []) .noSegment
  return joinWith '/' segments.reverse ++ if key.getLast? = some '/' then ['/'] else []

def normalizeObjectPrefix (objectPrefix : Key) (allowAll : Bool) : Except Refusal Key :=
  if objectPrefix = [] ∧ allowAll then .ok []
  else if objectPrefix.getLast? ≠ some '/' then .error .prefixEnd
  else if '\x00' ∈ objectPrefix ∨ '\\' ∈ objectPrefix then .error .prefixCharacter
  else if ∃ segment ∈ objectPrefix.dropLast.splitOn '/', ¬IsName segment then .error .prefixSegments
  else .ok objectPrefix

structure KeyNames (names : List Segment) : Prop extends Names names where
  clean : ∀ s ∈ names, '\x00' ∉ s ∧ '\\' ∉ s

def spell (names : List Segment) (slash : Bool) : Key := joinWith '/' names ++ if slash then ['/'] else []

variable {names names' left segments : List Segment} {slash slash' : Bool} {key normal : Key}

theorem spell_true (h : names ≠ []) : spell names true = joinWith '/' (names ++ [[]]) := by
  rw [joinWith_append h (List.cons_ne_nil _ _), joinWith_singleton]
  rfl

@[simp] theorem spell_false (names : List Segment) : spell names false = joinWith '/' names := List.append_nil _

theorem splitOn_spell (h : Names names) : (spell names slash).splitOn '/' = names ++ if slash then [[]] else [] := by
  cases slash with
  | false => rw [spell_false, h.split]; simp
  | true =>
    rw [spell_true h.ne_nil, splitOn_joinWith _ (by simp)]
    · rfl
    · intro s hs
      obtain hs | hs := List.mem_append.mp hs
      · exact h.unbroken s hs
      · simp [List.mem_singleton.mp hs]

theorem getLast?_spell (h : Names names) : (spell names slash).getLast? = some '/' ↔ slash = true := by
  cases slash with
  | false => simpa using h.last_ne
  | true => simp [spell]

theorem head?_spell (h : Names names) : (spell names slash).head? ≠ some '/' := by
  rw [spell, List.head?_append_of_ne_nil _ h.path_ne_nil]
  exact h.head_ne

theorem spell_inj (h : Names names) (h' : Names names') : spell names slash = spell names' slash' ↔
    names = names' ∧ slash = slash' := by
  refine ⟨fun he => ?_, fun ⟨hnames, hslash⟩ => by rw [hnames, hslash]⟩
  have hslash : slash = slash' := by
    have hlast : (spell names slash).getLast? = some '/' ↔ slash = true := getLast?_spell h
    rw [he, getLast?_spell h'] at hlast
    exact Bool.eq_iff_iff.mpr hlast.symm
  subst hslash
  have hsplit : (spell names slash).splitOn '/' = names ++ if slash then [[]] else [] := splitOn_spell h
  rw [he, splitOn_spell h'] at hsplit
  exact ⟨(List.append_cancel_right hsplit).symm, rfl⟩

theorem spell_slash (h : Names names) (h' : Names names') : spell names slash = spell names' slash' ++ ['/'] ↔
    names = names' ∧ slash = true ∧ slash' = false := by
  cases slash' with
  | false =>
    rw [show spell names' false ++ ['/'] = spell names' true by simp [spell], spell_inj h h']
    simp
  | true =>
    simp only [Bool.true_eq_false, and_false, iff_false]
    intro he
    have hslash : slash = true := (getLast?_spell h).mp (by rw [he, List.getLast?_concat])
    rw [hslash, spell, if_pos rfl] at he
    exact h.last_ne (List.append_cancel_right he ▸ (getLast?_spell h').mpr rfl)

theorem mem_spell {c : Char} (hc : c ∈ spell names slash) : c = '/' ∨ ∃ s ∈ names, c ∈ s := by
  obtain hc | hc := List.mem_append.mp hc
  · exact mem_joinWith hc
  · cases slash with
    | false => cases hc
    | true => exact .inl (List.mem_singleton.mp hc)

theorem KeyNames.not_mem (h : KeyNames names) : '\x00' ∉ spell names slash ∧ '\\' ∉ spell names slash := by
  constructor
  · intro hc
    obtain hc | ⟨s, hs, hc⟩ := mem_spell hc
    · exact absurd hc (by decide)
    · exact (h.clean s hs).1 hc
  · intro hc
    obtain hc | ⟨s, hs, hc⟩ := mem_spell hc
    · exact absurd hc (by decide)
    · exact (h.clean s hs).2 hc

theorem mem_takeSegments (h : segments.foldlM takeSegment left = .ok out) : ∀ s ∈ out, s ∈ left ∨ s ∈ segments ∧ IsName s := by
  induction segments generalizing left with
  | nil =>
    obtain rfl := pure_ok.mp h
    exact fun s hs => .inl hs
  | cons segment segments ih =>
    rw [List.foldlM_cons] at h
    obtain ⟨next, hnext, hout⟩ := bind_ok.mp h
    intro s hs
    have hleft : s ∈ next → s ∈ left ∨ s = segment ∧ IsName s := by
      unfold takeSegment at hnext
      split_ifs at hnext with hempty hparent
      · obtain rfl := Except.ok.inj hnext
        exact .inl
      · obtain rfl := Except.ok.inj hnext
        intro hmem
        obtain rfl | hmem := List.mem_cons.mp hmem
        · exact .inr ⟨rfl, fun he => hempty (.inl he), fun he => hempty (.inr he), hparent⟩
        · exact .inl hmem
      · cases left with
        | nil => cases hnext
        | cons top rest =>
          obtain rfl := Except.ok.inj hnext
          exact fun hmem => .inl (List.mem_cons_of_mem top hmem)
    obtain hs | ⟨hs, hname⟩ := ih hout s hs
    · obtain hs | ⟨rfl, hname⟩ := hleft hs
      · exact .inl hs
      · exact .inr ⟨List.mem_cons_self, hname⟩
    · exact .inr ⟨List.mem_cons_of_mem segment hs, hname⟩

theorem takeSegments_names (h : ∀ s ∈ names, IsName s) (slash : Bool) :
    (names ++ if slash then [[]] else []).foldlM takeSegment left = .ok (names.reverse ++ left) := by
  induction names generalizing left with
  | nil => cases slash <;> rfl
  | cons s names ih =>
    obtain ⟨hs, hnames⟩ := List.forall_mem_cons.mp h
    have htake : takeSegment left s = .ok (s :: left) := by
      unfold takeSegment
      rw [if_neg (not_or.mpr ⟨hs.1, hs.2.1⟩), if_pos hs.2.2]
    rw [List.cons_append, List.foldlM_cons, htake, List.reverse_cons, List.append_assoc]
    exact ih hnames

theorem normalizeObjectKey_ok (h : normalizeObjectKey key = .ok normal) :
    ∃ names slash, KeyNames names ∧ normal = spell names slash := by
  simp only [normalizeObjectKey, bind_ok, require_ok, pure_ok] at h
  obtain ⟨-, hkey, segments, hsegments, -, hne, rfl⟩ := h
  obtain ⟨-, hnul, -, hbackslash⟩ : _ ∧ '\x00' ∉ key ∧ _ ∧ '\\' ∉ key := by simpa only [not_or] using hkey
  have hmem (s : Segment) (hs : s ∈ segments.reverse) : s ∈ key.splitOn '/' ∧ IsName s :=
    (mem_takeSegments hsegments s (List.mem_reverse.mp hs)).resolve_left List.not_mem_nil
  refine ⟨segments.reverse, key.getLast? = some '/', ⟨⟨fun s hs => (hmem s hs).2, fun s hs hslash => ?_, ?_⟩, ?_⟩, ?_⟩
  · exact (mem_splitOn (hmem s hs).1 '/' hslash).2 rfl
  · exact fun he => hne (List.reverse_eq_nil_iff.mp he)
  · exact fun s hs => ⟨fun hc => hnul (mem_splitOn (hmem s hs).1 _ hc).1, fun hc => hbackslash (mem_splitOn (hmem s hs).1 _ hc).1⟩
  · simp [spell]

theorem normalizeObjectKey_spell (h : KeyNames names) : normalizeObjectKey (spell names slash) =
    if Js.trim (spell names slash) = [] then .error .emptyKey else .ok (spell names slash) := by
  have hsplit : ((spell names slash).splitOn '/').foldlM takeSegment [] = .ok names.reverse := by
    rw [splitOn_spell h.toNames, takeSegments_names h.isName, List.append_nil]
  split_ifs with hblank
  · simp [normalizeObjectKey, require, hblank, bind, Except.bind]
  · have hcharacters : ¬(Js.trim (spell names slash) = [] ∨ '\x00' ∈ spell names slash ∨
        (spell names slash).head? = some '/' ∨ '\\' ∈ spell names slash) := by
      simp [hblank, h.not_mem, head?_spell h.toNames]
    refine bind_ok.mpr ⟨(), require_ok.mpr hcharacters, bind_ok.mpr ⟨names.reverse, hsplit, bind_ok.mpr ⟨(), ?_, ?_⟩⟩⟩
    · exact require_ok.mpr (List.reverse_ne_nil_iff.mpr h.ne_nil)
    · simp only [pure_ok, List.reverse_reverse, getLast?_spell h.toNames]
      rfl

theorem normalizeObjectKey_again (h : normalizeObjectKey key = .ok normal) :
    normalizeObjectKey normal = .ok normal ↔ Js.trim normal ≠ [] := by
  obtain ⟨names, slash, hnames, rfl⟩ := normalizeObjectKey_ok h
  rw [normalizeObjectKey_spell hnames]
  split_ifs with hblank <;> simp [hblank]

/-- A prefix that is let through is the one asked for: nothing, or names and a slash. -/
theorem normalizeObjectPrefix_ok {objectPrefix : Key} {allowAll : Bool} (h : normalizeObjectPrefix objectPrefix allowAll = .ok normal) :
    normal = objectPrefix ∧ (normal = [] ∨ ∃ names, KeyNames names ∧ normal = spell names true) := by
  unfold normalizeObjectPrefix at h
  split_ifs at h with hall hend hcharacters hsegments
  · obtain rfl := Except.ok.inj h
    exact ⟨hall.1.symm, .inl rfl⟩
  · obtain rfl := Except.ok.inj h
    refine ⟨rfl, .inr ⟨objectPrefix.dropLast.splitOn '/', ?_, ?_⟩⟩
    · push Not at hsegments hcharacters
      have hmem (s : Segment) (hs : s ∈ objectPrefix.dropLast.splitOn '/') : ∀ c ∈ s, c ∈ objectPrefix ∧ c ≠ '/' :=
        fun c hc => ⟨List.mem_of_mem_dropLast (mem_splitOn hs c hc).1, (mem_splitOn hs c hc).2⟩
      exact ⟨⟨hsegments, fun s hs hslash => (hmem s hs '/' hslash).2 rfl, List.splitOn_ne_nil _ _⟩,
        fun s hs => ⟨fun hc => hcharacters.1 (hmem s hs _ hc).1, fun hc => hcharacters.2 (hmem s hs _ hc).1⟩⟩
    · have hjoin : joinWith '/' (objectPrefix.dropLast.splitOn '/') = objectPrefix.dropLast := List.intercalate_splitOn '/'
      have hlast : objectPrefix.getLast? = some '/' := not_not.mp hend
      rw [spell, hjoin, if_pos rfl]
      obtain ⟨front, hfront⟩ := List.getLast?_eq_some_iff.mp hlast
      rw [hfront, List.dropLast_concat]

end Catalyst.ObjectStorage
