import Catalyst.Library.Utf16
import Mathlib

/-!
# JSON values and their texts

A text is a list of UTF-16 code units. A value is told apart from what follows it by the texts
of its parts: strings by their closing quote, lists and objects by their commas and brackets.
-/

namespace Catalyst.Library

/-- At the head of a text that goes on with one of `Ends`, `f a` is read as what it stands for,
up to `R`. -/
def Splits (f : α → List β) (Ok : α → Prop) (R : α → α → Prop) (Ends : List β → Prop) (a : α) : Prop :=
  ∀ b, Ok b → ∀ r s, Ends r → Ends s → f a ++ r = f b ++ s → R a b ∧ r = s

section
variable {f : α → List β} {Ok : α → Prop} {R : α → α → Prop} {Ends : List β → Prop} {close : β}
  {as bs : List α} {r s : List β}

theorem Splits.flatMap (ha : ∀ a ∈ as, Splits f Ok R Ends a) (hb : ∀ b ∈ bs, Ok b)
    (hclose : ∀ a, ∀ r s : List β, f a ++ r ≠ close :: s) (hends : ∀ (as : List α) r, Ends (as.flatMap f ++ close :: r))
    (h : as.flatMap f ++ close :: r = bs.flatMap f ++ close :: s) : List.Forall₂ R as bs ∧ r = s := by
  induction as generalizing bs with
  | nil =>
    cases bs with
    | nil => exact ⟨.nil, List.cons_inj_right close |>.mp (by simpa using h)⟩
    | cons b bs => exact absurd (by simpa using h.symm) (hclose b (bs.flatMap f ++ close :: s) r)
  | cons a as ih =>
    cases bs with
    | nil => exact absurd (by simpa using h) (hclose a (as.flatMap f ++ close :: r) s)
    | cons b bs =>
      obtain ⟨ha, has⟩ := List.forall_mem_cons.mp ha
      obtain ⟨hb, hbs⟩ := List.forall_mem_cons.mp hb
      simp only [List.flatMap_cons, List.append_assoc] at h
      obtain ⟨hab, hrest⟩ := ha b hb _ _ (hends _ _) (hends _ _) h
      obtain ⟨hlists, hrs⟩ := ih has hbs hrest
      exact ⟨.cons hab hlists, hrs⟩

def separated (sep : β) : List (List β) → List β
  | [] => []
  | t :: ts => t ++ ts.flatMap (sep :: ·)

theorem Splits.separated {sep : β} (ha : ∀ a ∈ as, Splits f Ok R Ends a) (hb : ∀ b ∈ bs, Ok b) (hne : sep ≠ close)
    (hclose : ∀ a, ∀ r s : List β, f a ++ r ≠ close :: s) (hsep : ∀ r, Ends (sep :: r)) (hend : ∀ r, Ends (close :: r))
    (h : Library.separated sep (as.map f) ++ close :: r = Library.separated sep (bs.map f) ++ close :: s) :
    List.Forall₂ R as bs ∧ r = s := by
  have hends (as : List α) (r : List β) : Ends (as.flatMap (fun a => sep :: f a) ++ close :: r) := by
    cases as with
    | nil => exact hend r
    | cons a as => exact hsep _
  have hflat (cs : List α) : (cs.map f).flatMap (sep :: ·) = cs.flatMap fun a => sep :: f a := by
    rw [List.flatMap_map]
  cases as with
  | nil =>
    cases bs with
    | nil => exact ⟨.nil, List.cons_inj_right close |>.mp (by simpa [Library.separated] using h)⟩
    | cons b bs =>
      simp only [Library.separated, List.map_cons, List.append_assoc] at h
      exact absurd h.symm (hclose b _ r)
  | cons a as =>
    cases bs with
    | nil =>
      simp only [Library.separated, List.map_cons, List.append_assoc] at h
      exact absurd h (hclose a _ s)
    | cons b bs =>
      obtain ⟨ha, has⟩ := List.forall_mem_cons.mp ha
      obtain ⟨hb, hbs⟩ := List.forall_mem_cons.mp hb
      simp only [Library.separated, List.map_cons, List.append_assoc, hflat] at h
      obtain ⟨hab, hrest⟩ := ha b hb _ _ (hends _ _) (hends _ _) h
      have hlater : ∀ a ∈ as, Splits (fun a => sep :: f a) Ok R Ends a := by
        rintro a hmem b hb r s hr hs heq
        exact has a hmem b hb r s hr hs (List.cons_inj_right sep |>.mp heq)
      obtain ⟨hlists, hrs⟩ := Splits.flatMap hlater hbs (by rintro a r s heq; exact hne (List.cons.inj heq).1) hends hrest
      exact ⟨.cons hab hlists, hrs⟩

end

abbrev Units := List Nat

instance : LawfulBEq Units := inferInstance

def ascii (s : String) : Units := s.toList.map Char.toNat

inductive CodePoint where
  | unit (u : Nat)
  | pair (high low : Nat) (h : isHighSurrogate high ∧ isLowSurrogate low)

def CodePoint.units : CodePoint → Units
  | .unit u => [u]
  | .pair high low _ => [high, low]

def codePoints : Units → List CodePoint
  | [] => []
  | [u] => [.unit u]
  | u :: v :: us =>
    if h : isHighSurrogate u ∧ isLowSurrogate v then .pair u v h :: codePoints us
    else .unit u :: codePoints (v :: us)

def hexDigit (n : Nat) : Nat := if n < 10 then 0x30 + n else 0x57 + n

/-- A backslash, `u` and four hex digits. -/
def unitEscape (u : Nat) : Units :=
  [0x5c, 0x75, hexDigit (u / 4096 % 16), hexDigit (u / 256 % 16), hexDigit (u / 16 % 16), hexDigit (u % 16)]

/-- What stands after the backslash of a unit with an escape of its own. -/
def shortEscape? (u : Nat) : Option Nat :=
  if u = 0x08 then some 0x62
  else if u = 0x09 then some 0x74
  else if u = 0x0a then some 0x6e
  else if u = 0x0c then some 0x66
  else if u = 0x0d then some 0x72
  else if u = 0x22 ∨ u = 0x5c then some u
  else none

def isEscaped (u : Nat) : Bool := u < 0x20 || isHighSurrogate u || isLowSurrogate u

def CodePoint.quote : CodePoint → Units
  | .pair high low _ => [high, low]
  | .unit u =>
    match shortEscape? u with
    | some c => [0x5c, c]
    | none => if isEscaped u then unitEscape u else [u]

/-- `JSON.stringify` of a string. -/
def quote (us : Units) : Units := 0x22 :: (codePoints us).flatMap CodePoint.quote ++ [0x22]

theorem units_codePoints (us : Units) : (codePoints us).flatMap CodePoint.units = us := by
  fun_induction codePoints us with
  | case1 => rfl
  | case2 u => rfl
  | case3 u v us h ih => simp [CodePoint.units, ih]
  | case4 u v us h ih => simp [CodePoint.units, ih]

theorem hexDigit_inj (hm : m < 16) (hn : n < 16) (h : hexDigit m = hexDigit n) : m = n := by
  unfold hexDigit at h
  split_ifs at h <;> omega

theorem isEscaped_lt (h : isEscaped u) : u < 0x10000 := by
  simp only [isEscaped, isHighSurrogate, isLowSurrogate, Bool.or_eq_true, Bool.and_eq_true, decide_eq_true_eq] at h
  omega

theorem unitEscape_inj (hu : u < 0x10000) (hv : v < 0x10000) (h : unitEscape u ++ r = unitEscape v ++ s) :
    u = v ∧ r = s := by
  have hdigit (n : Nat) : n % 16 < 16 := Nat.mod_lt n (by decide)
  simp only [unitEscape, List.cons_append, List.nil_append, List.cons.injEq, true_and] at h
  obtain ⟨h3, h2, h1, h0, hrest⟩ := h
  have h3 := hexDigit_inj (hdigit _) (hdigit _) h3
  have h2 := hexDigit_inj (hdigit _) (hdigit _) h2
  have h1 := hexDigit_inj (hdigit _) (hdigit _) h1
  have h0 := hexDigit_inj (hdigit _) (hdigit _) h0
  exact ⟨by omega, hrest⟩

theorem shortEscape?_ne_u (h : shortEscape? u = some c) : c ≠ 0x75 := by
  unfold shortEscape? at h
  split_ifs at h <;> simp only [Option.some.injEq] at h <;> omega

theorem shortEscape?_inj (hu : shortEscape? u = some c) (hv : shortEscape? v = some c) : u = v := by
  unfold shortEscape? at hu hv
  split_ifs at hu hv <;> simp only [Option.some.injEq] at hu hv <;> omega

theorem shortEscape?_none (h : shortEscape? u = none) : u ≠ 0x22 ∧ u ≠ 0x5c := by
  refine ⟨?_, ?_⟩ <;> rintro rfl <;> cases h

inductive Quoted : CodePoint → Units → Prop where
  | short (h : shortEscape? u = some c) : Quoted (.unit u) [0x5c, c]
  | number (h : u < 0x10000) : Quoted (.unit u) (unitEscape u)
  | unit (hq : u ≠ 0x22) (hb : u ≠ 0x5c) (h : isHighSurrogate u = false) : Quoted (.unit u) [u]
  | pair (h : isHighSurrogate high ∧ isLowSurrogate low) : Quoted (.pair high low h) [high, low]

theorem quoted (p : CodePoint) : Quoted p p.quote := by
  cases p with
  | pair high low h => exact .pair h
  | unit u =>
    simp only [CodePoint.quote]
    split
    next c hshort => exact .short hshort
    next hshort =>
      obtain ⟨hq, hb⟩ := shortEscape?_none hshort
      split_ifs with he
      · exact .number (isEscaped_lt he)
      · refine .unit hq hb ?_
        simp only [isEscaped, Bool.or_eq_true, not_or, Bool.not_eq_true] at he
        exact he.1.2

theorem high_ne (h : isHighSurrogate high) : high ≠ 0x22 ∧ high ≠ 0x5c := by
  refine ⟨?_, ?_⟩ <;> rintro rfl <;> exact absurd h (by decide)

theorem Quoted.ne_quote (h : Quoted p t) (r s : Units) : t ++ r ≠ 0x22 :: s := by
  cases h with
  | short h => simp
  | number h => simp [unitEscape]
  | unit hq hb h => simp [hq]
  | pair h => simp [(high_ne h.1).1]

theorem Quoted.inj (hp : Quoted p t) (hq : Quoted q t') (h : t ++ r = t' ++ s) : p = q ∧ r = s := by
  cases hp with
  | short hu =>
    cases hq with
    | short hv =>
      obtain ⟨-, rfl, hrest⟩ : True ∧ _ := ⟨trivial, by simpa using h⟩
      exact ⟨congrArg _ (shortEscape?_inj hu hv), hrest⟩
    | number hv => exact absurd (List.cons.inj (List.cons.inj h).2).1 (shortEscape?_ne_u hu)
    | unit _ hb _ => exact absurd (List.cons.inj h).1.symm hb
    | pair hv => exact absurd (List.cons.inj h).1.symm (high_ne hv.1).2
  | number hu =>
    cases hq with
    | short hv => exact absurd (List.cons.inj (List.cons.inj h).2).1.symm (shortEscape?_ne_u hv)
    | number hv =>
      obtain ⟨rfl, hrest⟩ := unitEscape_inj hu hv h
      exact ⟨rfl, hrest⟩
    | unit _ hb _ => exact absurd (List.cons.inj h).1.symm hb
    | pair hv => exact absurd (List.cons.inj h).1.symm (high_ne hv.1).2
  | unit _ hb hu =>
    cases hq with
    | short hv => exact absurd (List.cons.inj h).1 hb
    | number hv => exact absurd (List.cons.inj h).1 hb
    | unit _ _ _ =>
      obtain ⟨rfl, hrest⟩ := List.cons.inj h
      exact ⟨rfl, hrest⟩
    | pair hv =>
      obtain ⟨rfl, -⟩ := List.cons.inj h
      exact absurd hv.1 (by simp [hu])
  | pair hu =>
    cases hq with
    | short hv => exact absurd (List.cons.inj h).1 (high_ne hu.1).2
    | number hv => exact absurd (List.cons.inj h).1 (high_ne hu.1).2
    | unit _ _ hv =>
      obtain ⟨rfl, -⟩ := List.cons.inj h
      exact absurd hu.1 (by simp [hv])
    | pair hv =>
      obtain ⟨hhigh, h⟩ := List.cons.inj h
      obtain ⟨hlow, hrest⟩ := List.cons.inj h
      exact ⟨by congr, hrest⟩

theorem quote_inj (h : quote us ++ r = quote vs ++ s) : us = vs ∧ r = s := by
  simp only [quote, List.cons_append, List.append_assoc, List.nil_append, List.cons.injEq, true_and] at h
  have hsplits : ∀ p ∈ codePoints us, Splits CodePoint.quote (fun _ => True) Eq (fun _ => True) p := by
    rintro p - q - r s - - heq
    exact (quoted p).inj (quoted q) heq
  obtain ⟨hpoints, hrest⟩ := Splits.flatMap hsplits (fun _ _ => trivial) (fun p => (quoted p).ne_quote)
    (fun _ _ => trivial) h
  rw [List.forall₂_eq_eq_eq] at hpoints
  refine ⟨?_, hrest⟩
  rw [← units_codePoints us, hpoints, units_codePoints]

theorem exists_perm_keys {fields : List (κ × ν)} {keys : List κ} (h : keys.Perm (fields.map Prod.fst)) :
    ∃ sorted : List (κ × ν), sorted.Perm fields ∧ sorted.map Prod.fst = keys := by
  have hfields : List.Forall₂ (fun k f => k = f.1) (fields.map Prod.fst) fields := by
    simp [List.forall₂_map_left_iff, List.forall₂_same]
  obtain ⟨sorted, hkeys, hperm⟩ := List.perm_comp_forall₂ h hfields
  refine ⟨sorted, hperm, ?_⟩
  rw [← List.forall₂_eq_eq_eq, List.forall₂_map_left_iff]
  exact hkeys.flip.imp fun _ _ h => h.symm

theorem lookup_of_mem [BEq κ] [LawfulBEq κ] {fields : List (κ × ν)} (hd : (fields.map Prod.fst).Nodup) (h : f ∈ fields) :
    fields.lookup f.1 = some f.2 := by
  induction fields with
  | nil => exact absurd h List.not_mem_nil
  | cons g fields ih =>
    obtain ⟨hg, hd⟩ := List.nodup_cons.mp hd
    obtain rfl | h := List.mem_cons.mp h
    · simp [List.lookup]
    · have hne : (f.1 == g.1) = false := by
        rw [beq_eq_false_iff_ne]
        exact fun heq => hg (heq ▸ List.mem_map_of_mem h)
      rw [List.lookup_cons, hne]
      exact ih hd h

def isNumeral (u : Nat) : Bool := 0x30 ≤ u && u ≤ 0x39 || u ∈ ascii "+-.e"

/-- A finite number by what `JSON.stringify` writes for it: 0 and -0 are one. -/
structure JsonNumber where
  text : Units
  ne_nil : text ≠ []
  numeral : ∀ u ∈ text, isNumeral u
  deriving DecidableEq

inductive JsonValue where
  | null
  | boolean (b : Bool)
  | number (n : JsonNumber)
  | string (s : Units)
  | array (items : List JsonValue)
  | object (fields : List (Units × JsonValue))

inductive JsonKind where
  | null | boolean | number | string | array | object
  deriving DecidableEq

def kindAt (u : Nat) : Option JsonKind :=
  if u = 0x6e then some .null
  else if u = 0x74 ∨ u = 0x66 then some .boolean
  else if u = 0x22 then some .string
  else if u = 0x5b then some .array
  else if u = 0x7b then some .object
  else if isNumeral u then some .number
  else none

def Ends : Units → Prop
  | [] => True
  | u :: _ => u = 0x2c ∨ u = 0x5d ∨ u = 0x7d

theorem append_inj_of_runs {p : α → Bool} {as bs r s : List α} (ha : ∀ u ∈ as, p u) (hb : ∀ u ∈ bs, p u)
    (hr : ∀ u ∈ r.head?, p u = false) (hs : ∀ u ∈ s.head?, p u = false) (h : as ++ r = bs ++ s) : as = bs ∧ r = s := by
  induction as generalizing bs with
  | nil =>
    cases bs with
    | nil => exact ⟨rfl, h⟩
    | cons b bs =>
      subst h
      exact absurd (hb b List.mem_cons_self) (by simp [hr b rfl])
  | cons a as ih =>
    cases bs with
    | nil =>
      subst h
      exact absurd (ha a List.mem_cons_self) (by simp [hs a rfl])
    | cons b bs =>
      obtain ⟨-, has⟩ := List.forall_mem_cons.mp ha
      obtain ⟨-, hbs⟩ := List.forall_mem_cons.mp hb
      obtain ⟨rfl, htail⟩ := List.cons.inj h
      obtain ⟨rfl, hrest⟩ := ih has hbs htail
      exact ⟨rfl, hrest⟩

theorem Ends.not_numeral (h : Ends r) : ∀ u ∈ r.head?, isNumeral u = false := by
  cases r with
  | nil => simp
  | cons u r =>
    rintro v hv
    obtain rfl : u = v := by simpa using hv
    rcases h with rfl | rfl | rfl <;> decide

theorem JsonNumber.text_inj {m n : JsonNumber} (hr : Ends r) (hs : Ends s) (h : m.text ++ r = n.text ++ s) :
    m = n ∧ r = s := by
  obtain ⟨htext, hrest⟩ := append_inj_of_runs m.numeral n.numeral hr.not_numeral hs.not_numeral h
  cases m
  cases n
  cases htext
  exact ⟨rfl, hrest⟩

theorem kindAt_numeral (h : isNumeral u) : kindAt u = some .number := by
  unfold kindAt
  split_ifs with hn hb hs ha ho
  · subst hn; cases h
  · rcases hb with rfl | rfl <;> cases h
  · subst hs; cases h
  · subst ha; cases h
  · subst ho; cases h
  · rfl

namespace JsonValue

def kind : JsonValue → JsonKind
  | .null => .null
  | .boolean _ => .boolean
  | .number _ => .number
  | .string _ => .string
  | .array _ => .array
  | .object _ => .object

@[elab_as_elim, induction_eliminator]
theorem induct {P : JsonValue → Prop} (null : P .null) (boolean : ∀ b, P (.boolean b)) (number : ∀ n, P (.number n))
    (string : ∀ s, P (.string s)) (array : ∀ items, (∀ v ∈ items, P v) → P (.array items))
    (object : ∀ fields, (∀ f ∈ fields, P f.2) → P (.object fields)) (v : JsonValue) : P v :=
  @JsonValue.rec P (fun items => ∀ v ∈ items, P v) (fun fields => ∀ f ∈ fields, P f.2) (fun f => P f.2)
    null boolean number string array object
    (fun _ h => absurd h List.not_mem_nil) (fun _ _ hv hs => List.forall_mem_cons.mpr ⟨hv, hs⟩)
    (fun _ h => absurd h List.not_mem_nil) (fun _ _ hf hs => List.forall_mem_cons.mpr ⟨hf, hs⟩)
    (fun _ _ hv => hv) v

inductive Distinct : JsonValue → Prop where
  | null : Distinct .null
  | boolean (b : Bool) : Distinct (.boolean b)
  | number (n : JsonNumber) : Distinct (.number n)
  | string (s : Units) : Distinct (.string s)
  | array (h : ∀ v ∈ items, Distinct v) : Distinct (.array items)
  | object (hkeys : (fields.map Prod.fst).Nodup) (h : ∀ f ∈ fields, Distinct f.2) : Distinct (.object fields)

theorem Distinct.items {items : List JsonValue} (h : Distinct (.array items)) : ∀ v ∈ items, v.Distinct := by
  cases h with
  | array h => exact h

theorem Distinct.keys {fields : List (Units × JsonValue)} (h : Distinct (.object fields)) : (fields.map Prod.fst).Nodup := by
  cases h with
  | object hkeys h => exact hkeys

theorem Distinct.fields {fields : List (Units × JsonValue)} (h : Distinct (.object fields)) :
    ∀ f ∈ fields, f.2.Distinct := by
  cases h with
  | object hkeys h => exact h

inductive Same : JsonValue → JsonValue → Prop where
  | null : Same .null .null
  | boolean (b : Bool) : Same (.boolean b) (.boolean b)
  | number (n : JsonNumber) : Same (.number n) (.number n)
  | string (s : Units) : Same (.string s) (.string s)
  | array {as bs : List JsonValue} (h : List.Forall₂ Same as bs) : Same (.array as) (.array bs)
  | object {as bs cs ds : List (Units × JsonValue)} (ha : as.Perm cs) (hkeys : cs.map Prod.fst = ds.map Prod.fst)
    (h : List.Forall₂ Same (cs.map Prod.snd) (ds.map Prod.snd)) (hb : ds.Perm bs) : Same (.object as) (.object bs)

end JsonValue

end Catalyst.Library
