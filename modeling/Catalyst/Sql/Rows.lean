import Catalyst.Library.JsonNumbers
import Mathlib

/-!
# The keys of a row

A result may have several columns of one name. Each column gets a key of its own, so that a row
keeps what every column has.
-/

namespace Catalyst.Sql

open Library
open Library.JsonNumber (digitsOf)

/-- `${name}_${number}` -/
def numbered (name : Units) (number : Nat) : Units := name ++ ascii "_" ++ digitsOf number

def freeKey (taken : List Units) (name : Units) : Nat → Units → Nat → Option Units
  | 0, _, _ => none
  | fuel + 1, key, number =>
    if key ∈ taken then freeKey taken name fuel (numbered name number) (number + 1) else some key

def rowKeys (fuel : Nat) : List Units → List Units → Option (List Units)
  | _, [] => some []
  | taken, name :: names => do
    let key ← freeKey taken name fuel name 2
    let keys ← rowKeys fuel (key :: taken) names
    return key :: keys

def postgresRowKeys (fuel : Nat) (names : List Units) : Option (List Units) := rowKeys fuel [] names

structure ResultColumn where
  key : Units
  read : Units → JsonValue

def defineProperty (fields : List (Units × JsonValue)) (field : Units × JsonValue) : List (Units × JsonValue) :=
  if field.1 ∈ fields.map Prod.fst then fields.map fun f => if f.1 = field.1 then field else f
  else fields ++ [field]

/-- `Object.fromEntries` -/
def fromEntries (entries : List (Units × JsonValue)) : List (Units × JsonValue) := entries.foldl defineProperty []

def ResultColumn.value (column : ResultColumn) (raw : Option Units) : JsonValue :=
  match raw with
  | some text => column.read text
  | none => .null

def readPostgresRow (values : List (Option Units)) (columns : List ResultColumn) : List (Units × JsonValue) :=
  fromEntries (columns.mapIdx fun index column => (column.key, column.value values[index]?.join))

variable {taken names keys : List Units} {name key : Units} {number fuel : Nat}

def candidate (name : Units) : Nat → Units
  | 0 => name
  | i + 1 => numbered name (i + 2)

theorem numbered_ne (name : Units) (number : Nat) : numbered name number ≠ name := fun h => by
  have hlength := congrArg List.length h
  simp [numbered, ascii] at hlength

theorem digitsOf_injective : Function.Injective digitsOf := fun m n h => by
  have hchars : Nat.toDigits 10 m = Nat.toDigits 10 n :=
    List.map_injective_iff.mpr (fun c d hcd => Char.ext (UInt32.toNat_inj.mp hcd)) h
  simpa using congrArg (Nat.ofDigitChars 10 · 0) hchars

theorem candidate_injective (name : Units) : Function.Injective (candidate name) := by
  intro i j h
  cases i with
  | zero =>
    cases j with
    | zero => rfl
    | succ j => exact absurd h.symm (numbered_ne name (j + 2))
  | succ i =>
    cases j with
    | zero => exact absurd h (numbered_ne name (i + 2))
    | succ j =>
      have hdigits : digitsOf (i + 2) = digitsOf (j + 2) := List.append_cancel_left h
      have hnumber := digitsOf_injective hdigits
      omega

theorem exists_free (taken : List Units) (name : Units) : ∃ i ≤ taken.length, candidate name i ∉ taken := by
  have hcard : taken.toFinset.card < ((Finset.range (taken.length + 1)).image (candidate name)).card := by
    rw [Finset.card_image_of_injective _ (candidate_injective name), Finset.card_range]
    exact Nat.lt_succ_of_le taken.toFinset_card_le
  obtain ⟨key, hkey, hfree⟩ := Finset.exists_mem_notMem_of_card_lt_card hcard
  obtain ⟨i, hi, rfl⟩ := Finset.mem_image.mp hkey
  exact ⟨i, Nat.lt_succ_iff.mp (Finset.mem_range.mp hi), fun h => hfree (List.mem_toFinset.mpr h)⟩

theorem freeKey_eq (fuel : Nat) {i n : Nat} (hfree : candidate name (i + n) ∉ taken)
    (hbefore : ∀ j < n, candidate name (i + j) ∈ taken) (hfuel : n < fuel) :
    freeKey taken name fuel (candidate name i) (i + 2) = some (candidate name (i + n)) := by
  induction n generalizing i fuel with
  | zero =>
    obtain ⟨fuel, rfl⟩ := Nat.exists_eq_add_of_lt hfuel
    have hhere : candidate name i ∉ taken := hfree
    simp only [Nat.zero_add, freeKey, if_neg hhere, Nat.add_zero]
  | succ n ih =>
    cases fuel with
    | zero => cases hfuel
    | succ fuel =>
      have hhere : candidate name i ∈ taken := hbefore 0 (Nat.succ_pos n)
      have hnext := ih fuel (i := i + 1) (by rwa [Nat.add_right_comm, Nat.add_assoc])
        (fun j hj => by simpa [Nat.add_assoc, Nat.add_comm 1 j] using hbefore (j + 1) (Nat.succ_lt_succ hj))
        (Nat.lt_of_succ_lt_succ hfuel)
      rw [freeKey, if_pos hhere]
      rw [Nat.add_right_comm i 1 n] at hnext
      exact hnext

theorem freeKey_ok (taken : List Units) (name : Units) : ∃ i ≤ taken.length, candidate name i ∉ taken ∧
    (∀ j < i, candidate name j ∈ taken) ∧ ∀ fuel, taken.length < fuel →
      freeKey taken name fuel name 2 = some (candidate name i) := by
  have hex : ∃ i, candidate name i ∉ taken := (exists_free taken name).imp fun _ h => h.2
  obtain ⟨i, hi, hfree⟩ := exists_free taken name
  have hle : Nat.find hex ≤ taken.length := (Nat.find_min' hex hfree).trans hi
  have hbefore (j : Nat) (hj : j < Nat.find hex) : candidate name j ∈ taken := not_not.mp (Nat.find_min hex hj)
  refine ⟨Nat.find hex, hle, Nat.find_spec hex, hbefore, fun fuel hfuel => ?_⟩
  have heq := freeKey_eq fuel (i := 0) (n := Nat.find hex) (by simpa using Nat.find_spec hex)
    (by simpa using hbefore) (hle.trans_lt hfuel)
  simpa [candidate] using heq

theorem rowKeys_ok (taken names : List Units) (ht : taken.Nodup) : ∃ keys,
    (∀ fuel, taken.length + names.length < fuel + 1 → 0 < fuel → rowKeys fuel taken names = some keys) ∧
      keys.length = names.length ∧ (keys.reverse ++ taken).Nodup := by
  induction names generalizing taken with
  | nil => exact ⟨[], fun _ _ _ => rfl, rfl, ht⟩
  | cons name names ih =>
    obtain ⟨i, _, hfree, _, hkey⟩ := freeKey_ok taken name
    obtain ⟨keys, hkeys, hlength, hnodup⟩ := ih (candidate name i :: taken) (List.nodup_cons.mpr ⟨hfree, ht⟩)
    refine ⟨candidate name i :: keys, fun fuel hfuel hpos => ?_, by simp [hlength], by simpa using hnodup⟩
    rw [List.length_cons] at hfuel
    have hrest := hkeys fuel (by rw [List.length_cons]; omega) hpos
    simp [rowKeys, hkey fuel (by omega), hrest]

theorem fromEntries_of_nodup {entries : List (Units × JsonValue)} (h : (entries.map Prod.fst).Nodup) :
    fromEntries entries = entries := by
  have hfold (fields entries : List (Units × JsonValue)) (h : ((fields ++ entries).map Prod.fst).Nodup) :
      entries.foldl defineProperty fields = fields ++ entries := by
    induction entries generalizing fields with
    | nil => simp
    | cons field entries ih =>
      have hnew : field.1 ∉ fields.map Prod.fst := by
        rw [List.map_append, List.map_cons] at h
        exact fun hmem => List.disjoint_of_nodup_append h hmem List.mem_cons_self
      rw [List.foldl_cons, defineProperty, if_neg hnew, ih _ (by simpa using h), List.append_assoc]
      rfl
  exact hfold [] entries h

/-- Every column gets a key that no other has, after as many tries as there are columns at most,
and a row has the value of every column under it. -/
theorem row_keys_ok (names : List Units) : ∃ keys,
    (∀ fuel, names.length < fuel → postgresRowKeys fuel names = some keys) ∧
    keys.length = names.length ∧ keys.Nodup ∧
    ∀ columns : List ResultColumn, columns.map (·.key) = keys → ∀ values,
      readPostgresRow values columns =
        columns.mapIdx fun index column => (column.key, column.value values[index]?.join) := by
  obtain ⟨keys, hkeys, hlength, hnodup⟩ := rowKeys_ok [] names List.nodup_nil
  have hnodup : keys.Nodup := by simpa using hnodup
  refine ⟨keys, fun fuel hfuel => hkeys fuel (by simp; omega) (by omega), hlength, hnodup, ?_⟩
  rintro columns rfl values
  have hentries : (columns.mapIdx fun index column => (column.key, column.value values[index]?.join)).map Prod.fst =
      columns.map (·.key) := List.ext_getElem? fun i => by simp [Function.comp_def]
  exact fromEntries_of_nodup (hentries ▸ hnodup)

example : postgresRowKeys 4 [ascii "id", ascii "id", ascii "id_2"] = some [ascii "id", ascii "id_2", ascii "id_2_2"] := by
  decide

end Catalyst.Sql
