import Catalyst.Library.Table
import Mathlib.Data.List.Dedup

/-!
# Sums kept by key

A table of running sums has one row a key, and statements only ever add to it: a key that has a
row grows, a key that has none gets one. What the table holds of a key is then the sum of what
was added, whatever the order and whichever statements brought it.
-/

namespace Catalyst.Library

section total

variable {α A : Type} {p : α → Prop} [DecidablePred p] {f : α → A} {t t' : List α}

theorem total_append [AddMonoid A] : total p f (t ++ t') = total p f t + total p f t' := by
  simp [total, List.sum_append]

theorem total_eq_zero [AddMonoid A] (h : ∀ r ∈ t, ¬ p r) : total p f t = 0 := by
  induction t with
  | nil => rfl
  | cons r rs ih =>
    rw [total_cons, if_neg (h r List.mem_cons_self), ih fun x hx => h x (List.mem_cons_of_mem _ hx), zero_add]

theorem total_select [AddMonoid A] {β : Type} {q : β → Prop} [DecidablePred q] {g : β → A} {select : α → β} :
    total q g ((t.filter p).map select) = total (fun r => p r ∧ q (select r)) (fun r => g (select r)) t := by
  induction t with
  | nil => rfl
  | cons r rs ih =>
    rw [total_cons, ← ih]
    by_cases hp : p r
    · simp [hp, total_cons]
    · simp [hp]

end total

variable {κ A : Type} [DecidableEq κ] [AddCommGroup A] {k k' : κ} {a : A} {rows rows' : List (κ × A)}

def sumAt (k : κ) (rows : List (κ × A)) : A := total (fun r => r.1 = k) Prod.snd rows

def addAt (k : κ) (a : A) (rows : List (κ × A)) : List (κ × A) :=
  if k ∈ rows.map Prod.fst then updateWhere (fun r => r.1 = k) (fun r => (r.1, r.2 + a)) rows else rows ++ [(k, a)]

def addGrouped (changes rows : List (κ × A)) : List (κ × A) :=
  (changes.map Prod.fst).dedup.foldl (fun rows k => addAt k (sumAt k changes) rows) rows

def corrections [DecidableEq A] (ledger kept : List (κ × A)) : List (κ × A) :=
  let difference (k : κ) : Option A := if sumAt k ledger ≠ sumAt k kept then some (sumAt k ledger - sumAt k kept) else none
  ((ledger ++ kept).map Prod.fst).dedup.filterMap fun k => (difference k).map (k, ·)

@[simp] theorem sumAt_nil : sumAt k ([] : List (κ × A)) = 0 := rfl

theorem sumAt_cons {r : κ × A} : sumAt k (r :: rows) = (if r.1 = k then r.2 else 0) + sumAt k rows := total_cons

@[simp] theorem sumAt_append : sumAt k (rows ++ rows') = sumAt k rows + sumAt k rows' := total_append

theorem sumAt_eq_zero (h : k ∉ rows.map Prod.fst) : sumAt k rows = 0 :=
  total_eq_zero fun r hr he => h (List.mem_map.mpr ⟨r, hr, he⟩)

theorem sumAt_of_mem (hn : (rows.map Prod.fst).Nodup) (h : (k, a) ∈ rows) : sumAt k rows = a := by
  induction rows with
  | nil => cases h
  | cons r rs ih =>
    rw [List.map_cons, List.nodup_cons] at hn
    rw [sumAt_cons]
    rcases List.mem_cons.mp h with rfl | h
    · rw [if_pos rfl, sumAt_eq_zero hn.1, add_zero]
    · have hne : r.1 ≠ k := fun he => hn.1 (List.mem_map.mpr ⟨_, h, he.symm⟩)
      rw [if_neg hne, zero_add, ih hn.2 h]

theorem sumAt_select {α : Type} {p : α → Prop} [DecidablePred p] {select : α → κ × A} {t : List α} :
    sumAt k ((t.filter p).map select) = total (fun r => p r ∧ (select r).1 = k) (fun r => (select r).2) t := total_select

theorem sumAt_filter {p : κ → Prop} [DecidablePred p] :
    sumAt k (rows.filter fun r => p r.1) = if p k then sumAt k rows else 0 := by
  induction rows with
  | nil => simp
  | cons r rs ih =>
    by_cases hr : p r.1
    · rw [List.filter_cons_of_pos (by simpa using hr), sumAt_cons, sumAt_cons, ih]
      by_cases he : r.1 = k
      · simp [← he, hr]
      · simp [he]
    · rw [List.filter_cons_of_neg (by simpa using hr), sumAt_cons, ih]
      by_cases he : r.1 = k
      · simp [← he, hr]
      · simp [he]

theorem nodup_addAt (hn : (rows.map Prod.fst).Nodup) : ((addAt k a rows).map Prod.fst).Nodup := by
  unfold addAt
  split
  · have hmap : (updateWhere (fun r => r.1 = k) (fun r => (r.1, r.2 + a)) rows).map Prod.fst = rows.map Prod.fst :=
      map_updateWhere Prod.fst fun _ _ => rfl
    exact hmap ▸ hn
  · rename_i hk
    rw [List.map_append, List.nodup_append]
    refine ⟨hn, by simp, ?_⟩
    rintro x hx y hy rfl
    obtain rfl : x = k := by simpa using hy
    exact hk hx

theorem sumAt_addAt (hn : (rows.map Prod.fst).Nodup) :
    sumAt k' (addAt k a rows) = sumAt k' rows + if k = k' then a else 0 := by
  unfold addAt
  split
  · rename_i hk
    obtain ⟨r, hr, rfl⟩ := List.mem_map.mp hk
    have hone : ∀ x ∈ rows, x.1 = r.1 ↔ x = r := fun x hx => ⟨eq_of_key hn hx hr, fun h => h ▸ rfl⟩
    rw [sumAt, total_updateWhere hn hr hone, sumAt]
    by_cases he : r.1 = k' <;> simp [he]
  · rw [sumAt_append, sumAt_cons]
    simp

theorem nodup_addAll {ks : List κ} {f : κ → A} (hn : (rows.map Prod.fst).Nodup) :
    ((ks.foldl (fun rows k => addAt k (f k) rows) rows).map Prod.fst).Nodup := by
  induction ks generalizing rows with
  | nil => exact hn
  | cons x xs ih => exact ih (nodup_addAt hn)

theorem sumAt_addAll {ks : List κ} {f : κ → A} (hks : ks.Nodup) (hn : (rows.map Prod.fst).Nodup) :
    sumAt k (ks.foldl (fun rows k => addAt k (f k) rows) rows) = sumAt k rows + if k ∈ ks then f k else 0 := by
  induction ks generalizing rows with
  | nil => simp
  | cons x xs ih =>
    rw [List.nodup_cons] at hks
    rw [List.foldl_cons, ih hks.2 (nodup_addAt hn), sumAt_addAt hn, add_assoc]
    by_cases hx : x = k
    · subst hx
      simp [hks.1]
    · simp [hx, Ne.symm hx]

theorem nodup_addGrouped {changes : List (κ × A)} (hn : (rows.map Prod.fst).Nodup) :
    ((addGrouped changes rows).map Prod.fst).Nodup := nodup_addAll hn

theorem sumAt_addGrouped {changes : List (κ × A)} (hn : (rows.map Prod.fst).Nodup) :
    sumAt k (addGrouped changes rows) = sumAt k rows + sumAt k changes := by
  rw [addGrouped, sumAt_addAll (List.nodup_dedup _) hn]
  by_cases hk : k ∈ changes.map Prod.fst
  · rw [if_pos (List.mem_dedup.mpr hk)]
  · rw [if_neg fun h => hk (List.mem_dedup.mp h), sumAt_eq_zero hk]

theorem sumAt_filterMap {ks : List κ} {f : κ → Option A} (hks : ks.Nodup) :
    sumAt k (ks.filterMap fun x => (f x).map (x, ·)) = if k ∈ ks then (f k).getD 0 else 0 := by
  induction ks with
  | nil => rfl
  | cons x xs ih =>
    rw [List.nodup_cons] at hks
    by_cases hx : x = k
    · subst hx
      cases hf : f x <;> simp [hf, ih hks.2, hks.1, sumAt_cons]
    · cases hf : f x <;> simp [hf, ih hks.2, hx, Ne.symm hx, sumAt_cons]

theorem sumAt_corrections [DecidableEq A] {ledger kept : List (κ × A)} :
    sumAt k (corrections ledger kept) = sumAt k ledger - sumAt k kept := by
  rw [corrections, sumAt_filterMap (List.nodup_dedup _)]
  by_cases hk : k ∈ (ledger ++ kept).map Prod.fst
  · rw [if_pos (List.mem_dedup.mpr hk)]
    by_cases heq : sumAt k ledger = sumAt k kept <;> simp [heq]
  · rw [if_neg fun h => hk (List.mem_dedup.mp h)]
    rw [List.map_append, List.mem_append, not_or] at hk
    rw [sumAt_eq_zero hk.1, sumAt_eq_zero hk.2, sub_zero]

end Catalyst.Library
