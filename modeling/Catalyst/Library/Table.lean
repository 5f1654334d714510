import Mathlib.Data.List.Forall2
import Mathlib.Data.List.Nodup
import Mathlib.Data.List.Count
import Mathlib.Algebra.BigOperators.Group.List.Basic
import Mathlib.Tactic.Abel

/-!
# Tables

A table is a list of rows. `updateWhere` is an UPDATE with its WHERE clause,
`deleteWhere` a DELETE. Most facts about a table are counts (at most so many
rows with a property), and a change that moves each row by a relation moves
every count with it.
-/

namespace Catalyst.Library

variable {α : Type}

def updateWhere (p : α → Prop) [DecidablePred p] (f : α → α) (t : List α) : List α :=
  t.map fun r => if p r then f r else r

def deleteWhere (p : α → Prop) [DecidablePred p] (t : List α) : List α :=
  t.filter fun r => ¬ p r

def count (p : α → Prop) [DecidablePred p] (t : List α) : Nat := t.countP fun r => p r

section updateWhere

variable {p : α → Prop} [DecidablePred p] {f : α → α} {t : List α}

theorem updateWhere_cons : updateWhere p f (x :: t)
    = (if p x then f x else x) :: updateWhere p f t := rfl

theorem mem_updateWhere : r ∈ updateWhere p f t ↔ ∃ x ∈ t, r = if p x then f x else x := by
  simp only [updateWhere, List.mem_map]
  exact ⟨fun ⟨x, hx, h⟩ => ⟨x, hx, h.symm⟩, fun ⟨x, hx, h⟩ => ⟨x, hx, h.symm⟩⟩

theorem mem_updateWhere_of_mem (hx : x ∈ t) (hp : p x) : f x ∈ updateWhere p f t :=
  mem_updateWhere.mpr ⟨x, hx, by rw [if_pos hp]⟩

theorem mem_updateWhere_of_not (hx : x ∈ t) (hp : ¬ p x) : x ∈ updateWhere p f t :=
  mem_updateWhere.mpr ⟨x, hx, by rw [if_neg hp]⟩

theorem updateWhere_eq_self (h : ∀ r ∈ t, ¬ p r) : updateWhere p f t = t := by
  unfold updateWhere
  conv => rhs; rw [← List.map_id t]
  exact List.map_congr_left fun r hr => by simp [h r hr]

theorem map_updateWhere (key : α → β) (hk : ∀ r, p r → key (f r) = key r) :
    (updateWhere p f t).map key = t.map key := by
  simp only [updateWhere, List.map_map]
  refine List.map_congr_left fun r _ => ?_
  by_cases h : p r
  · simp [h, hk r h]
  · simp [h]

theorem flatMap_returning {β : Type} (children : α → List β) :
    ((t.filter p).map f).flatMap children
      = t.flatMap fun r => if p r then children (f r) else [] := by
  induction t with
  | nil => rfl
  | cons x xs ih =>
    by_cases h : p x
    · simp [h, ih]
    · simp [h, ih]

theorem flatMap_updateWhere {β : Type} {g : α → List β}
    (hg : ∀ r ∈ t, p r → g (f r) = g r) : (updateWhere p f t).flatMap g = t.flatMap g := by
  rw [updateWhere, List.flatMap_map]
  refine List.flatMap_congr fun r hr => ?_
  by_cases h : p r
  · simp [h, hg r hr h]
  · simp [h]

/-- Row by row, an update either leaves a row or moves it by `f`. -/
theorem forall₂_updateWhere {R : α → α → Prop} (hrefl : ∀ r ∈ t, R r r)
    (hf : ∀ r ∈ t, p r → R r (f r)) : List.Forall₂ R t (updateWhere p f t) := by
  unfold updateWhere
  rw [List.forall₂_map_right_iff, List.forall₂_same]
  intro r hr
  by_cases h : p r
  · simpa [h] using hf r hr h
  · simpa [h] using hrefl r hr

end updateWhere

section counts

variable {p q : α → Prop} [DecidablePred p] [DecidablePred q] {t t' : List α}

@[simp] theorem count_nil : count p [] = 0 := rfl

theorem count_cons : count p (r :: t) = count p t + if p r then 1 else 0 := by
  simp [count, List.countP_cons]

theorem count_append : count p (t ++ t') = count p t + count p t' := by
  simp [count, List.countP_append]

theorem count_eq_zero : count p t = 0 ↔ ∀ r ∈ t, ¬ p r := by simp [count, List.countP_eq_zero]

theorem count_pos (hr : r ∈ t) (hp : p r) : 0 < count p t :=
  List.countP_pos_iff.mpr ⟨r, hr, by simpa using hp⟩

theorem count_le_of_forall₂ (h : List.Forall₂ (fun r r' => q r' → p r) t t') :
    count q t' ≤ count p t := by
  induction h with
  | nil => exact Nat.le_refl _
  | cons hr _ ih =>
    simp only [count_cons]
    split <;> split <;> first | omega | exact absurd (hr ‹_›) ‹_›

theorem eq_of_count_le_one (h : count p t ≤ 1) (hr : r ∈ t) (hr' : r' ∈ t) (hp : p r)
    (hp' : p r') : r = r' := by
  induction t with
  | nil => simp at hr
  | cons x xs ih =>
    rw [count_cons] at h
    rcases List.mem_cons.mp hr with rfl | hx <;> rcases List.mem_cons.mp hr' with rfl | hx'
    · rfl
    · have := count_pos hx' hp'
      simp only [hp, if_true] at h
      omega
    · have := count_pos hx hp
      simp only [hp', if_true] at h
      omega
    · exact ih (by omega) hx hx'

theorem forall₂_mem_right {β : Type} {R : α → β → Prop} {rs : List β} {r' : β}
    (h : List.Forall₂ R t rs) (hr : r' ∈ rs) : ∃ r ∈ t, R r r' := by
  induction h with
  | nil => simp at hr
  | cons hx _ ih =>
    rcases List.mem_cons.mp hr with rfl | hr
    · exact ⟨_, List.mem_cons_self, hx⟩
    · obtain ⟨r, hm, h⟩ := ih hr
      exact ⟨r, List.mem_cons_of_mem _ hm, h⟩

theorem forall₂_mem_left {β : Type} {R : α → β → Prop} {rs : List β} (h : List.Forall₂ R t rs)
    (hr : r ∈ t) : ∃ r' ∈ rs, R r r' := forall₂_mem_right h.flip hr

theorem forall₂_comp {R S T : α → α → Prop} (h₁ : List.Forall₂ R t t')
    (h₂ : List.Forall₂ S t' t'') (h : ∀ x y z, R x y → S y z → T x z) : List.Forall₂ T t t'' := by
  induction h₁ generalizing t'' with
  | nil => cases h₂; exact .nil
  | cons hx _ ih =>
    cases h₂ with
    | cons hy h₂ => exact .cons (h _ _ _ hx hy) (ih h₂)

end counts

section keys

variable {κ : Type} {key : α → κ} {t t' : List α}

theorem map_eq_of_forall₂ (h : List.Forall₂ (fun r r' => key r' = key r) t t') :
    t'.map key = t.map key := by
  induction h with
  | nil => rfl
  | cons hr _ ih => rw [List.map_cons, List.map_cons, hr, ih]

theorem eq_of_key (hk : (t.map key).Nodup) (hr : r ∈ t) (hr' : r' ∈ t) (h : key r = key r') :
    r = r' := List.inj_on_of_nodup_map hk hr hr' h

theorem flatMap_eq_of_key {β : Type} {g : α → List β} (hk : (t.map key).Nodup) (hx : x ∈ t)
    (h : ∀ y ∈ t, key y ≠ key x → g y = []) : t.flatMap g = g x := by
  induction t with
  | nil => cases hx
  | cons y ys ih =>
    rw [List.map_cons, List.nodup_cons] at hk
    rcases List.mem_cons.mp hx with rfl | hx
    · have hys : ys.flatMap g = [] := by
        refine List.flatMap_eq_nil_iff.mpr fun z hz => h z (List.mem_cons_of_mem _ hz) fun he => ?_
        exact hk.1 (he ▸ List.mem_map_of_mem hz)
      rw [List.flatMap_cons, hys, List.append_nil]
    · have hy : g y = [] := h y List.mem_cons_self fun he => hk.1 (he ▸ List.mem_map_of_mem hx)
      rw [List.flatMap_cons, hy, List.nil_append]
      exact ih hk.2 hx fun z hz => h z (List.mem_cons_of_mem _ hz)

theorem nodup_map_filterMap {g : α → Option β} {name : β → ν} (hk : (t.map key).Nodup)
    (h : ∀ a ∈ t, ∀ b ∈ t, ∀ x ∈ g a, ∀ y ∈ g b, name x = name y → key a = key b) :
    ((t.filterMap g).map name).Nodup := by
  have hk : t.Pairwise fun a b => key a ≠ key b := List.pairwise_map.mp hk
  refine List.pairwise_map.mpr (List.pairwise_filterMap.mpr (hk.imp_of_mem ?_))
  intro a b ha hb hne x hx y hy he
  exact hne (h a ha b hb x hx y hy he)

theorem eq_of_nodup_filterMap {g : α → Option β} (h : (t.filterMap g).Nodup) (hr : r ∈ t) (hr' : r' ∈ t)
    (hg : g r = some b) (hg' : g r' = some b) : r = r' := by
  induction t with
  | nil => cases hr
  | cons x xs ih =>
    have hmem : ∀ y ∈ xs, g y = some b → b ∈ xs.filterMap g := fun y hy hgy => List.mem_filterMap.mpr ⟨y, hy, hgy⟩
    rcases List.mem_cons.mp hr with rfl | hx <;> rcases List.mem_cons.mp hr' with rfl | hx'
    · rfl
    · rw [List.filterMap_cons_some hg, List.nodup_cons] at h
      exact absurd (hmem r' hx' hg') h.1
    · rw [List.filterMap_cons_some hg', List.nodup_cons] at h
      exact absurd (hmem r hx hg) h.1
    · exact ih (h.sublist ((List.sublist_cons_self x xs).filterMap g)) hx hx'

theorem filter_eq_singleton {p : α → Prop} [DecidablePred p] (hk : (t.map key).Nodup)
    (hp : ∀ x ∈ t, p x → key x = k) (h : x ∈ t) (hx : p x) : t.filter p = [x] := by
  induction t with
  | nil => cases h
  | cons y ys ih =>
    rw [List.map_cons, List.nodup_cons] at hk
    rcases List.mem_cons.mp h with rfl | h
    · rw [List.filter_cons_of_pos (by simpa using hx), List.filter_eq_nil_iff.mpr]
      intro z hz hpz
      have hkz := hp z (List.mem_cons_of_mem _ hz) (by simpa using hpz)
      exact hk.1 (List.mem_map.mpr ⟨z, hz, hkz.trans (hp x List.mem_cons_self hx).symm⟩)
    · have hy : ¬ p y := fun hy => by
        have hky := hp y List.mem_cons_self hy
        have hkx := hp x (List.mem_cons_of_mem _ h) hx
        exact hk.1 (List.mem_map.mpr ⟨x, h, hkx.trans hky.symm⟩)
      rw [List.filter_cons_of_neg (by simpa using hy)]
      exact ih hk.2 (fun z hz => hp z (List.mem_cons_of_mem _ hz)) h

variable [DecidableEq κ]

theorem filter_flatMap_key {β : Type} {childKey : β → κ} {children : α → List β}
    (hk : (t.map key).Nodup) (hc : ∀ x ∈ t, ∀ b ∈ children x, childKey b = key x) (hx : x ∈ t) :
    (t.flatMap children).filter (fun b => childKey b = key x) = children x := by
  have hnone : ∀ (ys : List α), (∀ y ∈ ys, ∀ b ∈ children y, childKey b = key y) →
      key x ∉ ys.map key → (ys.flatMap children).filter (fun b => childKey b = key x) = [] := by
    intro ys hys hn
    rw [List.filter_eq_nil_iff]
    intro b hb hkb
    obtain ⟨y, hy, hb⟩ := List.mem_flatMap.mp hb
    have hkb : childKey b = key x := by simpa using hkb
    exact hn (List.mem_map.mpr ⟨y, hy, (hys y hy b hb).symm.trans hkb⟩)
  induction t with
  | nil => cases hx
  | cons y ys ih =>
    rw [List.map_cons, List.nodup_cons] at hk
    have hys : ∀ z ∈ ys, ∀ b ∈ children z, childKey b = key z :=
      fun z hz => hc z (List.mem_cons_of_mem _ hz)
    rw [List.flatMap_cons, List.filter_append]
    rcases List.mem_cons.mp hx with rfl | hx
    · rw [hnone ys hys hk.1, List.append_nil, List.filter_eq_self]
      intro b hb
      simpa using hc x List.mem_cons_self b hb
    · have hne : key y ≠ key x := fun he => hk.1 (List.mem_map.mpr ⟨x, hx, he.symm⟩)
      rw [ih hk.2 hys hx, List.filter_eq_nil_iff.mpr, List.nil_append]
      intro b hb hkb
      have hkb : childKey b = key x := by simpa using hkb
      exact hne ((hc y List.mem_cons_self b hb).symm.trans hkb)

theorem updateWhere_key_of_mem (hk : (t.map key).Nodup) (hx : x ∈ t) {f : α → α} :
    r ∈ updateWhere (fun y => key y = key x) f t ↔ (r = f x ∨ (r ∈ t ∧ key r ≠ key x)) := by
  rw [mem_updateWhere]
  constructor
  · rintro ⟨y, hy, rfl⟩
    by_cases h : key y = key x
    · have hxy : y = x := eq_of_key hk hy hx h
      subst hxy; simp
    · simp [h, hy]
  · rintro (rfl | ⟨hr, h⟩)
    · exact ⟨x, hx, by simp⟩
    · exact ⟨r, hr, by simp [h]⟩

theorem flatMap_updateWhere_perm {β : Type} {f : α → α} {g : α → List β} {added : List β}
    (hk : (t.map key).Nodup) (hx : x ∈ t) (hg : g (f x) = g x ++ added) :
    ((updateWhere (fun y => key y = key x) f t).flatMap g).Perm (t.flatMap g ++ added) := by
  induction t with
  | nil => simp at hx
  | cons y ys ih =>
    rw [List.map_cons, List.nodup_cons] at hk
    rcases List.mem_cons.mp hx with rfl | hx
    · have hne : ∀ y ∈ ys, ¬ key y = key x := fun y hy he => hk.1 (List.mem_map.mpr ⟨y, hy, he⟩)
      have hys := updateWhere_eq_self (p := fun y => key y = key x) (f := f) hne
      rw [updateWhere_cons, if_pos rfl, hys, List.flatMap_cons, List.flatMap_cons, hg, List.append_assoc,
        List.append_assoc]
      exact List.perm_append_comm.append_left _
    · have hne : key y ≠ key x := fun he => hk.1 (he ▸ List.mem_map.mpr ⟨x, hx, rfl⟩)
      rw [updateWhere_cons, if_neg hne, List.flatMap_cons, List.flatMap_cons, List.append_assoc]
      exact (ih hk.2 hx).append_left _

theorem count_updateWhere_key_le {q : α → Prop} [DecidablePred q] {f : α → α} {k : κ}
    (hk : (t.map key).Nodup) :
    count q (updateWhere (fun y => key y = k) f t) ≤ count q t + 1 := by
  induction t with
  | nil => simp [updateWhere]
  | cons x xs ih =>
    rw [List.map_cons, List.nodup_cons] at hk
    by_cases h : key x = k
    · have hne : ∀ y ∈ xs, ¬ key y = k := fun y hy hyk =>
        hk.1 (List.mem_map.mpr ⟨y, hy, hyk.trans h.symm⟩)
      have hxs := updateWhere_eq_self (p := fun y => key y = k) (f := f) hne
      rw [updateWhere_cons, hxs, if_pos h, count_cons, count_cons]
      split <;> split <;> omega
    · have := ih hk.2
      rw [updateWhere_cons, if_neg h, count_cons, count_cons]
      omega

end keys

section upsert

variable {κ : Type} [DecidableEq κ] {key : α → κ} {t : List α} {row : α}

def upsert (key : α → κ) (row : α) (t : List α) : List α :=
  if ∃ r ∈ t, key r = key row then updateWhere (fun r => key r = key row) (fun _ => row) t
  else row :: t

theorem mem_upsert : r ∈ upsert key row t ↔ r = row ∨ (r ∈ t ∧ key r ≠ key row) := by
  unfold upsert
  split
  · rename_i h
    obtain ⟨x, hx, hk⟩ := h
    rw [mem_updateWhere]
    constructor
    · rintro ⟨y, hy, rfl⟩
      by_cases hyk : key y = key row
      · simp [hyk]
      · simp [hyk, hy]
    · rintro (rfl | ⟨hr, hrk⟩)
      · exact ⟨x, hx, by simp [hk]⟩
      · exact ⟨r, hr, by simp [hrk]⟩
  · rename_i h
    rw [List.mem_cons]
    exact or_congr_right ⟨fun hr => ⟨hr, fun hk => h ⟨r, hr, hk⟩⟩, And.left⟩

/-- The rows of one part of the table, where the key tells the part, after a row of that part. -/
theorem filter_upsert_of_pos {p : α → Prop} [DecidablePred p] (hp : ∀ r, key r = key row → p r) :
    (upsert key row t).filter p = upsert key row (t.filter p) := by
  have hrow : p row := hp row rfl
  have hmem : (∃ r ∈ t.filter p, key r = key row) ↔ ∃ r ∈ t, key r = key row := by
    constructor
    · rintro ⟨r, hr, he⟩
      exact ⟨r, List.mem_of_mem_filter hr, he⟩
    · rintro ⟨r, hr, he⟩
      exact ⟨r, List.mem_filter.mpr ⟨hr, by simpa using hp r he⟩, he⟩
  unfold upsert
  by_cases h : ∃ r ∈ t, key r = key row
  · rw [if_pos h, if_pos (hmem.mpr h)]
    clear h hmem
    induction t with
    | nil => rfl
    | cons r t ih =>
      by_cases he : key r = key row
      · simp [updateWhere_cons, he, hrow, hp r he, ih]
      · by_cases hpr : p r
        · simp [updateWhere_cons, he, hpr, ih]
        · simp [updateWhere_cons, he, hpr, ih]
  · rw [if_neg h, if_neg (mt hmem.mp h), List.filter_cons_of_pos (by simpa using hrow)]

theorem filter_upsert_of_neg {p : α → Prop} [DecidablePred p] (hp : ∀ r, key r = key row → ¬ p r) :
    (upsert key row t).filter p = t.filter p := by
  have hrow : ¬ p row := hp row rfl
  unfold upsert
  split
  · rename_i h
    clear h
    induction t with
    | nil => rfl
    | cons r t ih =>
      by_cases he : key r = key row
      · simp [updateWhere_cons, he, hrow, hp r he, ih]
      · by_cases hpr : p r
        · simp [updateWhere_cons, he, hpr, ih]
        · simp [updateWhere_cons, he, hpr, ih]
  · rw [List.filter_cons_of_neg (by simpa using hrow)]

theorem nodup_upsert (hk : (t.map key).Nodup) : ((upsert key row t).map key).Nodup := by
  unfold upsert
  split
  · rw [map_updateWhere key fun r hr => hr.symm]
    exact hk
  · rename_i h
    refine List.nodup_cons.mpr ⟨fun hm => ?_, hk⟩
    obtain ⟨r, hr, hrk⟩ := List.mem_map.mp hm
    exact h ⟨r, hr, hrk⟩

end upsert

section lookup

variable {κ : Type} [DecidableEq κ] {key : α → κ} {t : List α}

theorem find?_key_eq_some (hk : (t.map key).Nodup) :
    t.find? (fun r => key r = k) = some x ↔ x ∈ t ∧ key x = k := by
  constructor
  · intro h
    exact ⟨List.mem_of_find?_eq_some h, by simpa using List.find?_some h⟩
  · rintro ⟨hx, rfl⟩
    cases h : t.find? (fun r => key r = key x) with
    | none =>
      rw [List.find?_eq_none] at h
      simpa using h x hx
    | some y =>
      have hy : key y = key x := by simpa using List.find?_some h
      rw [eq_of_key hk (List.mem_of_find?_eq_some h) hx hy]

theorem find?_key_eq_none : t.find? (fun r => key r = k) = none ↔ ∀ r ∈ t, key r ≠ k := by
  simp [List.find?_eq_none]

theorem find?_updateWhere_key {f : α → α} (hf : ∀ r, key (f r) = key r) :
    (updateWhere (fun r => key r = k) f t).find? (fun r => key r = k') =
      (t.find? (fun r => key r = k')).map fun r => if k = k' then f r else r := by
  induction t with
  | nil => rfl
  | cons r t ih =>
    rw [updateWhere_cons, List.find?_cons, List.find?_cons, ih]
    by_cases hr : key r = k
    · by_cases hk : k = k'
      · simp [hr, hf, hk]
      · simp [hr, hf, hk]
    · rw [if_neg hr]
      by_cases hk : key r = k'
      · have hne : k ≠ k' := fun h => hr (hk.trans h.symm)
        simp [hk, hne]
      · simp [hk]

theorem find?_updateWhere_key_ne {f : α → α} (hf : ∀ r, key (f r) = key r) (h : k ≠ k') :
    (updateWhere (fun r => key r = k) f t).find? (fun r => key r = k') = t.find? (fun r => key r = k') := by
  simp [find?_updateWhere_key hf, h]

end lookup

section total

variable {A κ : Type} {p q : α → Prop} [DecidablePred p] [DecidablePred q] {f : α → A} {key : α → κ} {t t' : List α}

def total [AddMonoid A] (p : α → Prop) [DecidablePred p] (f : α → A) (t : List α) : A :=
  (t.map fun r => if p r then f r else 0).sum

theorem total_cons [AddMonoid A] : total p f (r :: t) = (if p r then f r else 0) + total p f t := by
  simp [total]

theorem total_congr [AddMonoid A] (h : ∀ r ∈ t, p r ↔ q r) : total p f t = total q f t := by
  unfold total
  congr 1
  exact List.map_congr_left fun r hr => by simp [h r hr]

/-- A statement that moves the one row of a key moves a sum by that row's part. -/
theorem total_updateWhere [AddCommGroup A] [DecidablePred u] (hk : (t.map key).Nodup) (hx : x ∈ t)
    (hu : ∀ r ∈ t, u r ↔ r = x) {g : α → α} :
    total p f (updateWhere u g t)
      = total p f t + ((if p (g x) then f (g x) else 0) - if p x then f x else 0) := by
  induction t with
  | nil => cases hx
  | cons y ys ih =>
    rw [List.map_cons, List.nodup_cons] at hk
    rw [updateWhere_cons, total_cons, total_cons]
    by_cases hy : y = x
    · subst hy
      have hne : ∀ r ∈ ys, ¬ u r := fun r hr hur => by
        obtain rfl := (hu r (List.mem_cons_of_mem _ hr)).mp hur
        exact hk.1 (List.mem_map_of_mem hr)
      rw [updateWhere_eq_self hne, if_pos ((hu y List.mem_cons_self).mpr rfl)]
      abel
    · have hxs : x ∈ ys := (List.mem_cons.mp hx).resolve_left fun h => hy h.symm
      rw [if_neg fun h => hy ((hu y List.mem_cons_self).mp h),
        ih hk.2 hxs fun r hr => hu r (List.mem_cons_of_mem _ hr)]
      abel

end total

section deleteWhere

variable {p : α → Prop} [DecidablePred p] {t : List α}

@[simp] theorem mem_deleteWhere : r ∈ deleteWhere p t ↔ r ∈ t ∧ ¬ p r := by
  simp [deleteWhere, List.mem_filter]

theorem flatMap_deleteWhere {β : Type} {g : α → List β} (hg : ∀ r ∈ t, p r → g r = []) :
    (deleteWhere p t).flatMap g = t.flatMap g := by
  induction t with
  | nil => rfl
  | cons r t ih =>
    have ih := ih fun x hx => hg x (List.mem_cons_of_mem _ hx)
    by_cases h : p r
    · rw [deleteWhere, List.filter_cons_of_neg (by simpa using h), List.flatMap_cons, hg r List.mem_cons_self h]
      exact ih
    · rw [deleteWhere, List.filter_cons_of_pos (by simpa using h), List.flatMap_cons, List.flatMap_cons]
      exact congrArg _ ih

theorem map_deleteWhere_nodup (key : α → β) (h : (t.map key).Nodup) :
    ((deleteWhere p t).map key).Nodup :=
  h.sublist (List.filter_sublist.map key)

end deleteWhere

end Catalyst.Library
