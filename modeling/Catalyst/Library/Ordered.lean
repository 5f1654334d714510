import Mathlib.Data.List.Basic
import Mathlib.Data.List.Nodup

/-!
# Sets and maps that keep the order of their keys

A set made of a list keeps the first of equal elements, `List.eraseDups`. A map
is the list of its entries. Setting a key that is there replaces its value in
place; a new key goes to the end.
-/

namespace Catalyst.Library

theorem nodup_eraseDups [DecidableEq α] (l : List α) : l.eraseDups.Nodup := by
  induction h : l.length using Nat.strongRecOn generalizing l with
  | ind n ih =>
    cases l with
    | nil => simp
    | cons a l =>
      rw [List.eraseDups_cons, List.nodup_cons]
      have hlt : (l.filter fun b => !b == a).length < n := by
        rw [← h]
        exact Nat.lt_succ_of_le (List.length_filter_le _ _)
      refine ⟨fun hm => ?_, ih _ hlt _ rfl⟩
      simpa using (List.mem_filter.mp (List.mem_eraseDups.mp hm)).2

abbrev OrderedMap (κ ν : Type) := List (κ × ν)

namespace OrderedMap

variable {α κ ν : Type} [DecidableEq κ]

def get? : OrderedMap κ ν → κ → Option ν
  | [], _ => none
  | (k, v) :: m, key => if k = key then some v else get? m key

def set : OrderedMap κ ν → κ → ν → OrderedMap κ ν
  | [], key, value => [(key, value)]
  | (k, v) :: m, key, value => if k = key then (k, value) :: m else (k, v) :: set m key value

def keys (m : OrderedMap κ ν) : List κ := m.map Prod.fst

def values (m : OrderedMap κ ν) : List ν := m.map Prod.snd

def erase (m : OrderedMap κ ν) (key : κ) : OrderedMap κ ν := m.filter (·.1 ≠ key)

def has (m : OrderedMap κ ν) (key : κ) : Bool := (get? m key).isSome

def setAll (k : α → Option κ) (v : α → ν) (l : List α) (m : OrderedMap κ ν) : OrderedMap κ ν :=
  l.foldl (fun m a => match k a with
    | some key => set m key (v a)
    | none => m) m

@[simp] theorem get?_nil : get? ([] : OrderedMap κ ν) key = none := rfl

@[simp] theorem get?_set_self (m : OrderedMap κ ν) : get? (set m key v) key = some v := by
  induction m with
  | nil => simp [set, get?]
  | cons e m ih =>
    obtain ⟨k, w⟩ := e
    by_cases h : k = key
    · simp [set, get?, h]
    · simp [set, get?, h, ih]

theorem get?_set_of_ne {m : OrderedMap κ ν} (h : k ≠ key) :
    get? (set m k v) key = get? m key := by
  induction m with
  | nil => simp [set, get?, h]
  | cons e m ih =>
    obtain ⟨k', w⟩ := e
    by_cases hk : k' = k
    · subst hk
      simp [set, get?, h]
    · by_cases hk' : k' = key
      · subst hk'
        simp [set, get?, hk]
      · simp [set, get?, hk, hk', ih]

theorem mem_keys_iff {m : OrderedMap κ ν} : key ∈ keys m ↔ has m key := by
  induction m with
  | nil => simp [keys, has]
  | cons e m ih =>
    obtain ⟨k, v⟩ := e
    by_cases h : k = key
    · simp [keys, has, get?, h]
    · have hne : key ≠ k := fun hk => h hk.symm
      simpa [keys, has, get?, h, hne] using ih

theorem get?_setAll (k : α → Option κ) (v : α → ν) (l : List α) (m : OrderedMap κ ν) :
    get? (setAll k v l m) key =
      (((l.filter (k · = some key)).getLast?.map v).or (get? m key)) := by
  induction l generalizing m with
  | nil => simp [setAll]
  | cons a l ih =>
    rw [setAll, List.foldl_cons]
    refine (ih _).trans ?_
    by_cases h : k a = some key
    · rw [List.filter_cons_of_pos (by simpa using h), h]
      cases hl : l.filter (k · = some key) with
      | nil => simp
      | cons b r => simp [List.getLast?_cons]
    · rw [List.filter_cons_of_neg (by simpa using h)]
      cases hk : k a with
      | none => rfl
      | some key' => simp only [get?_set_of_ne fun he : key' = key => h (hk.trans (congrArg some he))]

theorem has_setAll (k : α → Option κ) (v : α → ν) (l : List α) :
    has (setAll k v l []) key ↔ ∃ a ∈ l, k a = some key := by
  rw [has, get?_setAll]
  cases hl : (l.filter (k · = some key)).getLast? with
  | none =>
    rw [List.getLast?_eq_none_iff, List.filter_eq_nil_iff] at hl
    simpa using hl
  | some a =>
    have ha := List.mem_of_getLast? hl
    rw [List.mem_filter] at ha
    simpa using ⟨a, ha.1, by simpa using ha.2⟩

theorem get?_erase_self (m : OrderedMap κ ν) : get? (erase m key) key = none := by
  induction m with
  | nil => rfl
  | cons e m ih =>
    obtain ⟨k, v⟩ := e
    by_cases h : k = key
    · simpa [erase, h] using ih
    · simpa [erase, h, get?] using ih

theorem get?_erase_of_ne {m : OrderedMap κ ν} (h : k ≠ key) :
    get? (erase m k) key = get? m key := by
  induction m with
  | nil => rfl
  | cons e m ih =>
    obtain ⟨k', v⟩ := e
    by_cases hk : k' = k
    · subst hk
      simpa [erase, get?, h] using ih
    · by_cases hk' : k' = key
      · subst hk'
        simp [erase, get?, hk]
      · simpa [erase, get?, hk, hk'] using ih

theorem mem_of_get? {m : OrderedMap κ ν} (h : get? m key = some v) : (key, v) ∈ m := by
  induction m with
  | nil => cases h
  | cons e m ih =>
    obtain ⟨k, w⟩ := e
    by_cases hk : k = key
    · simp only [get?, hk, if_true, Option.some.injEq] at h
      simp [hk, h]
    · simp only [get?, hk, if_false] at h
      exact List.mem_cons_of_mem _ (ih h)

theorem mem_set {m : OrderedMap κ ν} (h : e ∈ set m key v) : e = (key, v) ∨ e ∈ m := by
  induction m with
  | nil => simpa [set] using h
  | cons e' m ih =>
    obtain ⟨k, w⟩ := e'
    by_cases hk : k = key
    · subst hk
      rw [set, if_pos rfl, List.mem_cons] at h
      exact h.imp_right (List.mem_cons_of_mem _)
    · rw [set, if_neg hk, List.mem_cons] at h
      rcases h with rfl | h
      · exact .inr List.mem_cons_self
      · exact (ih h).imp_right (List.mem_cons_of_mem _)

theorem nodup_keys_set {m : OrderedMap κ ν} (h : (keys m).Nodup) : (keys (set m key v)).Nodup := by
  induction m with
  | nil => simp [set, keys]
  | cons e m ih =>
    obtain ⟨k, w⟩ := e
    obtain ⟨hk, hm⟩ := List.nodup_cons.mp h
    by_cases he : k = key
    · subst he
      rw [set, if_pos rfl]
      exact h
    · rw [set, if_neg he]
      refine List.nodup_cons.mpr ⟨fun hmem => ?_, ih hm⟩
      obtain ⟨e, hes, hek⟩ := List.mem_map.mp hmem
      rcases mem_set hes with rfl | hes
      · exact he hek.symm
      · exact hk (hek ▸ List.mem_map_of_mem hes)

structure Indexed (name : ν → κ) (m : OrderedMap κ ν) : Prop where
  nodup : (keys m).Nodup
  named : ∀ e ∈ m, name e.2 = e.1

namespace Indexed

variable {name : ν → κ} {m : OrderedMap κ ν}

omit [DecidableEq κ] in
theorem nil : Indexed name [] := ⟨List.nodup_nil, by simp⟩

theorem set (h : Indexed name m) (hv : name v = key) : Indexed name (m.set key v) where
  nodup := nodup_keys_set h.nodup
  named e he := by
    rcases mem_set he with rfl | he
    · exact hv
    · exact h.named e he

theorem erase (h : Indexed name m) : Indexed name (m.erase key) where
  nodup := h.nodup.sublist (List.filter_sublist.map _)
  named e he := h.named e (List.mem_of_mem_filter he)

theorem setAll (h : Indexed name m) (l : List ν) :
    Indexed name (OrderedMap.setAll (fun v => some (name v)) id l m) := by
  induction l generalizing m with
  | nil => exact h
  | cons v l ih => exact ih (h.set rfl)

omit [DecidableEq κ] in
theorem map_values (h : Indexed name m) : m.values.map name = m.keys := by
  rw [values, keys, List.map_map]
  exact List.map_congr_left h.named

theorem mem_values (h : Indexed name m) : v ∈ m.values ↔ get? m (name v) = some v := by
  constructor
  · intro hv
    have hhas : has m (name v) := mem_keys_iff.mp (h.map_values ▸ List.mem_map_of_mem hv)
    obtain ⟨w, hw⟩ := Option.isSome_iff_exists.mp hhas
    have hm := mem_of_get? hw
    have hwv : w ∈ m.values := List.mem_map.mpr ⟨_, hm, rfl⟩
    have hnodup : (m.values.map name).Nodup := h.map_values ▸ h.nodup
    rw [hw, List.inj_on_of_nodup_map hnodup hwv hv (h.named _ hm)]
  · intro hg
    exact List.mem_map.mpr ⟨_, mem_of_get? hg, rfl⟩

end Indexed

end OrderedMap

end Catalyst.Library
