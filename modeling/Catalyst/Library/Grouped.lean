import Mathlib
import Catalyst.Library.Ordered

/-!
# Values gathered by key

A map that is updated at the key of one element after another holds, for each key, what its own
elements make, and its keys in the order of their first elements.
-/

namespace Catalyst.Library.OrderedMap

variable {α κ ν : Type} [DecidableEq κ]

theorem get?_map (ks : List κ) (g : κ → ν) : get? (ks.map fun k => (k, g k)) key = if key ∈ ks then some (g key) else none := by
  induction ks with
  | nil => rfl
  | cons k ks ih =>
    by_cases h : k = key
    · simp [get?, h]
    · simp [get?, h, Ne.symm h, ih]

theorem set_map (ks : List κ) (g : κ → ν) (hks : ks.Nodup) :
    set (ks.map fun k => (k, g k)) key v =
      if key ∈ ks then ks.map fun k => (k, Function.update g key v k) else ks.map (fun k => (k, g k)) ++ [(key, v)] := by
  induction ks with
  | nil => rfl
  | cons k ks ih =>
    obtain ⟨hk, hks⟩ := List.nodup_cons.mp hks
    by_cases h : k = key
    · subst h
      have hrest : ks.map (fun j => (j, Function.update g k v j)) = ks.map fun j => (j, g j) := by
        refine List.map_congr_left fun j hj => ?_
        have hne : j ≠ k := by
          rintro rfl
          exact hk hj
        rw [Function.update_of_ne hne]
      simp [set, hrest]
    · rw [List.map_cons, set, if_neg h, ih hks]
      by_cases hmem : key ∈ ks
      · simp [hmem, h]
      · simp [hmem, Ne.symm h]

def grouped (key : α → κ) (f : ν → α → ν) (init : ν) (l : List α) : OrderedMap κ ν :=
  (l.map key).eraseDups.map fun k => (k, (l.filter (key · = k)).foldl f init)

theorem eraseDups_concat (l : List κ) (a : κ) : (l ++ [a]).eraseDups = if a ∈ l then l.eraseDups else l.eraseDups ++ [a] := by
  rw [List.eraseDups_append]
  by_cases h : a ∈ l
  · simp [h, List.removeAll]
  · simp [h, List.removeAll, List.eraseDups_cons]

theorem foldl_set_eq_grouped (key : α → κ) (f : ν → α → ν) (init : ν) (l : List α) :
    l.foldl (fun m a => set m (key a) (f ((get? m (key a)).getD init) a)) [] = grouped key f init l := by
  induction l using List.reverseRecOn with
  | nil => rfl
  | append_singleton l a ih =>
    have hstep : ∀ k, ((l ++ [a]).filter (key · = k)).foldl f init
        = Function.update (fun k => (l.filter (key · = k)).foldl f init) (key a)
          (f ((l.filter (key · = key a)).foldl f init) a) k := by
      intro k
      by_cases hk : k = key a
      · subst hk
        simp
      · rw [Function.update_of_ne hk]
        simp [Ne.symm hk]
    rw [List.foldl_concat, ih, grouped, get?_map, set_map _ _ (nodup_eraseDups _), grouped, List.map_append,
      List.map_singleton, eraseDups_concat]
    simp only [List.mem_eraseDups, hstep]
    by_cases h : key a ∈ l.map key
    · simp only [if_pos h, Option.getD_some]
    · have hempty : l.filter (key · = key a) = [] := by
        rw [List.filter_eq_nil_iff]
        intro b hb hbk
        exact h (List.mem_map.mpr ⟨b, hb, by simpa using hbk⟩)
      simp only [if_neg h, Option.getD_none, List.map_append, List.map_singleton, hempty, List.foldl_nil,
        Function.update_self]
      congr 1
      refine List.map_congr_left fun k hk => ?_
      have hne : k ≠ key a := by
        rintro rfl
        exact h (List.mem_eraseDups.mp hk)
      rw [Function.update_of_ne hne]

theorem perm_flatMap_filter (key : α → κ) {ks : List κ} (hks : ks.Nodup) {l : List α} (h : ∀ a ∈ l, key a ∈ ks) :
    (ks.flatMap fun k => l.filter (key · = k)).Perm l := by
  induction ks generalizing l with
  | nil =>
    obtain rfl : l = [] := List.eq_nil_iff_forall_not_mem.mpr fun a ha => List.not_mem_nil (h a ha)
    exact .nil
  | cons k ks ih =>
    obtain ⟨hk, hks⟩ := List.nodup_cons.mp hks
    have hothers : ∀ a ∈ l.filter fun a => !decide (key a = k), key a ∈ ks := by
      intro a ha
      obtain ⟨ha, hne⟩ := List.mem_filter.mp ha
      exact (List.mem_cons.mp (h a ha)).resolve_left (by simpa using hne)
    have hsame : (ks.flatMap fun k' => (l.filter fun a => !decide (key a = k)).filter (key · = k')) =
        ks.flatMap fun k' => l.filter (key · = k') := by
      refine List.flatMap_congr fun k' hk' => ?_
      rw [List.filter_filter]
      refine List.filter_congr fun a _ => ?_
      have hne : k' ≠ k := by
        rintro rfl
        exact hk hk'
      by_cases hkey : key a = k' <;> simp [hkey, hne]
    rw [List.flatMap_cons, ← hsame]
    exact ((ih hks hothers).append_left _).trans (List.filter_append_perm _ l)

theorem perm_groups (key : α → κ) (l : List α) :
    ((l.map key).eraseDups.flatMap fun k => l.filter (key · = k)).Perm l :=
  perm_flatMap_filter key (nodup_eraseDups _) fun _ ha => List.mem_eraseDups.mpr (List.mem_map_of_mem ha)

theorem groups_disjoint (key : α → κ) (l : List α) :
    ((l.map key).eraseDups.map fun k => l.filter (key · = k)).Pairwise List.Disjoint := by
  refine List.pairwise_map.mpr ((nodup_eraseDups (l.map key)).imp fun hne a ha ha' => hne ?_)
  have hkey := (List.mem_filter.mp ha).2
  have hkey' := (List.mem_filter.mp ha').2
  simp only [decide_eq_true_eq] at hkey hkey'
  exact hkey.symm.trans hkey'

end Catalyst.Library.OrderedMap
