import Mathlib

/-!
# Reading a table in the order of a key

Rows are read in batches, each from behind the key of the last row before it. With one row for each
key a batch starts where the one before it ended.
-/

namespace Catalyst.Library.Keyset

variable {α κ : Type} [LinearOrder κ] (key : α → κ)

def ordered (l : List α) : List α := l.mergeSort fun a b => decide (key a ≤ key b)

def behind (after : Option κ) (l : List α) : List α := l.filter fun a => decide (∀ k ∈ after, k < key a)

def page (limit : Nat) (after : Option κ) (l : List α) : List α × Option κ :=
  let eligible := behind key after (ordered key l)
  (eligible.take limit, if limit < eligible.length then (eligible.take limit).getLast?.map key else none)

inductive Pages (limit : Nat) (l : List α) : Option κ → List (List α) → Prop
  | last (h : (page key limit after l).2 = none) : Pages limit l after [(page key limit after l).1]
  | next (h : (page key limit after l).2 = some cursor) (hrest : Pages limit l (some cursor) pages) :
    Pages limit l after ((page key limit after l).1 :: pages)

variable {key} {l : List α} {a last : α} {after : Option κ} {p : α → Bool}

@[simp] theorem behind_none (l : List α) : behind key none l = l := by
  simp [behind]

theorem mem_behind : a ∈ behind key after l ↔ a ∈ l ∧ ∀ k ∈ after, k < key a := by
  simp [behind]

theorem ordered_perm (l : List α) : (ordered key l).Perm l := List.mergeSort_perm _ _

theorem pairwise_ordered (l : List α) : (ordered key l).Pairwise (key · ≤ key ·) := by
  have htrans (a b c : α) (hab : decide (key a ≤ key b)) (hbc : decide (key b ≤ key c)) : decide (key a ≤ key c) := by
    simp only [decide_eq_true_eq] at hab hbc ⊢
    exact hab.trans hbc
  have htotal (a b : α) : decide (key a ≤ key b) || decide (key b ≤ key a) := by
    simpa using le_total (key a) (key b)
  have hpairwise := List.pairwise_mergeSort htrans htotal l
  simp only [decide_eq_true_eq] at hpairwise
  exact hpairwise

theorem pairwise_lt_ordered (h : (l.map key).Nodup) : (ordered key l).Pairwise (key · < key ·) := by
  have hnodup : ((ordered key l).map key).Nodup := ((ordered_perm l).map key).nodup_iff.mpr h
  have hne : (ordered key l).Pairwise (key · ≠ key ·) := List.pairwise_map.mp hnodup
  exact (pairwise_ordered l).imp₂ (fun _ _ hle hne => lt_of_le_of_ne hle hne) hne

theorem ordered_filter (h : (l.map key).Nodup) : ordered key (l.filter p) = (ordered key l).filter p := by
  have hperm : (ordered key (l.filter p)).Perm ((ordered key l).filter p) :=
    (ordered_perm _).trans ((ordered_perm l).filter p).symm
  have hfilter : ((l.filter p).map key).Nodup := h.sublist (List.filter_sublist.map key)
  refine hperm.eq_of_pairwise ?_ (pairwise_lt_ordered hfilter) ((pairwise_lt_ordered h).filter p)
  exact fun a b _ _ hab hba => absurd hab hba.asymm

/-- What stands behind the last row of a batch is what is left behind the batch. -/
theorem behind_last (h : l.Pairwise (key · < key ·)) (hlast : (l.take n).getLast? = some last) :
    behind key (some (key last)) l = l.drop n := by
  obtain ⟨front, hfront⟩ := List.getLast?_eq_some_iff.mp hlast
  have hsplit : l = (front ++ [last]) ++ l.drop n := by
    rw [← hfront, List.take_append_drop]
  have hordered := h
  rw [hsplit, List.pairwise_append] at hordered
  obtain ⟨hbatch, -, hacross⟩ := hordered
  have hnone : behind key (some (key last)) (front ++ [last]) = [] := by
    rw [behind, List.filter_eq_nil_iff]
    intro a ha
    rcases List.mem_append.mp ha with ha | ha
    · have hlt : key a < key last := (List.pairwise_append.mp hbatch).2.2 a ha last List.mem_cons_self
      simpa using hlt.le
    · obtain rfl := List.mem_singleton.mp ha
      simp
  have hall : behind key (some (key last)) (l.drop n) = l.drop n := by
    rw [behind, List.filter_eq_self]
    intro b hb
    have hlt : key last < key b := hacross last (by simp) b hb
    simpa using hlt
  calc behind key (some (key last)) l
      = behind key (some (key last)) ((front ++ [last]) ++ l.drop n) := by rw [← hsplit]
    _ = l.drop n := by
      rw [behind, List.filter_append]
      change behind key (some (key last)) (front ++ [last]) ++ behind key (some (key last)) (l.drop n) = _
      rw [hnone, hall, List.nil_append]

theorem behind_behind (h : ∀ k ∈ after, k < later) : behind key (some later) (behind key after l) = behind key (some later) l := by
  rw [behind, behind, List.filter_filter, behind]
  refine List.filter_congr fun a _ => ?_
  rw [Bool.and_eq_left_iff_imp]
  intro ha
  simp only [Option.mem_def, Option.some.injEq, forall_eq', decide_eq_true_eq] at ha ⊢
  exact fun k hk => (h k hk).trans ha

theorem length_behind_lt (h : last ∈ behind key after l) :
    (behind key (some (key last)) l).length < (behind key after l).length := by
  rw [← behind_behind (mem_behind.mp h).2]
  exact List.length_filter_lt_length_iff_exists.mpr ⟨last, h, by simp⟩

theorem ordered_behind_last (h : (l.map key).Nodup) (hlast : ((ordered key (behind key after l)).take n).getLast? = some last) :
    ordered key (behind key (some (key last)) l) = (ordered key (behind key after l)).drop n := by
  have hbehind : ((behind key after l).map key).Nodup := h.sublist (List.filter_sublist.map key)
  have hmem : last ∈ behind key after l := (ordered_perm _).mem_iff.mp (List.mem_of_mem_take (List.mem_of_getLast? hlast))
  have hcomm : ordered key (behind key (some (key last)) (behind key after l)) =
      behind key (some (key last)) (ordered key (behind key after l)) := ordered_filter hbehind
  rw [← behind_last (pairwise_lt_ordered hbehind) hlast, ← hcomm, behind_behind (mem_behind.mp hmem).2]

theorem ordered_eq_self (h : l.Pairwise (key · < key ·)) : ordered key l = l :=
  (ordered_perm l).eq_of_pairwise (fun _ _ _ _ hab hba => absurd hab hba.asymm)
    (pairwise_lt_ordered (List.pairwise_map.mpr (h.imp ne_of_lt))) h

theorem ordered_toDual (h : (l.map key).Nodup) :
    ordered (fun a => OrderDual.toDual (key a)) l = (ordered key l).reverse := by
  have hdual : (l.map fun a => OrderDual.toDual (key a)).Nodup := by
    have hmap := h.map OrderDual.toDual.injective
    rwa [List.map_map] at hmap
  have hback : (ordered (fun a => OrderDual.toDual (key a)) l).Pairwise fun a b => key b < key a :=
    (pairwise_lt_ordered hdual).imp OrderDual.toDual_lt_toDual.mp
  have hreverse : (ordered key l).reverse.Pairwise fun a b => key b < key a :=
    List.pairwise_reverse.mpr (pairwise_lt_ordered h)
  refine ((ordered_perm l).trans ((List.reverse_perm _).trans (ordered_perm l)).symm).eq_of_pairwise ?_ hback hreverse
  exact fun a b _ _ hab hba => absurd hab hba.asymm

theorem behind_ordered (h : (l.map key).Nodup) : behind key after (ordered key l) = ordered key (behind key after l) :=
  (ordered_filter h).symm

theorem page_fst (h : (l.map key).Nodup) : (page key limit after l).1 = (ordered key (behind key after l)).take limit := by
  rw [page, behind_ordered h]

theorem page_none (hlimit : 0 < limit) (h : (l.map key).Nodup) (hnone : (page key limit after l).2 = none) :
    (ordered key (behind key after l)).length ≤ limit := by
  by_contra hmore
  rw [page, behind_ordered h] at hnone
  simp only [if_pos (Nat.not_le.mp hmore), Option.map_eq_none_iff, List.getLast?_eq_none_iff, List.take_eq_nil_iff] at hnone
  obtain rfl | hnil := hnone
  · exact absurd hlimit (Nat.lt_irrefl 0)
  · simp [hnil] at hmore

theorem page_some (h : (l.map key).Nodup) (hsome : (page key limit after l).2 = some cursor) : ∃ last,
    ((ordered key (behind key after l)).take limit).getLast? = some last ∧ cursor = key last := by
  rw [page, behind_ordered h] at hsome
  dsimp only at hsome
  split_ifs at hsome
  obtain ⟨last, hlast, rfl⟩ := Option.map_eq_some_iff.mp hsome
  exact ⟨last, hlast, rfl⟩

theorem Pages.flatten (hlimit : 0 < limit) (h : (l.map key).Nodup) (hpages : Pages key limit l after pages) :
    pages.flatten = ordered key (behind key after l) := by
  induction hpages with
  | last hnone =>
    rw [page_fst h, List.flatten_singleton, List.take_of_length_le (page_none hlimit h hnone)]
  | next hsome _ ih =>
    obtain ⟨last, hlast, rfl⟩ := page_some h hsome
    rw [List.flatten_cons, ih, page_fst h, ordered_behind_last h hlast, List.take_append_drop]

theorem exists_pages (h : (l.map key).Nodup) (limit : Nat) (after : Option κ) : ∃ pages, Pages key limit l after pages := by
  induction hn : (behind key after l).length using Nat.strong_induction_on generalizing after with
  | _ n ih =>
    cases hnext : (page key limit after l).2 with
    | none => exact ⟨_, .last hnext⟩
    | some cursor =>
      obtain ⟨last, hlast, rfl⟩ := page_some h hnext
      have hmem : last ∈ behind key after l :=
        (ordered_perm _).mem_iff.mp (List.mem_of_mem_take (List.mem_of_getLast? hlast))
      obtain ⟨pages, hpages⟩ := ih _ (hn ▸ length_behind_lt hmem) (some (key last)) rfl
      exact ⟨_, .next hnext hpages⟩

end Catalyst.Library.Keyset
