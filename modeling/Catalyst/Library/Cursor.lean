import Mathlib.Data.List.Basic
import Mathlib.Data.List.Infix

/-!
# Reading a log behind a cursor

The entries of a log are numbered from one and only ever appended. A reader that
starts behind `after` keeps the number of the last entry it took.
-/

namespace Catalyst.Library

variable {α : Type} {number : α → Nat} {log log' out rest : List α} {after cursor : Nat}

def Numbered (number : α → Nat) (log : List α) : Prop :=
  log.map number = List.range' 1 log.length

theorem filter_number {start : Nat} (h : log.map number = List.range' start log.length) (hs : start ≤ cursor + 1) :
    log.filter (cursor < number ·) = log.drop (cursor + 1 - start) := by
  induction log generalizing start with
  | nil => simp
  | cons x log ih =>
    rw [List.length_cons, List.range'_succ, List.map_cons, List.cons.injEq] at h
    obtain ⟨hx, hlog⟩ := h
    obtain hlt | heq := Nat.lt_or_eq_of_le hs
    · have hle : start ≤ cursor := Nat.le_of_lt_succ hlt
      rw [List.filter_cons_of_neg (by simpa [hx] using hle), ih hlog (Nat.succ_le_succ hle),
        Nat.succ_sub hle, List.drop_succ_cons, Nat.add_sub_add_right]
    · subst heq
      have hall : ∀ y ∈ x :: log, cursor < number y := by
        intro y hy
        obtain rfl | hy := List.mem_cons.mp hy
        · rw [hx]
          exact Nat.lt_succ_self _
        · have hmem := List.mem_map_of_mem (f := number) hy
          rw [hlog] at hmem
          exact Nat.lt_of_succ_lt (List.mem_range'_1.mp hmem).1
      rw [Nat.sub_self, List.drop_zero]
      exact List.filter_eq_self.mpr fun y hy => by simpa using hall y hy

theorem Numbered.filter (h : Numbered number log) : log.filter (cursor < number ·) = log.drop cursor :=
  filter_number h (Nat.le_add_left 1 cursor)

theorem Numbered.pairwise (h : Numbered number log) : log.Pairwise (number · < number ·) := by
  rw [← List.pairwise_map, h]
  exact List.pairwise_lt_range'

theorem Numbered.part {first : List α} (h : Numbered number log) (hp : first <+: log) : Numbered number first := by
  obtain ⟨more, rfl⟩ := hp
  rw [Numbered, List.map_append, List.length_append, ← List.range'_append_1] at h
  exact (List.append_inj h (by rw [List.length_map, List.length_range'])).1

theorem Numbered.number_eq {x : α} (h : Numbered number log) (hx : log.drop cursor = x :: rest) :
    number x = cursor + 1 := by
  have hmap : (List.range' 1 log.length).drop cursor = number x :: rest.map number := by
    rw [← h, ← List.map_drop, hx, List.map_cons]
  have hget : (List.range' 1 log.length)[cursor]? = some (number x) := by
    rw [← List.head?_drop, hmap, List.head?_cons]
  obtain ⟨hlt, heq⟩ := List.getElem?_eq_some_iff.mp hget
  rw [← heq, List.getElem_range']
  omega

/-- What a reader behind `after` took up to its cursor. -/
structure TakenTo (log : List α) (after cursor : Nat) (out : List α) : Prop where
  le : after ≤ cursor
  out : out = (log.take cursor).drop after
  within : cursor = after ∨ cursor ≤ log.length

namespace TakenTo

theorem start : TakenTo log after after [] where
  le := Nat.le_refl _
  out := by rw [List.drop_take, Nat.sub_self, List.take_zero]
  within := .inl rfl

theorem grows (h : TakenTo log after cursor out) (hl : log <+: log') : TakenTo log' after cursor out := by
  refine ⟨h.le, ?_, h.within.imp_right fun hc => Nat.le_trans hc hl.length_le⟩
  obtain rfl | hc := h.within
  · rw [h.out, List.drop_take, List.drop_take, Nat.sub_self, List.take_zero, List.take_zero]
  · obtain ⟨more, rfl⟩ := hl
    rw [h.out, List.take_append_of_le_length hc]

theorem next {x : α} (h : TakenTo log after cursor out) (hx : log.drop cursor = x :: rest) :
    TakenTo log after (cursor + 1) (out ++ [x]) := by
  have hlt : cursor < log.length := by
    rw [← Nat.not_le, ← List.drop_eq_nil_iff, hx]
    exact List.cons_ne_nil _ _
  have hget : log[cursor]? = some x := by rw [← List.head?_drop, hx, List.head?_cons]
  refine ⟨Nat.le_succ_of_le h.le, ?_, .inr hlt⟩
  have hlen : after ≤ (log.take cursor).length := by
    rw [List.length_take_of_le (Nat.le_of_lt hlt)]
    exact h.le
  rw [List.take_add_one, hget, Option.toList_some, List.drop_append_of_le_length hlen, ← h.out]

theorem part (h : TakenTo log after cursor out) : out <+: log.drop after := by
  rw [h.out, List.drop_take]
  exact List.take_prefix _ _

theorem out_rest (h : TakenTo log after cursor out) : out ++ log.drop cursor = log.drop after := by
  obtain ⟨more, hmore⟩ := Nat.le.dest h.le
  subst hmore
  rw [h.out, List.drop_take, Nat.add_sub_cancel_left, ← List.drop_drop, List.take_append_drop]

theorem all (h : TakenTo log after cursor out) (hc : log.drop cursor = []) : out = log.drop after := by
  rw [← h.out_rest, hc, List.append_nil]

theorem handed {x : α} (h : TakenTo log after cursor out) (hn : Numbered number log)
    (hx : x :: rest <+: log.drop cursor) : number x = cursor + 1 ∧
      TakenTo log after (cursor + 1) (out ++ [x]) ∧ log.drop cursor = x :: log.drop (cursor + 1) ∧
      rest <+: log.drop (cursor + 1) := by
  obtain ⟨more, hmore⟩ := hx
  have hdrop : log.drop cursor = x :: (rest ++ more) := hmore.symm
  have htail : log.drop (cursor + 1) = rest ++ more := by rw [← List.drop_drop, hdrop, List.drop_one, List.tail_cons]
  refine ⟨hn.number_eq hdrop, h.next hdrop, by rw [hdrop, htail], ?_⟩
  rw [htail]
  exact List.prefix_append _ _

end TakenTo

end Catalyst.Library
