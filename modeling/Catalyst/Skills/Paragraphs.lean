import Mathlib
import Catalyst.Skills.Change

/-!
# The paragraphs around a change

Paragraphs are divided by breaks, two line ends with white space between them. A break is told by
its own characters, so a change of a text leaves the breaks in front of it and behind it. The scan
takes breaks that do not overlap: one that the changed text ends in may hide the next one.
-/

namespace Catalyst.Skills

variable {text content : Text} {n m : Nat}

theorem lineEnd_eq_some (h : lineEnd text = some rest) :
    ∃ mark, text = mark ++ '\n' :: rest ∧ (mark = [] ∨ mark = ['\r']) := by
  unfold lineEnd at h
  split at h
  · obtain rfl := Option.some.inj h
    exact ⟨[], rfl, .inl rfl⟩
  · obtain rfl := Option.some.inj h
    exact ⟨['\r'], rfl, .inr rfl⟩
  · cases h

theorem lineEnd_of_mark (rest : Text) (h : mark = [] ∨ mark = ['\r']) :
    lineEnd (mark ++ '\n' :: rest) = some rest := by
  rcases h with rfl | rfl <;> rfl

structure BreakAt (text : Text) (n : Nat) : Prop where
  parts : ∃ mark blanks mark' rest, text = mark ++ '\n' :: (blanks ++ (mark' ++ '\n' :: rest)) ∧
    (mark = [] ∨ mark = ['\r']) ∧ (mark' = [] ∨ mark' = ['\r']) ∧ (∀ c ∈ blanks, c = '\t' ∨ c = ' ') ∧
    n = mark.length + 1 + blanks.length + mark'.length + 1

theorem dropWhile_blanks {blanks rest : Text} (h : ∀ c ∈ blanks, c = '\t' ∨ c = ' ')
    (hrest : ∀ c ∈ rest.head?, ¬ (c = '\t' ∨ c = ' ')) :
    (blanks ++ rest).dropWhile (fun c => decide (c = '\t' ∨ c = ' ')) = rest := by
  rw [List.dropWhile_append_of_pos fun c hc => decide_eq_true (h c hc)]
  cases rest with
  | nil => rfl
  | cons c rest => exact List.dropWhile_cons_of_neg (by simpa using hrest c rfl)

theorem breakLength_eq_some : breakLength text = some n ↔ BreakAt text n := by
  constructor
  · intro h
    obtain ⟨rest, hrest, rfl⟩ := Option.map_eq_some_iff.mp h
    obtain ⟨behind, hfirst, hsecond⟩ := Option.bind_eq_some_iff.mp hrest
    obtain ⟨mark, rfl, hmark⟩ := lineEnd_eq_some hfirst
    obtain ⟨mark', hbehind, hmark'⟩ := lineEnd_eq_some hsecond
    have hsplit := List.takeWhile_append_dropWhile (p := fun c => decide (c = '\t' ∨ c = ' ')) (l := behind)
    rw [hbehind] at hsplit
    have hlength := congrArg List.length hsplit
    refine ⟨mark, _, mark', rest, by rw [hsplit], hmark, hmark', fun c hc => ?_, ?_⟩
    · simpa using List.mem_takeWhile_imp hc
    · simp only [List.length_append, List.length_cons] at hlength ⊢
      omega
  · rintro ⟨mark, blanks, mark', rest, rfl, hmark, hmark', hblanks, rfl⟩
    have hdrop : (blanks ++ (mark' ++ '\n' :: rest)).dropWhile (fun c => decide (c = '\t' ∨ c = ' ')) =
        mark' ++ '\n' :: rest := by
      refine dropWhile_blanks hblanks fun c hc => ?_
      rcases hmark' with rfl | rfl <;> cases hc <;> simp
    simp only [breakLength, lineEnd_of_mark _ hmark, Option.bind_some, hdrop, lineEnd_of_mark _ hmark',
      Option.map_some, List.length_append, List.length_cons]
    congr 1
    omega

theorem BreakAt.count (h : BreakAt text n) :
    (text.take n).count '\n' = 2 ∧ (text.take (n - 1)).count '\n' = 1 ∧ 0 < n ∧ n ≤ text.length := by
  obtain ⟨mark, blanks, mark', rest, rfl, hmark, hmark', hblanks, rfl⟩ := h.parts
  have hzero : blanks.count '\n' = 0 := List.count_eq_zero.mpr fun hc => by simpa using hblanks _ hc
  have hmarks : mark.count '\n' = 0 ∧ mark'.count '\n' = 0 := by
    rcases hmark with rfl | rfl <;> rcases hmark' with rfl | rfl <;> decide
  have htake : (mark ++ '\n' :: (blanks ++ (mark' ++ '\n' :: rest))).take
      (mark.length + 1 + blanks.length + mark'.length + 1) =
      mark ++ '\n' :: (blanks ++ (mark' ++ ['\n'])) := by
    rw [show mark ++ '\n' :: (blanks ++ (mark' ++ '\n' :: rest)) =
      (mark ++ '\n' :: (blanks ++ (mark' ++ ['\n']))) ++ rest by simp]
    exact List.take_left' (by simp; omega)
  have htake' : (mark ++ '\n' :: (blanks ++ (mark' ++ '\n' :: rest))).take
      (mark.length + 1 + blanks.length + mark'.length + 1 - 1) =
      mark ++ '\n' :: (blanks ++ mark') := by
    rw [show mark ++ '\n' :: (blanks ++ (mark' ++ '\n' :: rest)) =
      (mark ++ '\n' :: (blanks ++ mark')) ++ '\n' :: rest by simp]
    exact List.take_left' (by simp; omega)
  refine ⟨?_, ?_, by omega, by simp; omega⟩
  · rw [htake]
    simp [hzero, hmarks.1, hmarks.2]
  · rw [htake']
    simp [hzero, hmarks.1, hmarks.2]

theorem BreakAt.of_take (h : BreakAt text n) (htake : text'.take n = text.take n) : BreakAt text' n := by
  obtain ⟨mark, blanks, mark', rest, rfl, hmark, hmark', hblanks, hn⟩ := h.parts
  refine ⟨mark, blanks, mark', text'.drop n, ?_, hmark, hmark', hblanks, hn⟩
  rw [show mark ++ '\n' :: (blanks ++ (mark' ++ '\n' :: text'.drop n)) =
    (mark ++ '\n' :: (blanks ++ (mark' ++ ['\n']))) ++ text'.drop n by simp]
  rw [show mark ++ '\n' :: (blanks ++ (mark' ++ ['\n'])) = text'.take n from ?_, List.take_append_drop]
  rw [htake, show mark ++ '\n' :: (blanks ++ (mark' ++ '\n' :: rest)) =
      (mark ++ '\n' :: (blanks ++ (mark' ++ ['\n']))) ++ rest by simp]
  exact (List.take_left' (by simp; omega)).symm

theorem breaksFrom_break {c : Char} {rest : Text} (h : BreakAt (c :: rest) n) (index : Nat) :
    breaksFrom index 0 (c :: rest) = (index, index + n) :: breaksFrom (index + 1) (n - 1) rest := by
  simp only [breaksFrom, breakLength_eq_some.mpr h]

theorem breaksFrom_other {c : Char} {rest : Text} {skip : Nat} (index : Nat)
    (h : 0 < skip ∨ ∀ n, ¬ BreakAt (c :: rest) n) :
    breaksFrom index skip (c :: rest) = breaksFrom (index + 1) (skip - 1) rest := by
  cases skip with
  | succ skip => rw [breaksFrom]; simp
  | zero =>
    have hnone : breakLength (c :: rest) = none :=
      Option.eq_none_iff_forall_ne_some.mpr fun n hn =>
        h.elim (fun hlt => absurd hlt (Nat.lt_irrefl 0)) fun hno => hno n (breakLength_eq_some.mp hn)
    simp only [breaksFrom, hnone]

theorem breaksFrom_cases (index skip : Nat) (c : Char) (rest : Text) :
    (∃ n, skip = 0 ∧ BreakAt (c :: rest) n ∧
      breaksFrom index skip (c :: rest) = (index, index + n) :: breaksFrom (index + 1) (n - 1) rest) ∨
    ((0 < skip ∨ ∀ n, ¬ BreakAt (c :: rest) n) ∧
      breaksFrom index skip (c :: rest) = breaksFrom (index + 1) (skip - 1) rest) := by
  by_cases h : 0 < skip ∨ ∀ n, ¬ BreakAt (c :: rest) n
  · exact .inr ⟨h, breaksFrom_other index h⟩
  · obtain ⟨hskip, n, hn⟩ : skip = 0 ∧ ∃ n, BreakAt (c :: rest) n := by simpa using h
    subst hskip
    exact .inl ⟨n, rfl, hn, breaksFrom_break hn index⟩

theorem breaksFrom_sound (hmem : a ∈ breaksFrom index skip text) :
    ∃ k n, a = (index + k, index + k + n) ∧ skip ≤ k ∧ BreakAt (text.drop k) n := by
  induction text generalizing index skip with
  | nil => cases hmem
  | cons c rest ih =>
    rcases breaksFrom_cases index skip c rest with ⟨n, rfl, hn, heq⟩ | ⟨hother, heq⟩ <;>
      rw [heq] at hmem
    · rcases List.mem_cons.mp hmem with rfl | hmem
      · exact ⟨0, n, rfl, Nat.le_refl 0, hn⟩
      · obtain ⟨k, m, rfl, -, hm⟩ := ih hmem
        exact ⟨k + 1, m, by rw [Nat.add_right_comm, Nat.add_assoc index k 1], Nat.zero_le _, hm⟩
    · obtain ⟨k, m, rfl, hk, hm⟩ := ih hmem
      exact ⟨k + 1, m, by rw [Nat.add_right_comm, Nat.add_assoc index k 1], by omega, hm⟩

theorem breaksFrom_ordered (index skip : Nat) (text : Text) :
    (breaksFrom index skip text).Pairwise (·.2 ≤ ·.1) := by
  induction text generalizing index skip with
  | nil => exact List.Pairwise.nil
  | cons c rest ih =>
    rcases breaksFrom_cases index skip c rest with ⟨n, rfl, hn, heq⟩ | ⟨-, heq⟩ <;> rw [heq]
    · refine List.pairwise_cons.mpr ⟨fun a ha => ?_, ih _ _⟩
      obtain ⟨k, m, rfl, hk, -⟩ := breaksFrom_sound ha
      dsimp only
      omega
    · exact ih _ _

theorem breaksFrom_complete (index : Nat) (hbreak : BreakAt (text.drop k) n) (hk : skip ≤ k) :
    ∃ a ∈ breaksFrom index skip text, a.1 ≤ index + k ∧ index + k < a.2 := by
  induction text generalizing index skip k with
  | nil =>
    obtain ⟨-, -, hpos, hle⟩ := hbreak.count
    rw [List.drop_nil, List.length_nil] at hle
    omega
  | cons c rest ih =>
    rcases breaksFrom_cases index skip c rest with ⟨m, rfl, hm, heq⟩ | ⟨hother, heq⟩ <;> rw [heq]
    · by_cases hlt : k < m
      · exact ⟨_, List.mem_cons_self, Nat.le_add_right _ _, Nat.add_lt_add_left hlt index⟩
      · cases k with
        | zero => exact absurd hm.count.2.2.1 hlt
        | succ k =>
          obtain ⟨a, ha, hle, hlt⟩ := ih (index + 1) hbreak (show m - 1 ≤ k by omega)
          exact ⟨a, List.mem_cons_of_mem _ ha, by omega, by omega⟩
    · cases k with
      | zero =>
        rcases hother with hlt | hno
        · omega
        · exact absurd hbreak (hno n)
      | succ k =>
        obtain ⟨a, ha, hle, hlt⟩ := ih (index + 1) hbreak (show skip - 1 ≤ k by omega)
        exact ⟨a, ha, by omega, by omega⟩

theorem BreakAt.end_le (h : BreakAt text n) (hother : BreakAt (text.drop k) m) (hk : k < n) : n ≤ k + m := by
  by_contra hlt
  have hinside : ((text.drop k).take m).Sublist (text.take (n - 1)) := by
    rw [List.take_drop]
    exact (List.drop_sublist _ _).trans (List.take_sublist_take_left (by omega))
  have hle := hinside.count_le '\n'
  rw [hother.count.1, h.count.2.1] at hle
  omega

/-- A stretch of paragraphs around a place of a text: breaks or the ends of the text bound it, and
no break lies between its bounds and the place. -/
structure Around (text : Text) (first last start stop : Nat) : Prop where
  start_le : start ≤ first
  le_stop : last ≤ stop ∧ stop ≤ text.length
  start_edge : start = 0 ∨ ∃ p n, BreakAt (text.drop p) n ∧ p + n = start
  stop_edge : stop = text.length ∨ ∃ n, BreakAt (text.drop stop) n
  front : ∀ p n, BreakAt (text.drop p) n → start ≤ p → first < p + n
  behind : ∀ p n, BreakAt (text.drop p) n → last ≤ p → stop ≤ p

theorem boundsLoop_start (length start stop found : Nat) {breaks : List (Nat × Nat)} (hordered : breaks.Pairwise (·.2 ≤ ·.1))
    (hpos : ∀ a ∈ breaks, a.1 < a.2) (hle : start ≤ stop) (hfound : ∀ a ∈ breaks, found ≤ a.1) :
    found ≤ (boundsLoop length start stop found breaks).1 ∧
    ((boundsLoop length start stop found breaks).1 = found ∨
      ∃ a ∈ breaks, a.2 = (boundsLoop length start stop found breaks).1 ∧ a.2 ≤ start) ∧
    ∀ a ∈ breaks, a.2 ≤ start → a.2 ≤ (boundsLoop length start stop found breaks).1 := by
  induction breaks generalizing found with
  | nil => exact ⟨Nat.le_refl _, .inl rfl, fun a ha => absurd ha List.not_mem_nil⟩
  | cons b breaks ih =>
    obtain ⟨hb, htail⟩ := List.pairwise_cons.mp hordered
    obtain ⟨hbpos, hpos⟩ := List.forall_mem_cons.mp hpos
    obtain ⟨hbfound, hfound⟩ := List.forall_mem_cons.mp hfound
    simp only [boundsLoop]
    by_cases hstop : stop ≤ b.1
    · have hfar : ¬ b.2 ≤ start := by omega
      simp only [hstop, hfar, if_true, if_false]
      refine ⟨Nat.le_refl _, .inl trivial, List.forall_mem_cons.mpr ⟨fun h => absurd h hfar, fun a ha hle => ?_⟩⟩
      have := hb a ha
      have := hpos a ha
      omega
    · simp only [hstop, if_false]
      by_cases hnear : b.2 ≤ start
      · simp only [hnear, if_true]
        obtain ⟨hge, heq, hmax⟩ := ih b.2 htail hpos hb
        refine ⟨by omega, .inr ?_, List.forall_mem_cons.mpr ⟨fun _ => hge, hmax⟩⟩
        rcases heq with heq | ⟨a, ha, heq⟩
        · exact ⟨b, List.mem_cons_self, heq.symm, hnear⟩
        · exact ⟨a, List.mem_cons_of_mem _ ha, heq⟩
      · simp only [hnear, if_false]
        obtain ⟨hge, heq, hmax⟩ := ih found htail hpos hfound
        refine ⟨hge, heq.imp_right ?_, List.forall_mem_cons.mpr ⟨fun h => absurd h hnear, hmax⟩⟩
        rintro ⟨a, ha, heq⟩
        exact ⟨a, List.mem_cons_of_mem _ ha, heq⟩

theorem boundsLoop_stop (length start stop found : Nat) {breaks : List (Nat × Nat)} (hordered : breaks.Pairwise (·.2 ≤ ·.1))
    (hpos : ∀ a ∈ breaks, a.1 < a.2 ∧ a.2 ≤ length) :
    ((boundsLoop length start stop found breaks).2 = length ∨
      ∃ a ∈ breaks, (boundsLoop length start stop found breaks).2 = a.1 ∧ stop ≤ a.1) ∧
    (∀ a ∈ breaks, stop ≤ a.1 → (boundsLoop length start stop found breaks).2 ≤ a.1) ∧
    ∀ a ∈ breaks, a.1 < stop → a.2 ≤ (boundsLoop length start stop found breaks).2 := by
  induction breaks generalizing found with
  | nil => exact ⟨.inl rfl, fun a ha => absurd ha List.not_mem_nil, fun a ha => absurd ha List.not_mem_nil⟩
  | cons b breaks ih =>
    obtain ⟨hb, htail⟩ := List.pairwise_cons.mp hordered
    obtain ⟨⟨hblt, hble⟩, hpos⟩ := List.forall_mem_cons.mp hpos
    simp only [boundsLoop]
    by_cases hstop : stop ≤ b.1
    · simp only [hstop, if_true]
      have hlate : ∀ a ∈ breaks, b.1 ≤ a.1 := fun a ha => Nat.le_trans (Nat.le_of_lt hblt) (hb a ha)
      refine ⟨.inr ⟨b, List.mem_cons_self, ⟨rfl, hstop⟩⟩,
        List.forall_mem_cons.mpr ⟨fun _ => Nat.le_refl _, fun a ha _ => hlate a ha⟩,
        List.forall_mem_cons.mpr ⟨by omega, fun a ha hlt => ?_⟩⟩
      have := hlate a ha
      omega
    · simp only [hstop, if_false]
      obtain ⟨hedge, hfirst, hpast⟩ := ih (if b.2 ≤ start then b.2 else found) htail hpos
      refine ⟨hedge.imp_right ?_, List.forall_mem_cons.mpr ⟨fun h => absurd h hstop, hfirst⟩,
        List.forall_mem_cons.mpr ⟨fun _ => ?_, hpast⟩⟩
      · rintro ⟨a, ha, heq⟩
        exact ⟨a, List.mem_cons_of_mem _ ha, heq⟩
      · rcases hedge with heq | ⟨a, ha, heq, -⟩
        · rw [heq]
          exact hble
        · rw [heq]
          exact hb a ha

/-- No break that the scan takes in front of `last` hides one behind it. -/
def NoneHidden (content : Text) (last : Nat) : Prop :=
  ∀ a ∈ breaksFrom 0 0 content, a.1 < last → ∀ p n, last ≤ p → p < a.2 → ¬ BreakAt (content.drop p) n

theorem breaks_spec (content : Text) (a : Nat × Nat) (h : a ∈ breaksFrom 0 0 content) :
    BreakAt (content.drop a.1) (a.2 - a.1) ∧ a.1 < a.2 ∧ a.2 ≤ content.length := by
  obtain ⟨k, n, rfl, -, hn⟩ := breaksFrom_sound h
  have hcount := hn.count
  rw [List.length_drop] at hcount
  rw [Nat.zero_add, Nat.add_sub_cancel_left]
  exact ⟨hn, by omega, by omega⟩

theorem paragraphBounds_le (content : Text) (hle : first ≤ last) (hlast : last ≤ content.length) :
    (paragraphBounds content first last).1 ≤ first ∧ last ≤ (paragraphBounds content first last).2 ∧
      (paragraphBounds content first last).2 ≤ content.length := by
  have hordered := breaksFrom_ordered 0 0 content
  have hspec := breaks_spec content
  obtain ⟨-, hstart, -⟩ := boundsLoop_start content.length first last 0 hordered
    (fun a ha => (hspec a ha).2.1) hle fun a _ => Nat.zero_le _
  obtain ⟨hstop, -, -⟩ := boundsLoop_stop content.length first last 0 hordered
    fun a ha => (hspec a ha).2
  refine ⟨?_, ?_⟩
  · rcases hstart with heq | ⟨a, -, heq, hle⟩
    · exact heq ▸ Nat.zero_le _
    · exact heq ▸ hle
  · rcases hstop with heq | ⟨a, ha, heq, hle⟩
    · exact ⟨heq.symm ▸ hlast, Nat.le_of_eq heq⟩
    · obtain ⟨-, hlt, hend⟩ := hspec a ha
      exact ⟨heq.symm ▸ hle, heq.symm ▸ by omega⟩

theorem paragraphBounds_around_iff (content : Text) (hle : first ≤ last) (hlast : last ≤ content.length) :
    Around content first last (paragraphBounds content first last).1 (paragraphBounds content first last).2 ↔
      NoneHidden content last := by
  obtain ⟨hstart_le, hle_stop⟩ := paragraphBounds_le content hle hlast
  have hordered := breaksFrom_ordered 0 0 content
  have hspec := breaks_spec content
  obtain ⟨-, hstart, hmax⟩ := boundsLoop_start content.length first last 0 hordered
    (fun a ha => (hspec a ha).2.1) hle fun a _ => Nat.zero_le _
  obtain ⟨hstop, hmin, hpast⟩ := boundsLoop_stop content.length first last 0 hordered
    fun a ha => (hspec a ha).2
  rw [show boundsLoop content.length first last 0 (breaksFrom 0 0 content) = paragraphBounds content first last
    from rfl] at hstart hmax hstop hmin hpast
  generalize paragraphBounds content first last = bounds at *
  constructor
  · intro haround a ha hlt p n hle hp hbreak
    have := hpast a ha hlt
    have := haround.behind p n hbreak hle
    omega
  · intro hhidden
    refine ⟨hstart_le, hle_stop, ?_, ?_, fun p n hbreak hp => ?_, fun p n hbreak hp => ?_⟩
    · rcases hstart with heq | ⟨a, ha, heq, -⟩
      · exact .inl heq
      · obtain ⟨hbreak, hlt, -⟩ := hspec a ha
        exact .inr ⟨a.1, _, hbreak, by omega⟩
    · exact hstop.imp_right fun ⟨a, ha, heq, _⟩ => heq ▸ ⟨_, (hspec a ha).1⟩
    · -- The scan has taken a break that this one begins in, which ends no later.
      obtain ⟨a, ha, hap, hpa⟩ := breaksFrom_complete 0 hbreak (Nat.zero_le p)
      obtain ⟨hbreak', -, -⟩ := hspec a ha
      have hend := hbreak'.end_le (show BreakAt ((content.drop a.1).drop (p - a.1)) n by
        rwa [List.drop_drop, show a.1 + (p - a.1) = p by omega]) (by omega)
      have hfar : ¬ a.2 ≤ first := fun hnear => by
        have := hmax a ha hnear
        omega
      omega
    · obtain ⟨a, ha, hap, hpa⟩ := breaksFrom_complete 0 hbreak (Nat.zero_le p)
      rw [Nat.zero_add] at hap hpa
      by_cases hlt : a.1 < last
      · exact absurd hbreak (hhidden a ha hlt p n hp hpa)
      · exact Nat.le_trans (hmin a ha (Nat.le_of_not_lt hlt)) hap

theorem Around.exchange {front old new behind : Text} {start stop : Nat}
    (h : Around (front ++ old ++ behind) front.length (front.length + old.length) start stop) :
    Around (front ++ new ++ behind) front.length (front.length + new.length) start
      (stop + new.length - old.length) := by
  obtain ⟨hstart, ⟨hlast, hstop⟩, hedge, hedge', hfront, hbehind⟩ := h
  simp only [List.length_append] at hstop hedge'
  -- In front of the place and behind it the texts are the same.
  have hbefore : ∀ {old new : Text} {p n : Nat}, BreakAt ((front ++ old ++ behind).drop p) n →
      p + n ≤ front.length → BreakAt ((front ++ new ++ behind).drop p) n := by
    intro old new p n hbreak hle
    refine hbreak.of_take ?_
    rw [List.take_drop, List.take_drop, List.append_assoc, List.append_assoc,
      List.take_append_of_le_length hle, List.take_append_of_le_length hle]
  have hafter : ∀ (old : Text) (k : Nat),
      (front ++ old ++ behind).drop (front.length + old.length + k) = behind.drop k := by
    intro old k
    rw [← List.drop_drop, ← List.length_append, List.drop_left]
  refine ⟨hstart, ?_, hedge.imp_right ?_, ?_, fun p n hbreak hp => ?_, fun p n hbreak hp => ?_⟩
  · simp only [List.length_append]
    omega
  · rintro ⟨p, n, hbreak, rfl⟩
    exact ⟨p, n, hbefore hbreak hstart, rfl⟩
  · obtain ⟨k, rfl⟩ := Nat.exists_eq_add_of_le hlast
    rw [show front.length + old.length + k + new.length - old.length = front.length + new.length + k by omega,
      hafter]
    rw [hafter] at hedge'
    simp only [List.length_append]
    exact hedge'.imp_left fun h => by omega
  · by_contra hle
    have := hfront p n (hbefore hbreak (by omega)) hp
    omega
  · obtain ⟨k, rfl⟩ := Nat.exists_eq_add_of_le hp
    rw [hafter] at hbreak
    have := hbehind (front.length + old.length + k) n (by rwa [hafter]) (by omega)
    omega

end Catalyst.Skills
