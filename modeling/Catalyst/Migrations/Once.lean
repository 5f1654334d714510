import Catalyst.Migrations.Model

/-!
# Every migration once

The records are those of a first part of the journal, in its order, and only the run that holds
the lock adds to them. What a transactional migration did is there if its record is. A concurrent
one may have executed some of its statements more than once before its record is added.
-/

namespace Catalyst.Migrations

open Library Library.Processes

variable {journal done passed : List Migration} {db : Db} {l : Loop} {m : Migration} {c : Chunk} {chunks : List Chunk}

def Increasing (journal : List Migration) : Prop := (journal.map (·.when)).Pairwise (· < ·)
  deriving Decidable

def Transactional (journal : List Migration) (e : Effect) : Prop := ∃ m ∈ journal, ¬ m.Concurrent ∧ m.when = e.when
  deriving Decidable

structure Applied (journal : List Migration) (db : Db) (done : List Migration) : Prop where
  first : done <+: journal
  records : db.records = done.map (·.record)
  effects : db.effects.filter (Transactional journal ·) = (done.filter (¬ ·.Concurrent)).flatMap (·.effects)
  present : ∀ m ∈ done, ∀ e ∈ m.effects, e ∈ db.effects

-- -----------------
-- The times
-- -----------------

theorem Increasing.eq_of_when (hj : Increasing journal) (hm : m ∈ journal) (hm' : m' ∈ journal)
    (h : m.when = m'.when) : m = m' := by
  have hnodup : (journal.map (·.when)).Nodup := hj.imp fun h => Nat.ne_of_lt h
  exact List.inj_on_of_nodup_map hnodup hm hm' h

theorem Increasing.lt_of_append (hj : Increasing (done ++ todo)) (hm : m ∈ done) (hm' : m' ∈ todo) : m.when < m'.when := by
  rw [Increasing, List.map_append, List.pairwise_append] at hj
  exact hj.2.2 _ (List.mem_map_of_mem hm) _ (List.mem_map_of_mem hm')

theorem when_of_mem_effects {e : Effect} (he : e ∈ m.effects) : e.when = m.when := by
  simp only [Migration.effects, List.mem_map] at he
  obtain ⟨c, -, rfl⟩ := he
  rfl

theorem Increasing.transactional_iff (hj : Increasing journal) (hm : m ∈ journal) {e : Effect} (he : e.when = m.when) :
    Transactional journal e ↔ ¬ m.Concurrent := by
  constructor
  · rintro ⟨m', hm', hc, hw⟩
    rwa [← hj.eq_of_when hm' hm (hw.trans he)]
  · exact fun hc => ⟨m, hm, hc, he.symm⟩

theorem Applied.lastApplied (hj : Increasing journal) (ha : Applied journal db done) (hm : m ∈ journal) :
    (∃ last ∈ readLastAppliedMigration db, m.when ≤ last) ↔ m ∈ done := by
  have htimes : db.times = done.map (·.when) := by
    simp only [Db.times, ha.records, List.map_map]
    rfl
  obtain ⟨todo, rfl⟩ := ha.first
  constructor
  · rintro ⟨last, hlast, hle⟩
    have hmem : last ∈ done.map (·.when) := htimes ▸ List.max?_mem hlast
    obtain ⟨m', hm', rfl⟩ := List.mem_map.mp hmem
    rcases List.mem_append.mp hm with h | h
    · exact h
    · exact absurd (hj.lt_of_append hm' h) (Nat.not_lt.mpr hle)
  · intro h
    have hmem : m.when ∈ db.times := htimes ▸ List.mem_map_of_mem h
    cases hlast : readLastAppliedMigration db with
    | none =>
      rw [readLastAppliedMigration, List.max?_eq_none_iff] at hlast
      exact absurd hmem (hlast ▸ List.not_mem_nil)
    | some last => exact ⟨last, rfl, (List.max?_eq_some_iff.mp hlast).2 _ hmem⟩

theorem Applied.eq_of_records (ha : Applied journal db done) (hp : passed <+: journal)
    (hr : db.records = passed.map (·.record)) : done = passed := by
  have hlen : done.length = passed.length := by
    have := congrArg List.length (ha.records.symm.trans hr)
    simpa using this
  exact (List.prefix_of_prefix_length_le ha.first hp (Nat.le_of_eq hlen)).eq_of_length hlen

theorem Applied.congr {db' : Db} (ha : Applied journal db done) (hr : db'.records = db.records)
    (he : db'.effects = db.effects) : Applied journal db' done where
  first := ha.first
  records := hr.trans ha.records
  effects := he ▸ ha.effects
  present := he ▸ ha.present

theorem Applied.executed (hj : Increasing journal) (ha : Applied journal db done) (hm : m ∈ journal) (hc : m.Concurrent) :
    Applied journal (db.executed m c) done where
  first := ha.first
  records := ha.records
  effects := by
    have h : ¬ Transactional journal ⟨m.when, c.text⟩ := fun h => (hj.transactional_iff hm rfl).mp h hc
    simp only [Db.executed, List.filter_append, ha.effects, List.filter_singleton, h, decide_false, cond_false,
      List.append_nil]
  present m' hm' e he := List.mem_append_left _ (ha.present m' hm' e he)

theorem Applied.recorded (ha : Applied journal db done) (hj : journal = done ++ m :: todo) (hc : m.Concurrent)
    (he : ∀ e ∈ m.effects, e ∈ db.effects) : Applied journal (db.recorded m) (done ++ [m]) where
  first := ⟨todo, by rw [hj, List.append_assoc, List.singleton_append]⟩
  records := by simp [Db.recorded, ha.records]
  effects := by simp [Db.recorded, ha.effects, hc]
  present m' hm' := by
    rcases List.mem_append.mp hm' with h | h
    · exact ha.present m' h
    · exact List.mem_singleton.mp h ▸ he

theorem Applied.committed (hi : Increasing journal) (ha : Applied journal db done) (hj : journal = done ++ m :: todo)
    (hc : ¬ m.Concurrent) : Applied journal (db.committed m) (done ++ [m]) where
  first := ⟨todo, by rw [hj, List.append_assoc, List.singleton_append]⟩
  records := by simp [Db.committed, ha.records]
  effects := by
    have hm : m ∈ journal := by simp [hj]
    have hall : m.effects.filter (Transactional journal ·) = m.effects :=
      List.filter_eq_self.mpr fun e he => decide_eq_true ((hi.transactional_iff hm (when_of_mem_effects he)).mpr hc)
    simp [Db.committed, ha.effects, hall, hc]
  present m' hm' e he := by
    rcases List.mem_append.mp hm' with h | h
    · exact List.mem_append_left _ (ha.present m' h e he)
    · exact List.mem_append_right _ (List.mem_singleton.mp h ▸ he)

/-- The turns to come: first those that were applied when the last one was read, then the others. -/
structure Loop.Ok (journal : List Migration) (db : Db) (l : Loop) (passed skipped todo : List Migration) : Prop where
  journal : journal = passed ++ l.rest
  rest : l.rest = skipped ++ todo
  records : db.records = (passed ++ skipped).map (·.record)
  skips : ∀ m ∈ skipped, l.Skips m
  applies : ∀ m ∈ todo, ¬ l.Skips m

structure Loop.On (journal : List Migration) (db : Db) (l : Loop) (m : Migration) (passed : List Migration) : Prop where
  journal : journal = passed ++ m :: l.rest
  records : db.records = passed.map (·.record)
  applies : ∀ m' ∈ l.rest, ¬ l.Skips m'

structure Loop.Outside (journal : List Migration) (db : Db) (l : Loop) (m : Migration) (chunks : List Chunk) : Prop where
  turn : ∃ passed, l.On journal db m passed
  concurrent : m.Concurrent
  ran : ∃ ran, m.chunks = ran ++ chunks ∧ ∀ c ∈ ran, ⟨m.when, c.text⟩ ∈ db.effects

def Going.Relies (journal : List Migration) (db : Db) : Going → Prop
  | takingLock | creatingSchema | creatingTable | readingLast => True
  | readingTable => db.table = true
  | looping l => ∃ passed skipped todo, l.Ok journal db passed skipped todo
  | executing l m _ | inserting l m | committing l m => (∃ passed, l.On journal db m passed) ∧ ¬ m.Concurrent
  | nextChunk l m chunks => l.Outside journal db m chunks
  | looking l m _ c chunks | repairing l m _ _ c chunks | running l m c chunks | building l m _ c chunks
  | dropping l m _ c chunks => l.Outside journal db m (c :: chunks)
  | checking l m => l.Outside journal db m []
  | recording l m => l.Outside journal db m [] ∧ db.invalidIndexes = []
  | unlocking _ => db.records = journal.map (·.record)

theorem Loop.Outside.mem (ho : l.Outside journal db m chunks) : m ∈ journal := by
  obtain ⟨passed, hon⟩ := ho.turn
  simp [hon.journal]

theorem Loop.Outside.congr {db' : Db} (ho : l.Outside journal db m chunks) (hr : db'.records = db.records)
    (he : db'.effects = db.effects) : l.Outside journal db' m chunks where
  turn := by
    obtain ⟨passed, hon⟩ := ho.turn
    exact ⟨passed, hon.journal, hr.trans hon.records, hon.applies⟩
  concurrent := ho.concurrent
  ran := he ▸ ho.ran

theorem Loop.Outside.executed (ho : l.Outside journal db m (c :: chunks)) :
    l.Outside journal (db.executed m c) m chunks where
  turn := by
    obtain ⟨passed, hon⟩ := ho.turn
    exact ⟨passed, hon.journal, hon.records, hon.applies⟩
  concurrent := ho.concurrent
  ran := by
    obtain ⟨ran, hchunks, hran⟩ := ho.ran
    refine ⟨ran ++ [c], by simp [hchunks], fun c' hc' => ?_⟩
    rcases List.mem_append.mp hc' with h | h
    · exact List.mem_append_left _ (hran c' h)
    · exact List.mem_append_right _ (by simp [List.mem_singleton.mp h])

theorem Loop.Outside.present (ho : l.Outside journal db m []) : ∀ e ∈ m.effects, e ∈ db.effects := by
  obtain ⟨ran, hchunks, hran⟩ := ho.ran
  intro e he
  rw [Migration.effects, hchunks, List.append_nil] at he
  obtain ⟨c, hc, rfl⟩ := List.mem_map.mp he
  exact hran c hc

theorem Loop.On.nextTurn {db' : Db} (hon : l.On journal db m passed) (hr : db'.records = db.records ++ [m.record]) :
    (l.done m).Relies journal db' :=
  ⟨passed ++ [m], [], l.rest, by rw [hon.journal, List.append_assoc, List.singleton_append], rfl,
    by simp [hr, hon.records], by simp, hon.applies⟩

/-- A first part of the journal is applied still, and what the run relies on next holds. -/
structure StepOk (journal : List Migration) (r : StepResult) : Prop where
  applied : ∃ done, Applied journal r.2.2 done
  relies : ∀ g ∈ r.2.1, g.Relies journal r.2.2

theorem StepOk.goesTo {g : Going} (ha : Applied journal db done) (hg : g.Relies journal db) :
    StepOk journal (goesTo db g) where
  applied := ⟨done, ha⟩
  relies g' hg' := by
    cases Option.mem_some.mp hg'
    exact hg

theorem StepOk.ends {answer : Option Answer} (ha : Applied journal db done) : StepOk journal (answer, none, db) where
  applied := ⟨done, ha⟩
  relies _ hg' := absurd hg' (Option.not_mem_none _)

theorem reading_ok (hj : Increasing journal) (ha : Applied journal db done) :
    ∃ passed skipped todo, Loop.Ok journal db ⟨readLastAppliedMigration db, journal, []⟩ passed skipped todo := by
  obtain ⟨todo, htodo⟩ := ha.first
  refine ⟨[], done, todo, rfl, htodo.symm, ha.records, fun m hm => ?_, fun m hm hskips => ?_⟩
  · exact (ha.lastApplied hj (ha.first.subset hm)).mpr hm
  · have hmem : m ∈ journal := htodo ▸ List.mem_append_right _ hm
    have hdone : m ∈ done := (ha.lastApplied hj hmem).mp hskips
    exact absurd ((htodo ▸ hj).lt_of_append hdone hm) (Nat.lt_irrefl _)

theorem loops_ok {passed skipped todo : List Migration} (ha : Applied journal db done)
    (hl : l.Ok journal db passed skipped todo) : StepOk journal (loops db l) := by
  unfold loops
  split
  · rename_i hrest
    have hnone : skipped ++ todo = [] := hl.rest.symm.trans hrest
    have hskipped : skipped = [] := (List.append_eq_nil_iff.mp hnone).1
    refine .goesTo ha ?_
    simp only [Going.Relies, hl.records, hl.journal, hrest, hskipped]
  · rename_i m rest hrest
    have hsplit : skipped ++ todo = m :: rest := hl.rest.symm.trans hrest
    simp only
    by_cases hskips : l.Skips m
    · rw [if_pos hskips]
      cases skipped with
      | nil => exact absurd hskips (hl.applies m (by simp_all))
      | cons m' skipped =>
        obtain ⟨rfl, rfl⟩ : m' = m ∧ skipped ++ todo = rest := by simpa using hsplit
        refine .goesTo ha ⟨passed ++ [m'], skipped, todo, ?_, rfl, ?_, ?_, hl.applies⟩
        · simp [hl.journal, hrest]
        · simp [hl.records]
        · exact fun m hm => hl.skips m (List.mem_cons_of_mem _ hm)
    · rw [if_neg hskips]
      have hskipped : skipped = [] := by
        cases skipped with
        | nil => rfl
        | cons m' skipped =>
          obtain ⟨rfl, -⟩ : m' = m ∧ skipped ++ todo = rest := by simpa using hsplit
          exact absurd (hl.skips m' List.mem_cons_self) hskips
      have hon : Loop.On journal db { l with rest := rest } m passed := by
        refine ⟨by rw [hl.journal, hrest], by simp [hl.records, hskipped], fun m' hm' => hl.applies m' ?_⟩
        rw [hskipped, List.nil_append] at hsplit
        exact hsplit ▸ List.mem_cons_of_mem _ hm'
      split
      · exact .goesTo ha ⟨⟨passed, hon⟩, ‹_›, [], rfl, by simp⟩
      · exact .goesTo ha ⟨⟨passed, hon⟩, ‹_›⟩

theorem runs_ok (hj : Increasing journal) (ha : Applied journal db done) (ho : l.Outside journal db m (c :: chunks)) :
    StepOk journal (runs db l m c chunks) := by
  have hexecuted : StepOk journal (goesTo (db.executed m c) (.nextChunk l m chunks)) :=
    .goesTo (ha.executed hj ho.mem ho.concurrent) ho.executed
  unfold runs
  split
  · split
    · exact hexecuted
    · exact .goesTo (ha.congr rfl rfl) (ho.congr rfl rfl)
  · split
    · exact .goesTo (ha.congr rfl rfl) (ho.congr rfl rfl)
    · exact hexecuted
  · split
    · exact .ends ha
    · exact hexecuted

theorem step_ok {g : Going} (hj : Increasing journal) (ha : Applied journal db done) (hg : g.Relies journal db) :
    StepOk journal (step journal db g) := by
  cases g with
  | takingLock => exact .goesTo ha trivial
  | creatingSchema => exact .goesTo (ha.congr rfl rfl) trivial
  | creatingTable => exact .goesTo (ha.congr rfl rfl) rfl
  | readingTable =>
    simp only [step, if_pos (show db.table = true from hg)]
    exact .goesTo ha trivial
  | readingLast => exact .goesTo ha (reading_ok hj ha)
  | looping l =>
    obtain ⟨passed, skipped, todo, hl⟩ := hg
    exact loops_ok ha hl
  | executing l m chunks =>
    cases chunks with
    | nil => exact .goesTo ha hg
    | cons c chunks => exact .goesTo ha hg
  | inserting l m => exact .goesTo ha hg
  | committing l m =>
    obtain ⟨⟨passed, hon⟩, hc⟩ := hg
    obtain rfl := ha.eq_of_records ⟨_, hon.journal.symm⟩ hon.records
    exact .goesTo (ha.committed hj hon.journal hc) (hon.nextTurn rfl)
  | nextChunk l m chunks =>
    cases chunks with
    | nil => exact .goesTo ha hg
    | cons c chunks => exact .goesTo ha hg
  | looking l m statements c chunks =>
    cases statements with
    | nil => exact .goesTo ha hg
    | cons s statements =>
      simp only [step]
      split
      · exact .goesTo ha hg
      · split
        · exact .goesTo ha hg
        · exact .goesTo ha hg
  | repairing l m index statements c chunks => exact .goesTo (ha.congr rfl rfl) (hg.congr rfl rfl)
  | running l m c chunks => exact runs_ok hj ha hg
  | building l m index c chunks =>
    have ho : l.Outside journal (db.built index) m (c :: chunks) := hg.congr rfl rfl
    have ha' : Applied journal (db.built index) done := ha.congr rfl rfl
    exact .goesTo (ha'.executed hj ho.mem ho.concurrent) ho.executed
  | dropping l m index c chunks =>
    have ho : l.Outside journal (db.dropped index) m (c :: chunks) := hg.congr rfl rfl
    have ha' : Applied journal (db.dropped index) done := ha.congr rfl rfl
    exact .goesTo (ha'.executed hj ho.mem ho.concurrent) ho.executed
  | checking l m =>
    simp only [step]
    split
    · exact .goesTo ha ⟨hg, ‹_›⟩
    · exact .ends ha
  | recording l m =>
    obtain ⟨ho, -⟩ := hg
    obtain ⟨passed, hon⟩ := ho.turn
    obtain rfl := ha.eq_of_records ⟨_, hon.journal.symm⟩ hon.records
    exact .goesTo (ha.recorded hon.journal ho.concurrent ho.present) (hon.nextTurn rfl)
  | unlocking applied => exact .ends ha

def migrating (journal : List Migration) : Assertions Db Going Answer where
  holds _ db := ∃ done, Applied journal db done
  relies _ db g := g.Relies journal db
  apart p q := ¬ (p.Holds ∧ q.Holds)

theorem migrating_inductive (hj : Increasing journal) :
    (migrationRuns journal).Inductive (migrating journal) fun _ _ => True where
  symm p q h := fun hq => h hq.symm
  start log s input hs ha := ⟨trivial, fun q h => h.1 rfl⟩
  step log s pid t hs ha hat hrelies hothers := by
    obtain ⟨done, happlied⟩ := hs.holds
    have hok := step_ok hj happlied hrelies
    refine ⟨⟨hok.applied, fun q hq hq' => ?_⟩, fun t' ht' => ⟨hok.relies t' ht', fun q hq hap hfree => ?_⟩⟩
    · obtain ⟨hap, -⟩ := hq
      by_cases ht : t.Holds
      · have hq : q = .takingLock := by simpa [Going.Holds, ht] using fun h => hap ⟨ht, h⟩
        exact hq ▸ trivial
      · obtain rfl : t = .takingLock := by simpa [Going.Holds] using ht
        exact hq'
    · by_cases ht : t.Holds
      · exact fun h => hap ⟨ht, h.2⟩
      · obtain rfl : t = .takingLock := by simpa [Going.Holds] using ht
        exact fun h => hfree ⟨h.2, rfl⟩
  env log s e := e.elim

theorem migrating_init (hi : (migrationSystem journal).init s) : (migrating journal).Ok [] s := by
  obtain ⟨⟨hr, he⟩, hidle, -⟩ := hi
  refine .of_idle hidle ⟨[], List.nil_prefix, ?_, ?_, ?_⟩
  · simp [hr]
  · simp [he]
  · simp

theorem step_records (journal : List Migration) (db : Db) (g : Going) :
    (step journal db g).2.2.records = db.records ∨
      ∃ l m, (g = .committing l m ∨ g = .recording l m) ∧ (step journal db g).2.2.records = db.records ++ [m.record] := by
  cases g with
  | committing l m => exact .inr ⟨l, m, .inl rfl, rfl⟩
  | recording l m => exact .inr ⟨l, m, .inr rfl, rfl⟩
  | readingTable =>
    simp only [step]
    split <;> exact .inl rfl
  | looping l =>
    simp only [step, loops]
    split
    · exact .inl rfl
    · split
      · exact .inl rfl
      · split <;> exact .inl rfl
  | executing l m chunks => cases chunks <;> exact .inl rfl
  | nextChunk l m chunks => cases chunks <;> exact .inl rfl
  | looking l m statements c chunks =>
    cases statements with
    | nil => exact .inl rfl
    | cons s statements =>
      simp only [step]
      split
      · exact .inl rfl
      · split <;> exact .inl rfl
  | running l m c chunks =>
    simp only [step, runs]
    split <;> split <;> exact .inl rfl
  | checking l m =>
    simp only [step]
    split <;> exact .inl rfl
  | takingLock | creatingSchema | creatingTable | readingLast | inserting | repairing | building | dropping | unlocking =>
    exact .inl rfl

theorem step_answer {g : Going} (h : (step journal db g).1 = some (.migrated applied)) : g = .unlocking applied := by
  cases g with
  | unlocking applied' =>
    simp only [step, Option.some.injEq, Answer.migrated.injEq] at h
    rw [h]
  | readingTable =>
    simp only [step] at h
    split at h <;> cases h
  | looping l =>
    simp only [step, loops] at h
    split at h
    · cases h
    · split at h
      · cases h
      · split at h <;> cases h
  | executing l m chunks => cases chunks <;> cases h
  | nextChunk l m chunks => cases chunks <;> cases h
  | looking l m statements c chunks =>
    cases statements with
    | nil => cases h
    | cons s statements =>
      simp only [step] at h
      split at h
      · cases h
      · split at h <;> cases h
  | running l m c chunks =>
    simp only [step, runs] at h
    split at h <;> split at h <;> cases h
  | checking l m =>
    simp only [step] at h
    split at h <;> cases h
  | takingLock | creatingSchema | creatingTable | readingLast | inserting | committing | repairing | building | dropping
  | recording => cases h

theorem Increasing.eq_of_record (hj : Increasing journal) (hm : m ∈ journal) (hm' : m' ∈ journal)
    (h : m.record = m'.record) : m = m' := hj.eq_of_when hm hm' (congrArg MigrationRecord.createdAt h)

theorem Applied.mem_records (hj : Increasing journal) (ha : Applied journal db done) (hm : m ∈ journal) :
    m.record ∈ db.records ↔ m ∈ done := by
  rw [ha.records]
  constructor
  · intro h
    obtain ⟨m', hm', he⟩ := List.mem_map.mp h
    exact hj.eq_of_record (ha.first.subset hm') hm he ▸ hm'
  · exact List.mem_map_of_mem

/-- Of the migrations that were applied, only this one has effects of its time. -/
theorem filter_effects (hj : Increasing journal) (hd : done.Sublist journal) (hm : m ∈ journal) :
    (done.flatMap (·.effects)).filter (·.when = m.when) = if m ∈ done then m.effects else [] := by
  induction done with
  | nil => rfl
  | cons m' done ih =>
    have hm' : m' ∈ journal := hd.subset List.mem_cons_self
    rw [List.flatMap_cons, List.filter_append, ih ((List.sublist_cons_self m' done).trans hd)]
    by_cases hsame : m' = m
    · subst hsame
      have hnodup : m' ∉ done := fun h =>
        absurd (List.pairwise_map.mp (hj.sublist (hd.map _)) |> List.rel_of_pairwise_cons <| h) (Nat.lt_irrefl _)
      have hall : m'.effects.filter (·.when = m'.when) = m'.effects :=
        List.filter_eq_self.mpr fun e he => decide_eq_true (when_of_mem_effects he)
      simp [hall, hnodup]
    · have hnone : m'.effects.filter (·.when = m.when) = [] :=
        List.filter_eq_nil_iff.mpr fun e he h =>
          hsame (hj.eq_of_when hm' hm ((when_of_mem_effects he).symm.trans (of_decide_eq_true h)))
      have hmem : m ∈ m' :: done ↔ m ∈ done := by simp [Ne.symm hsame]
      simp only [hnone, List.nil_append, hmem]

theorem Applied.effects_of (hj : Increasing journal) (ha : Applied journal db done) (hm : m ∈ journal)
    (hc : ¬ m.Concurrent) : db.effects.filter (·.when = m.when) = if m ∈ done then m.effects else [] := by
  have hsub : (done.filter (¬ ·.Concurrent)).Sublist journal := List.filter_sublist.trans ha.first.sublist
  have hmem : m ∈ done.filter (¬ ·.Concurrent) ↔ m ∈ done := by simp [hc]
  have hfilter : db.effects.filter (·.when = m.when) =
      (db.effects.filter (Transactional journal ·)).filter (·.when = m.when) := by
    rw [List.filter_filter]
    refine List.filter_congr fun e _ => ?_
    by_cases he : e.when = m.when
    · simp [he, (hj.transactional_iff hm he).mpr hc]
    · simp [he]
  rw [hfilter, ha.effects, filter_effects hj hsub hm]
  simp only [hmem]

structure MigrationsOk (journal : List Migration) (db : Db) : Prop where
  /-- The records are a first part of the journal, whose transactional migrations took effect in its order. -/
  ordered : ∃ done, done <+: journal ∧ db.records = done.map (·.record) ∧
    db.effects.filter (Transactional journal ·) = (done.filter (¬ ·.Concurrent)).flatMap (·.effects)
  once : ∀ m ∈ journal, ¬ m.Concurrent →
    db.effects.filter (·.when = m.when) = if m.record ∈ db.records then m.effects else []
  complete : ∀ m ∈ journal, m.Concurrent → m.record ∈ db.records → ∀ e ∈ m.effects, e ∈ db.effects

theorem Applied.ok (hj : Increasing journal) (ha : Applied journal db done) : MigrationsOk journal db where
  ordered := ⟨done, ha.first, ha.records, ha.effects⟩
  once m hm hc := by simp only [ha.effects_of hj hm hc, ha.mem_records hj hm]
  complete m hm _ hr := ha.present m ((ha.mem_records hj hm).mp hr)

structure RecordsOk (journal : List Migration) (s : MigrationPool) (a : MigrationMove) : Prop where
  concurrent : ∀ m ∈ journal, m.Concurrent → m.record ∉ s.store.records →
    m.record ∈ ((migrationSystem journal).next s a).store.records →
    (∀ e ∈ m.effects, e ∈ s.store.effects) ∧ ((migrationSystem journal).next s a).store.invalidIndexes = []
  returned : ∀ applied, (migrationSystem journal).answer s a = some (.migrated applied) →
    ∀ m ∈ journal, m.record ∈ ((migrationSystem journal).next s a).store.records

theorem records_ok (hj : Increasing journal) (hs : (migrating journal).Ok log s) : RecordsOk journal s a := by
  have hstays : ∀ {s' : MigrationPool}, (migrationSystem journal).step s a = (none, s') → s'.store = s.store →
      RecordsOk journal s a := fun h hstore =>
    ⟨fun m _ _ hn hr => absurd hr (by simpa [Machine.next, h, hstore] using hn),
      fun applied h' => by simp [Machine.answer, h] at h'⟩
  cases a with
  | start input => exact hstays rfl rfl
  | abort pid => exact hstays rfl rfl
  | env e => exact e.elim
  | advance pid =>
    cases hat : s.at? pid with
    | none => exact hstays (by simp [migrationSystem, machine, move, advance, hat]) rfl
    | some g =>
      have hrelies : g.Relies journal s.store := hs.relies _ (at?_mem hat)
      have hnext : ((migrationSystem journal).next s (.advance pid)).store = (step journal s.store g).2.2 := by
        simp [Machine.next, migrationSystem, machine, move, advance, hat, migrationRuns]
      have hanswer : (migrationSystem journal).answer s (.advance pid) = (step journal s.store g).1 := by
        simp [Machine.answer, migrationSystem, machine, move, advance, hat, migrationRuns]
      refine ⟨fun m hm hc hn hr => ?_, fun applied h m hm => ?_⟩
      · rw [hnext] at hr ⊢
        rcases step_records journal s.store g with hsame | ⟨l, m', hg, hadd⟩
        · exact absurd (hsame ▸ hr) hn
        · have heq : m.record = m'.record := by
            rw [hadd] at hr
            exact List.mem_singleton.mp ((List.mem_append.mp hr).resolve_left hn)
          rcases hg with rfl | rfl
          · obtain ⟨⟨passed, hon⟩, hc'⟩ := hrelies
            exact absurd (hj.eq_of_record hm (by simp [hon.journal]) heq ▸ hc) hc'
          · obtain ⟨ho, hinvalid⟩ := hrelies
            obtain rfl := hj.eq_of_record hm ho.mem heq
            exact ⟨ho.present, hinvalid⟩
      · obtain rfl := step_answer (hanswer.symm.trans h)
        have hall : s.store.records = journal.map (·.record) := hrelies
        rw [hnext]
        exact hall ▸ List.mem_map_of_mem hm

namespace Example

def addTable : Migration := ⟨"0000_table", 1, "h0", [⟨"create table t", [.ordinary]⟩, ⟨"insert into t", [.ordinary]⟩]⟩

def addIndex : Migration :=
  ⟨"0001_index", 2, "h1", [⟨"create index concurrently if not exists i", [.createIndexConcurrently "i"]⟩]⟩

def twoMigrations : List Migration := [addTable, addIndex]

def fresh : MigrationPool := ⟨⟨false, false, [], [], [], []⟩, [], 0⟩

def crashed : List MigrationMove :=
  [.start ()] ++ List.replicate 16 (.advance 0) ++ [.start (), .abort 0] ++ List.replicate 18 (.advance 1)

instance (p q : Going) : Decidable ((migrationRuns twoMigrations).blocks p q) := inferInstanceAs (Decidable (p.Holds ∧ q = .takingLock))

instance (s : MigrationPool) (a : MigrationMove) : Decidable ((migrationSystem twoMigrations).enabled s a) :=
  inferInstanceAs (Decidable ((migrationRuns twoMigrations).Unblocked s a ∧ True))

end Example

end Catalyst.Migrations
