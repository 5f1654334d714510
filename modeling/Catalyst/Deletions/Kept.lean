import Catalyst.Deletions.Model
import Catalyst.Jobs.Origin

/-!
# An accepted deletion keeps its job

A job of a deletion names a subject that is marked or gone, and nothing ends it as failed: a pass
returns only once the row is gone, and throws otherwise so that another attempt follows. So the job
of a marked subject is queued, running or dead, and what removes rows leaves it.
-/

namespace Catalyst.Deletions

open Library Jobs

variable {catalog : Catalog}

-- -----------------
-- Jobs and their subjects
-- -----------------

def JobOf (ref : SubjectRef) (r : JobRow) : Prop :=
  r.ofKind ref.clientInstanceId ref.kind.job.kind ∧ subjectIdOf ref.kind r.payload = some ref.id
  deriving Decidable

def Closed (s : State) (ref : SubjectRef) : Prop :=
  ref ∈ s.used ∧ ∀ row ∈ s.subjects, row.ref = ref → row.deletionRequested = true

def Gone (s : State) (ref : SubjectRef) : Prop := ref ∈ s.used ∧ ∀ row ∈ s.subjects, row.ref ≠ ref

theorem Gone.closed (h : Gone s ref) : Closed s ref := ⟨h.1, fun row hr he => absurd he (h.2 row hr)⟩

theorem job_kind_inj {k k' : SubjectKind} (h : k.job.kind = k'.job.kind) : k = k' := by
  cases k <;> cases k' <;> first | rfl | exact absurd h (by decide)

theorem deletionDedupeKey_inj (h : deletionDedupeKey k i = deletionDedupeKey k j) : i = j := by
  unfold deletionDedupeKey subjectDedupeKey at h
  exact String.append_right_inj _ |>.mp h

theorem schedule_other (hd : Deletes catalog) {schedule : JobSchedule} (h : schedule.kind ∈ catalog.kinds) :
    Other schedule.kind.kind := by
  intro k hk
  have he := List.inj_on_of_nodup_map catalog.names_nodup h (hd k) hk
  have ho := schedule.one_attempt
  rw [he] at ho
  cases k <;> cases ho

theorem payload_subject {r : Request} (h : r.fits = true) :
    subjectIdOf r.deletion.kind r.deletion.payload = some r.deletion.subjectId := by
  obtain ⟨i, d⟩ := r
  obtain ⟨id, hid⟩ := Option.isSome_iff_exists.mp h
  cases d with
  | account userId requestedBy actorUserId =>
    simp [Deletion.kind, Deletion.payload, subjectIdOf, textOf, Option.bind_eq_some_iff] at hid ⊢
    exact ⟨hid.1, hid.2.1, hid.2.2.1, hid.2.2.2.1, rfl⟩
  | workspace collaborationWorkspaceId actorUserId =>
    simp [Deletion.kind, Deletion.payload, subjectIdOf, textOf, Option.bind_eq_some_iff] at hid ⊢
    obtain ⟨⟨rfl, hne⟩, ha⟩ := hid
    exact ⟨⟨rfl, hne⟩, ha⟩

theorem JobOf.same (h : JobOf ref r) (hs : SameJob r r') : JobOf ref r' := by
  obtain ⟨⟨hi, hk⟩, hp⟩ := h
  exact ⟨⟨hs.clientInstanceId ▸ hi, hs.kind ▸ hk⟩, hs.payload ▸ hp⟩

structure Tracks (s : State) (ref : SubjectRef) (r : JobRow) : Prop where
  job : JobOf ref r
  dedupeKey : r.dedupeKey = some (deletionDedupeKey ref.kind ref.id)
  subject : s.subjectOf r.id = some ref.id
  closed : Closed s ref
  not_failed : r.status ≠ .failed
  not_cancelled : r.status ≠ .cancelled
  succeeded : r.status = .succeeded → Gone s ref

structure PassOk (catalog : Catalog) (s : State) (p : Pass) : Prop where
  closed : Closed s p.ref
  attempt : ∀ w row, p.attempt = some (w, row) →
    Serves catalog w ∧ row ∈ s.exec.handed ∧ JobOf p.ref row
  returned : p.phase = .ended .returned → Gone s p.ref
  threw : ∀ code message, p.phase ≠ .ended (.threw false code message)

structure DeletionsOk (catalog : Catalog) (s : State) : Prop where
  exec : StateOk catalog s.exec
  jobs : ∀ k : SubjectKind, ∀ r ∈ s.exec.queue.rows, r.kind = k.job.kind →
    ∃ id, Tracks s ⟨r.clientInstanceId, k, id⟩ r
  handed : ∀ k : SubjectKind, ∀ row ∈ s.exec.handed, row.kind = k.job.kind →
    ∃ id, JobOf ⟨row.clientInstanceId, k, id⟩ row ∧ Closed s ⟨row.clientInstanceId, k, id⟩
  passes : ∀ p ∈ s.passes, PassOk catalog s p
  pending : ∀ r ∈ s.pending, Closed s r.ref
  marked : ∀ row ∈ s.subjects, row.deletionRequested = true → ∃ r ∈ s.exec.queue.rows, JobOf row.ref r
  refs_nodup : (s.subjects.map (·.ref)).Nodup
  used : ∀ row ∈ s.subjects, row.ref ∈ s.used

theorem DeletionsOk.tracks (h : DeletionsOk catalog s) (hr : r ∈ s.exec.queue.rows) (hj : JobOf ref r) :
    Tracks s ref r := by
  obtain ⟨⟨hi, hk⟩, hp⟩ := hj
  obtain ⟨id, ht⟩ := h.jobs ref.kind r hr hk
  have hid : some id = some ref.id := ht.job.2.symm.trans hp
  obtain ⟨i, k, _⟩ := ref
  cases hid
  cases hi
  exact ht

/-- What no step takes back: ids that were used, marks, and what the tables recorded. -/
structure Later (s s' : State) : Prop where
  used : ∀ ref ∈ s.used, ref ∈ s'.used
  rows : ∀ row' ∈ s'.subjects, row'.ref ∈ s.used →
    ∃ row ∈ s.subjects, row.ref = row'.ref ∧ (row.deletionRequested = true → row'.deletionRequested = true)
  subject : ∀ j < s.exec.queue.fresh, s'.subjectOf j = s.subjectOf j
  handed : ∀ row ∈ s.exec.handed, row ∈ s'.exec.handed

theorem Closed.later (h : Closed s ref) (hl : Later s s') : Closed s' ref := by
  refine ⟨hl.used ref h.1, fun row' hr he => ?_⟩
  obtain ⟨row, hm, hre, hd⟩ := hl.rows row' hr (he ▸ h.1)
  exact hd (h.2 row hm (hre.trans he))

theorem Gone.later (h : Gone s ref) (hl : Later s s') : Gone s' ref := by
  refine ⟨hl.used ref h.1, fun row' hr he => ?_⟩
  obtain ⟨row, hm, hre, _⟩ := hl.rows row' hr (he ▸ h.1)
  exact h.2 row hm (hre.trans he)

theorem Tracks.later (h : Tracks s ref r) (hl : Later s s') (hid : r.id < s.exec.queue.fresh) : Tracks s' ref r where
  job := h.job
  dedupeKey := h.dedupeKey
  subject := (hl.subject r.id hid).trans h.subject
  closed := h.closed.later hl
  not_failed := h.not_failed
  not_cancelled := h.not_cancelled
  succeeded hs := (h.succeeded hs).later hl

theorem PassOk.later (h : PassOk catalog s p) (hl : Later s s') : PassOk catalog s' p where
  closed := h.closed.later hl
  attempt w row ha := by
    obtain ⟨hw, hh, hj⟩ := h.attempt w row ha
    exact ⟨hw, hl.handed row hh, hj⟩
  returned hp := (h.returned hp).later hl
  threw := h.threw

theorem DeletionsOk.later (h : DeletionsOk catalog s) (hl : Later s s') (hexec : StateOk catalog s'.exec)
    (hjobs : ∀ k : SubjectKind, ∀ r ∈ s'.exec.queue.rows, r.kind = k.job.kind →
      ∃ id, Tracks s' ⟨r.clientInstanceId, k, id⟩ r)
    (hhanded : ∀ row ∈ s'.exec.handed, row ∈ s.exec.handed ∨ row ∈ s'.exec.queue.rows)
    (hpasses : ∀ p ∈ s'.passes, p ∈ s.passes ∨ PassOk catalog s' p)
    (hpending : ∀ r ∈ s'.pending, r ∈ s.pending ∨ Closed s' r.ref)
    (hmarked : ∀ row ∈ s'.subjects, row.deletionRequested = true → ∃ r ∈ s'.exec.queue.rows, JobOf row.ref r)
    (hrefs : (s'.subjects.map (·.ref)).Nodup) (hused : ∀ row ∈ s'.subjects, row.ref ∈ s'.used) :
    DeletionsOk catalog s' where
  exec := hexec
  jobs := hjobs
  handed k row hr hk := by
    rcases hhanded row hr with hr | hr
    · obtain ⟨id, hj, hc⟩ := h.handed k row hr hk
      exact ⟨id, hj, hc.later hl⟩
    · obtain ⟨id, ht⟩ := hjobs k row hr hk
      exact ⟨id, ht.job, ht.closed⟩
  passes p hp := by
    rcases hpasses p hp with hp | hp
    · exact (h.passes p hp).later hl
    · exact hp
  pending r hr := by
    rcases hpending r hr with hr | hr
    · exact (h.pending r hr).later hl
    · exact hr
  marked := hmarked
  refs_nodup := hrefs
  used := hused

theorem DeletionsOk.same_queue (h : DeletionsOk catalog s) (hl : Later s s')
    (hq : s'.exec.queue = s.exec.queue) (hh : s'.exec.handed = s.exec.handed)
    (hpasses : ∀ p ∈ s'.passes, p ∈ s.passes ∨ PassOk catalog s' p)
    (hpending : ∀ r ∈ s'.pending, r ∈ s.pending ∨ Closed s' r.ref)
    (hmarked : ∀ row ∈ s'.subjects, row.deletionRequested = true → row ∈ s.subjects)
    (hrefs : (s'.subjects.map (·.ref)).Nodup) (hused : ∀ row ∈ s'.subjects, row.ref ∈ s'.used) :
    DeletionsOk catalog s' := by
  refine h.later hl ⟨hq ▸ h.exec.queue, fun row hr => hq ▸ h.exec.handed row (hh ▸ hr)⟩ (fun k r hr hk => ?_)
    (fun row hr => .inl (hh ▸ hr)) hpasses hpending (fun row hr hd => ?_) hrefs hused
  · rw [hq] at hr
    obtain ⟨id, ht⟩ := h.jobs k r hr hk
    exact ⟨id, ht.later hl (h.exec.queue.ids_lt r hr)⟩
  · rw [hq]
    exact h.marked row (hmarked row hr hd) hd

-- -----------------
-- The executor
-- -----------------

def Fitting (s : State) (ref : SubjectRef) (ending : JobEnding) : Prop :=
  (∀ code message, ending ≠ .failed code message) ∧ (ending = .succeeded → Gone s ref)

theorem Tracks.ended (h : Tracks s ref r) (he : Fitting s ref ending) : Tracks s ref (endedRow ending now r) where
  job := h.job.same (endedRow_same ending now r)
  dedupeKey := (endedRow_same ending now r).dedupeKey.trans h.dedupeKey
  subject := (endedRow_same ending now r).id ▸ h.subject
  closed := h.closed
  not_failed := by
    cases ending with
    | failed code message => exact absurd rfl (he.1 code message)
    | _ => exact fun hs => nomatch hs
  not_cancelled := by cases ending <;> exact fun hs => nomatch hs
  succeeded := by
    cases ending with
    | succeeded => exact fun _ => he.2 rfl
    | _ => exact fun hs => nomatch hs

theorem Tracks.of_live (h : Tracks s ref r) (hs : SameJob r r') (hl : r'.Live) : Tracks s ref r' where
  job := h.job.same hs
  dedupeKey := hs.dedupeKey.trans h.dedupeKey
  subject := hs.id ▸ h.subject
  closed := h.closed
  not_failed hf := by rcases hl with hl | hl <;> rw [hf] at hl <;> cases hl
  not_cancelled hf := by rcases hl with hl | hl <;> rw [hf] at hl <;> cases hl
  succeeded hf := by rcases hl with hl | hl <;> rw [hf] at hl <;> cases hl

structure EndsWell (catalog : Catalog) (s : State) (a : Jobs.Action) (ref : SubjectRef) (r : JobRow) (clock : Time) :
    Prop where
  settle : ∀ w kind row attempt hookFails, a = .settle w kind row attempt hookFails →
    r.heldBy row.lease clock → Fitting s ref ((w.outcomeOf kind row attempt).stored hookFails)
  bury : ∀ w jobId hookFails, a = .bury w jobId hookFails → Serves catalog w

theorem not_tick {r : JobRow} {k : SubjectKind} (hd : Deletes catalog) (hw : Serves catalog w)
    (hk : r.kind = k.job.kind) :
    w.scheduleOf r.kind = none := by
  unfold Worker.scheduleOf
  rw [List.find?_eq_none]
  intro schedule hs he
  exact schedule_other hd (hw schedule hs) k ((of_decide_eq_true he).trans hk)

theorem Tracks.change (h : Tracks s ref r) (hd : Deletes catalog) (hc : RowChange fresh now clock a r r')
    (he : EndsWell catalog s a ref r clock) : Tracks s ref r' := by
  have hsame := hc.same
  cases hc with
  | unchanged => exact h
  | dueNow hs => exact h.of_live hsame (.inl hs)
  | claimed => exact h.of_live hsame (.inr rfl)
  | recovered => exact h.of_live hsame (.inl rfl)
  | reclaimed => exact h.of_live hsame (.inr rfl)
  | beat hh => exact h.of_live hsame (.inr hh.2.2.1)
  | renewed hh => exact h.of_live hsame (.inr hh.2.2.1)
  | ended hh => exact h.ended (he.settle _ _ _ _ _ rfl hh)
  | buried =>
    refine h.ended ?_
    have hn := not_tick hd (he.bury _ _ _ rfl) h.job.1.2
    simp [Fitting, Worker.buryEnding, Worker.isTick, hn]
  | requeued => exact h.of_live hsame (.inl rfl)

theorem DeletionsOk.tracks_transact (h : DeletionsOk catalog s) (hd : Deletes catalog)
    (ha : Allowed catalog s.exec.handed since clock a) (hadds : ∀ k : SubjectKind, ¬ a.Adds k.job.kind)
    (hends : ∀ ref, ∀ r ∈ s.exec.queue.rows, Tracks s ref r → EndsWell catalog s a ref r clock)
    (hr : r' ∈ (transact s.exec.queue now clock a).2.rows) {k : SubjectKind} (hk : r'.kind = k.job.kind) :
    (∃ id, Tracks s ⟨r'.clientInstanceId, k, id⟩ r') ∧ r'.id < s.exec.queue.fresh := by
  have hq' : QueueOk catalog (transact s.exec.queue now clock a).2 := h.exec.queue.transact h.exec.handed ha
  rcases transact_origin h.exec.queue hq'.ids_nodup hr with ⟨r, hm, hc⟩ | ⟨hn, _⟩
  · obtain ⟨id, ht⟩ := h.jobs k r hm (hc.same.kind.symm.trans hk)
    have hend := hends _ r hm ht
    refine ⟨⟨id, ?_⟩, hc.id ▸ h.exec.queue.ids_lt r hm⟩
    rw [hc.same.clientInstanceId]
    exact ht.change hd hc hend
  · exact absurd (hk ▸ hn) (hadds k)

theorem DeletionsOk.of_transact (h : DeletionsOk catalog s) (hd : Deletes catalog)
    (ha : Allowed catalog s.exec.handed since clock a) (hadds : ∀ k : SubjectKind, ¬ a.Adds k.job.kind)
    (hends : ∀ ref, ∀ r ∈ s.exec.queue.rows, Tracks s ref r → EndsWell catalog s a ref r clock)
    (hl : Later s s') (hexec : StateOk catalog s'.exec)
    (hq : s'.exec.queue = (transact s.exec.queue now clock a).2)
    (hhanded : ∀ row ∈ s'.exec.handed, row ∈ s.exec.handed ∨ row ∈ s'.exec.queue.rows)
    (hpasses : ∀ p ∈ s'.passes, p ∈ s.passes) (hpending : s'.pending = s.pending)
    (hsubjects : s'.subjects = s.subjects) : DeletionsOk catalog s' := by
  refine h.later hl hexec (fun k r hr hk => ?_) hhanded (fun p hp => .inl (hpasses p hp))
    (fun r hr => .inl (hpending ▸ hr)) (fun row hr hm => ?_) (hsubjects ▸ h.refs_nodup)
    (fun row hr => hl.used _ (h.used row (hsubjects ▸ hr)))
  · obtain ⟨⟨id, ht⟩, hid⟩ := h.tracks_transact hd ha hadds hends (hq ▸ hr) hk
    exact ⟨id, ht.later hl hid⟩
  · obtain ⟨r, hr, hj⟩ := h.marked row (hsubjects ▸ hr) hm
    obtain ⟨r', hr', hc⟩ := (transact_moves h.exec.queue.ids_nodup now clock a).mem_left hr
    exact ⟨r', hq ▸ hr', hj.same hc.same⟩

theorem Later.of_subjects (hs : s'.subjects = s.subjects) (hu : s'.used = s.used)
    (hj : ∀ j < s.exec.queue.fresh, s'.subjectOf j = s.subjectOf j)
    (hh : ∀ row ∈ s.exec.handed, row ∈ s'.exec.handed) : Later s s' :=
  ⟨fun _ h => hu ▸ h, fun row' hr _ => ⟨row', hs ▸ hr, rfl, id⟩, hj, hh⟩

theorem free_adds (hd : Deletes catalog) (hf : Free catalog a) (k : SubjectKind) : ¬ a.Adds k.job.kind := by
  cases a with
  | enqueue => exact hf.elim
  | ensureTick w schedule => exact fun h => schedule_other hd hf k h.symm
  | settle w kind row attempt hookFails =>
    rintro ⟨schedule, hs, he⟩
    exact schedule_other hd (hf.1 schedule hs) k he.symm
  | bury w jobId hookFails =>
    rintro ⟨schedule, hs, he⟩
    exact schedule_other hd (hf schedule hs) k he.symm
  | _ => exact id

theorem DeletionsOk.free_ends (h : DeletionsOk catalog s) (hf : Free catalog a)
    (ha : Allowed catalog s.exec.handed since clock a) (hr : r ∈ s.exec.queue.rows) (ht : Tracks s ref r) :
    EndsWell catalog s a ref r clock where
  settle w kind row attempt hookFails he hh := by
    subst he
    have hs := (h.exec.handed row ha.2.1).same hr hh
    exact absurd (ha.2.2.symm.trans (hs.kind.symm.trans ht.job.1.2)) (hf.2 ref.kind)
  bury w jobId hookFails he := by
    subst he
    exact hf

theorem DeletionsOk.executor (h : DeletionsOk catalog s) (hd : Deletes catalog) {st : Step}
    (hst : st.action = .executor a) (he : (deletions catalog).enabled s st) :
    DeletionsOk catalog ((deletions catalog).next s st) := by
  obtain ⟨now, clock, action⟩ := st
  cases hst
  obtain ⟨hc, hn, hf, ha⟩ := he
  refine h.of_transact hd ha (free_adds hd hf) (fun ref r hr ht => h.free_ends hf ha hr ht)
    (.of_subjects rfl rfl (fun _ _ => rfl) fun row hr => List.mem_append_left _ hr)
    (executor_preserves catalog s.exec ⟨now, clock, a⟩ h.exec ⟨hc, hn, ha⟩) rfl (fun row hr => ?_)
    (fun p hp => hp) rfl rfl
  rcases List.mem_append.mp hr with hr | hr
  · exact .inl hr
  · cases a with
    | claim w kind limit locked => exact .inr (claimJobs_returned h.exec.queue hr).1
    | _ => simp [Jobs.Answer.rows] at hr

theorem State.enqueue_later (s : State) :
    Later s (s.enqueue now clock kind payload options subject) :=
  .of_subjects rfl rfl (fun _ hj => if_neg (Nat.ne_of_lt hj)) fun _ hr => hr

theorem DeletionsOk.enqueue_other (h : DeletionsOk catalog s) (hd : Deletes catalog) (hk : Other kind.kind) :
    DeletionsOk catalog (s.enqueue now clock kind payload options subject) :=
  have ha : Allowed catalog s.exec.handed clock clock (.enqueue kind payload options) := trivial
  h.of_transact hd ha (fun k he => hk k he.symm)
    (fun _ _ _ _ => ⟨fun _ _ _ _ _ he => (nomatch he), fun _ _ _ he => (nomatch he)⟩)
    s.enqueue_later (h.exec.transact ha) rfl (fun _ hr => .inl hr) (fun _ hp => hp) rfl rfl

def holds (ref : SubjectRef) (r : JobRow) : Prop :=
  r.liveWithKey ref.clientInstanceId ref.kind.job.kind (deletionDedupeKey ref.kind ref.id)
  deriving Decidable

structure Enqueued (q : Queue) (now : Time) (r : Request) (runAfter : Option Time) (job : JobRow) : Prop where
  fresh : job.id = q.fresh
  names : JobOf r.ref job
  dedupeKey : job.dedupeKey = some (deletionDedupeKey r.deletion.kind r.deletion.subjectId)
  queued : job.status = .queued
  runAfter : job.runAfter = runAfter.getD now

theorem enqueueDeletion_cases (s : State) (now clock : Time) (runAfter : Option Time) {r : Request}
    (hf : r.fits = true) :
    (∃ job ∈ s.exec.queue.rows, holds r.ref job ∧
      (s.enqueueDeletion now clock r runAfter).exec.queue = s.exec.queue) ∨
    ((∀ job ∈ s.exec.queue.rows, ¬ holds r.ref job) ∧ ∃ job, Enqueued s.exec.queue now r runAfter job ∧
      (s.enqueueDeletion now clock r runAfter).exec.queue.rows = s.exec.queue.rows ++ [job]) := by
  simp only [State.enqueueDeletion, State.enqueue, State.withQueue, transact, enqueueJob]
  cases hh : liveHolder s.exec.queue r.deletion.kind.job
    ⟨r.clientInstanceId, runAfter, some (deletionDedupeKey r.deletion.kind r.deletion.subjectId),
      some r.deletion.subjectId, 0⟩ with
  | some job =>
    have hj : s.exec.queue.rows.find? (fun x => holds r.ref x) = some job := hh
    exact .inl ⟨job, List.mem_of_find?_eq_some hj, by simpa using List.find?_some hj, rfl⟩
  | none =>
    refine .inr ⟨fun job hj => liveHolder_none hh rfl hj, _, ?_, rfl⟩
    exact ⟨rfl, ⟨⟨rfl, rfl⟩, payload_subject hf⟩, rfl, rfl, by simp [queuedJob]⟩

theorem DeletionsOk.holds_iff (h : DeletionsOk catalog s) (hr : r ∈ s.exec.queue.rows) :
    holds ref r ↔ JobOf ref r ∧ r.Live := by
  constructor
  · rintro ⟨⟨hi, hk⟩, hkey, hlive⟩
    obtain ⟨id, ht⟩ := h.jobs ref.kind r hr hk
    have hid : id = ref.id := deletionDedupeKey_inj (Option.some.inj (ht.dedupeKey.symm.trans hkey))
    exact ⟨⟨⟨hi, hk⟩, hid ▸ ht.job.2⟩, hlive⟩
  · rintro ⟨hj, hlive⟩
    exact ⟨hj.1, (h.tracks hr hj).dedupeKey, hlive⟩

/-- A step that enqueues a deletion: afterwards its subject has a job, made now or before. -/
theorem DeletionsOk.of_enqueue (h : DeletionsOk catalog s) {r : Request} (hf : r.fits = true) (hl : Later s s')
    (hexec : s'.exec = (s.enqueueDeletion now clock r runAfter).exec)
    (hsubject : s'.subjectOf = (s.enqueueDeletion now clock r runAfter).subjectOf) (hc : Closed s' r.ref)
    (hpasses : ∀ p ∈ s'.passes, p ∈ s.passes ∨ PassOk catalog s' p) (hpending : ∀ x ∈ s'.pending, x ∈ s.pending)
    (hmarked : ∀ row ∈ s'.subjects, row.deletionRequested = true → row.ref = r.ref ∨ row ∈ s.subjects)
    (hrefs : (s'.subjects.map (·.ref)).Nodup) (hused : ∀ row ∈ s'.subjects, row.ref ∈ s'.used) :
    DeletionsOk catalog s' := by
  have hok : StateOk catalog s'.exec := by
    have ha : Allowed catalog s.exec.handed clock clock (.enqueue r.deletion.kind.job r.deletion.payload
      ⟨r.clientInstanceId, runAfter, some (deletionDedupeKey r.deletion.kind r.deletion.subjectId),
        some r.deletion.subjectId, 0⟩) := trivial
    rw [hexec]
    exact h.exec.transact ha
  have hhanded : s'.exec.handed = s.exec.handed := by rw [hexec]; rfl
  rcases enqueueDeletion_cases s now clock runAfter hf with ⟨job, hj, hh, hq⟩ | ⟨_, job, hjob, hq⟩
  · rw [← hexec] at hq
    refine h.later hl hok (fun k x hx hk => ?_) (fun _ hr => .inl (hhanded ▸ hr)) hpasses
      (fun x hx => .inl (hpending x hx)) (fun row hr hd => ?_) hrefs hused
    · rw [hq] at hx
      obtain ⟨id, ht⟩ := h.jobs k x hx hk
      exact ⟨id, ht.later hl (h.exec.queue.ids_lt x hx)⟩
    · rw [hq]
      rcases hmarked row hr hd with he | hr
      · exact ⟨job, hj, he ▸ ((h.holds_iff hj).mp hh).1⟩
      · exact h.marked row hr hd
  · rw [← hexec] at hq
    have hnew : Tracks s' r.ref job := by
      refine ⟨hjob.names, hjob.dedupeKey, ?_, hc, ?_, ?_, ?_⟩
      · rw [hsubject]
        exact if_pos hjob.fresh
      all_goals
        intro hs
        cases hjob.queued.symm.trans hs
    refine h.later hl hok (fun k x hx hk => ?_) (fun _ hr => .inl (hhanded ▸ hr)) hpasses
      (fun x hx => .inl (hpending x hx)) (fun row hr hd => ?_) hrefs hused
    · rw [hq] at hx
      rcases List.mem_append.mp hx with hx | hx
      · obtain ⟨id, ht⟩ := h.jobs k x hx hk
        exact ⟨id, ht.later hl (h.exec.queue.ids_lt x hx)⟩
      · obtain rfl := List.mem_singleton.mp hx
        obtain rfl := job_kind_inj (hk.symm.trans hnew.job.1.2)
        rw [hnew.job.1.1]
        exact ⟨_, hnew⟩
    · rw [hq]
      rcases hmarked row hr hd with he | hr
      · exact ⟨job, List.mem_append_right _ List.mem_cons_self, he ▸ hjob.names⟩
      · obtain ⟨x, hx, hj⟩ := h.marked row hr hd
        exact ⟨x, List.mem_append_left _ hx, hj⟩

theorem DeletionsOk.at (h : DeletionsOk catalog s) : DeletionsOk catalog (s.at clock) :=
  h.same_queue (.of_subjects rfl rfl (fun _ _ => rfl) fun _ hr => hr) rfl rfl (fun _ hp => .inl hp)
    (fun _ hp => .inl hp) (fun _ hr _ => hr) h.refs_nodup h.used

theorem DeletionsOk.find (h : DeletionsOk catalog s) (hf : s.subjects.find? (·.ref = ref) = some row) :
    row ∈ s.subjects ∧ row.ref = ref :=
  (find?_key_eq_some h.refs_nodup).mp hf

theorem DeletionsOk.marks (h : DeletionsOk catalog s) (hm : markDeletionRequested s.subjects ref = .ok (fresh, subjects)) :
    ref ∈ s.used ∧ ((fresh = false ∧ subjects = s.subjects ∧ Closed s ref) ∨ (fresh = true ∧
      subjects = mark s.subjects ref)) := by
  unfold markDeletionRequested at hm
  split at hm
  · cases hm
  · rename_i row hf
    obtain ⟨hr, rfl⟩ := h.find hf
    refine ⟨h.used row hr, ?_⟩
    split_ifs at hm with hp hd
    · cases hm
      refine .inl ⟨rfl, rfl, h.used row hr, fun x hx he => ?_⟩
      rw [eq_of_key h.refs_nodup hx hr he]
      exact hd
    · cases hm
      exact .inr ⟨rfl, rfl⟩

theorem mark_refs : (mark subjects ref).map (·.ref) = subjects.map (·.ref) :=
  map_updateWhere SubjectRow.ref fun _ _ => rfl

theorem mem_mark (hx : x ∈ mark subjects ref) :
    (∃ y ∈ subjects, y.ref = x.ref ∧ (y.deletionRequested = true → x.deletionRequested = true)) ∧
      ((x.ref = ref ∧ x.deletionRequested = true) ∨ (x.ref ≠ ref ∧ x ∈ subjects)) := by
  obtain ⟨y, hy, rfl⟩ := mem_updateWhere.mp hx
  by_cases he : y.ref = ref
  · rw [if_pos he]
    exact ⟨⟨y, hy, rfl, fun _ => rfl⟩, .inl ⟨he, rfl⟩⟩
  · rw [if_neg he]
    exact ⟨⟨y, hy, rfl, id⟩, .inr ⟨he, hy⟩⟩

theorem DeletionsOk.accept (h : DeletionsOk catalog s) (r : Request) :
    DeletionsOk catalog (s.accept now clock r).2 := by
  unfold State.accept
  cases hm : markDeletionRequested s.subjects r.ref with
  | error e => exact h.at
  | ok marked =>
    obtain ⟨fresh, subjects⟩ := marked
    obtain ⟨hu, ⟨rfl, rfl, hc⟩ | ⟨rfl, rfl⟩⟩ := h.marks hm
    · have hat : DeletionsOk catalog (s.at clock) := h.at
      refine hat.same_queue (.of_subjects rfl rfl (fun _ _ => rfl) fun _ hr => hr) rfl rfl (fun _ hp => .inl hp)
        (fun x hx => ?_) (fun _ hr _ => hr) h.refs_nodup h.used
      rcases List.mem_cons.mp hx with rfl | hx
      · exact .inr hc
      · exact .inl hx
    · simp only
      split_ifs with hf
      · have hc : Closed (State.enqueueDeletion { s with
            subjects := mark s.subjects r.ref
            passes := ⟨none, r.ref, .reading⟩ :: s.passes } now clock r (some (clock + 60000))) r.ref := by
          refine ⟨hu, fun x hx he => ?_⟩
          rcases (mem_mark hx).2 with ⟨_, hd⟩ | ⟨hne, _⟩
          · exact hd
          · exact absurd he hne
        refine h.of_enqueue hf ⟨fun _ hr => hr, fun x hx _ => (mem_mark hx).1, fun _ hj => if_neg (Nat.ne_of_lt hj),
          fun _ hr => hr⟩ rfl rfl hc (fun p hp => ?_) (fun _ hx => hx)
          (fun x hx _ => (mem_mark hx).2.imp And.left And.right) ?_ (fun x hx => ?_)
        · rcases List.mem_cons.mp hp with rfl | hp
          · exact .inr ⟨hc, fun _ _ ha => (nomatch ha), fun hp => (nomatch hp), fun _ _ hp => (nomatch hp)⟩
          · exact .inl hp
        · exact mark_refs.symm ▸ h.refs_nodup
        · rcases (mem_mark hx).2 with ⟨he, _⟩ | ⟨_, hx⟩
          · exact he ▸ hu
          · exact h.used x hx
      · exact h.at

theorem DeletionsOk.enqueueAgain (h : DeletionsOk catalog s) (hr : r ∈ s.pending) :
    DeletionsOk catalog (s.enqueueAgain now clock r).2 := by
  have hc := h.pending r hr
  unfold State.enqueueAgain
  simp only
  split_ifs with hf
  · exact h.of_enqueue hf (.of_subjects rfl rfl (fun _ hj => if_neg (Nat.ne_of_lt hj)) fun _ hr => hr) rfl rfl hc
      (fun _ hp => .inl hp) (fun _ hx => List.mem_of_mem_erase hx) (fun _ hr _ => .inr hr) h.refs_nodup h.used
  · exact h.same_queue (.of_subjects rfl rfl (fun _ _ => rfl) fun _ hr => hr) rfl rfl (fun _ hp => .inl hp)
      (fun _ hx => .inl (List.mem_of_mem_erase hx)) (fun _ hr _ => hr) h.refs_nodup h.used

theorem DeletionsOk.create (h : DeletionsOk catalog s) (hu : row.ref ∉ s.used) (hd : row.deletionRequested = false) :
    DeletionsOk catalog { s.at clock with subjects := row :: s.subjects, used := row.ref :: s.used } := by
  refine h.same_queue ⟨fun _ hr => List.mem_cons_of_mem _ hr, fun x hx hxu => ?_, fun _ _ => rfl, fun _ hr => hr⟩
    rfl rfl (fun _ hp => .inl hp) (fun _ hp => .inl hp) (fun x hx hxd => ?_) ?_ (fun x hx => ?_)
  · rcases List.mem_cons.mp hx with rfl | hx
    · exact absurd hxu hu
    · exact ⟨x, hx, rfl, id⟩
  · rcases List.mem_cons.mp hx with rfl | hx
    · rw [hd] at hxd
      cases hxd
    · exact hx
  · refine List.nodup_cons.mpr ⟨fun hm => ?_, h.refs_nodup⟩
    obtain ⟨x, hx, he⟩ := List.mem_map.mp hm
    exact hu ((show x.ref = row.ref from he) ▸ h.used x hx)
  · rcases List.mem_cons.mp hx with rfl | hx
    · exact List.mem_cons_self
    · exact List.mem_cons_of_mem _ (h.used x hx)

-- -----------------
-- Passes
-- -----------------

theorem DeletionsOk.passes_only (h : DeletionsOk catalog s)
    (hp : ∀ p ∈ ps, p ∈ s.passes ∨ PassOk catalog s p) : DeletionsOk catalog { s.at clock with passes := ps } := by
  have hl : Later s { s.at clock with passes := ps } := .of_subjects rfl rfl (fun _ _ => rfl) fun _ hr => hr
  exact h.same_queue hl rfl rfl (fun p hm => (hp p hm).imp_right fun h => h.later hl) (fun _ hp => .inl hp)
    (fun _ hr _ => hr) h.refs_nodup h.used

theorem PassOk.phase {f : Phase} (h : PassOk catalog s p) (hr : f = .ended .returned → Gone s p.ref)
    (ht : ∀ code message, f ≠ .ended (.threw false code message)) : PassOk catalog s { p with phase := f } :=
  ⟨h.closed, h.attempt, hr, ht⟩

theorem DeletionsOk.advance {f : Phase} (h : DeletionsOk catalog s) (hp : p ∈ s.passes)
    (hr : f = .ended .returned → Gone s p.ref) (ht : ∀ code message, f ≠ .ended (.threw false code message)) :
    DeletionsOk catalog ((s.at clock).advance p { p with phase := f }) := by
  refine h.passes_only fun x hx => ?_
  rcases List.mem_cons.mp hx with rfl | hx
  · exact .inr ((h.passes p hp).phase hr ht)
  · exact .inl (List.mem_of_mem_erase hx)

theorem DeletionsOk.start (h : DeletionsOk catalog s) (hw : Serves catalog w) (hr : row ∈ s.exec.handed)
    {k : SubjectKind} (hk : row.kind = k.job.kind) :
    DeletionsOk catalog { s.at clock with passes := beginPass w row k :: s.passes } := by
  refine h.passes_only fun p hp => ?_
  rcases List.mem_cons.mp hp with rfl | hp
  · obtain ⟨id, hj, hc⟩ := h.handed k row hr hk
    have hid : subjectIdOf k row.payload = some id := hj.2
    right
    simp only [beginPass, hid]
    exact ⟨hc, fun w' row' ha => by cases ha; exact ⟨hw, hr, hj⟩, fun hp => (nomatch hp), fun _ _ hp => (nomatch hp)⟩
  · exact .inl hp

theorem DeletionsOk.read (h : DeletionsOk catalog s) (hc : Closed s ref) :
    (readSubject s.subjects ref = .ended .returned ∧ Gone s ref) ∨
      (readSubject s.subjects ref = .cleaning ∧ ¬ Gone s ref) := by
  unfold readSubject
  cases hf : s.subjects.find? (·.ref = ref) with
  | none => exact .inl ⟨rfl, hc.1, find?_key_eq_none.mp hf⟩
  | some row =>
    obtain ⟨hr, he⟩ := h.find hf
    refine .inr ⟨?_, fun hg => hg.2 row hr he⟩
    cases ref.kind <;> simp [hc.2 row hr he]

/-- A step that removes jobs, none of them one that a marked subject still needs. -/
theorem DeletionsOk.removes (h : DeletionsOk catalog s) (hl : Later s s') (hkept : List.Sublist kept s.exec.queue.rows)
    (hq : s'.exec.queue = { s.exec.queue with rows := kept }) (hh : s'.exec.handed = s.exec.handed)
    (hpasses : ∀ p ∈ s'.passes, p ∈ s.passes ∨ PassOk catalog s' p) (hpending : s'.pending = s.pending)
    (hmarked : ∀ row ∈ s'.subjects, row ∈ s.subjects ∧ ∀ r ∈ s.exec.queue.rows, Tracks s row.ref r → r ∈ kept)
    (hrefs : (s'.subjects.map (·.ref)).Nodup) (hused : ∀ row ∈ s'.subjects, row.ref ∈ s'.used) :
    DeletionsOk catalog s' := by
  have hok : StateOk catalog s'.exec :=
    ⟨hq ▸ h.exec.queue.sublist hkept, fun row hr => hq ▸ (h.exec.handed row (hh ▸ hr)).sublist hkept⟩
  refine h.later hl hok (fun k r hr hk => ?_) (fun _ hr => .inl (hh ▸ hr)) hpasses (fun _ hr => .inl (hpending ▸ hr))
    (fun row hr hd => ?_) hrefs hused
  · rw [hq] at hr
    have hm := hkept.subset hr
    obtain ⟨id, ht⟩ := h.jobs k r hm hk
    exact ⟨id, ht.later hl (h.exec.queue.ids_lt r hm)⟩
  · obtain ⟨hm, hkeep⟩ := hmarked row hr
    obtain ⟨r, hr, hj⟩ := h.marked row hm hd
    exact ⟨r, hq ▸ hkeep r hr (h.tracks hr hj), hj⟩

theorem fenced_ok (h : Pass.fenced p q checkedAt clock = .ok q') (now : Time) :
    q' = q ∨ ∃ w row, p.attempt = some (w, row) ∧
      q' = (transact q now clock (.transaction p.ref.kind.job row checkedAt)).2 := by
  unfold Pass.fenced at h
  split at h
  · cases h
    exact .inl rfl
  · rename_i w row ha
    split at h
    · rename_i x hx
      cases h
      refine .inr ⟨w, row, ha, ?_⟩
      simp only [transact, hx]
    · cases h

theorem fenced_lost (h : Pass.fenced p q checkedAt clock = .error lost) : ∃ jobId, lost = leaseLost jobId := by
  unfold Pass.fenced at h
  split at h
  · cases h
  · split at h
    · cases h
    · cases h
      exact ⟨_, rfl⟩

theorem DeletionsOk.fenced (h : DeletionsOk catalog s) (hd : Deletes catalog) (hp : p ∈ s.passes)
    (hc : s.exec.clock ≤ checkedAt) (hle : checkedAt ≤ clock)
    (hf : p.fenced s.exec.queue checkedAt clock = .ok q) : DeletionsOk catalog (s.withQueue q clock) := by
  rcases fenced_ok hf clock with rfl | ⟨w, row, hw, rfl⟩
  · exact h.at
  · obtain ⟨_, hr, hj⟩ := (h.passes p hp).attempt w row hw
    have ha : Allowed catalog s.exec.handed s.exec.clock clock (.transaction p.ref.kind.job row checkedAt) :=
      ⟨⟨hd _, hr, hj.1.2⟩, hc, hle⟩
    have hq : (s.withQueue (transact s.exec.queue clock clock (.transaction p.ref.kind.job row checkedAt)).2
      clock).exec.queue = (transact s.exec.queue clock clock (.transaction p.ref.kind.job row checkedAt)).2 := rfl
    exact h.of_transact hd ha (fun _ he => he)
      (fun _ _ _ _ => ⟨fun _ _ _ _ _ he => (nomatch he), fun _ _ _ he => (nomatch he)⟩)
      (.of_subjects rfl rfl (fun _ _ => rfl) fun _ hr => hr) (h.exec.transact ha) hq (fun _ hr => .inl hr)
      (fun _ hp => hp) rfl rfl

theorem DeletionsOk.finish (h : DeletionsOk catalog s) (hd : Deletes catalog) (hp : p ∈ s.passes)
    (hc : s.exec.clock ≤ checkedAt) (hle : checkedAt ≤ clock) : DeletionsOk catalog (s.finish p checkedAt clock) := by
  unfold State.finish
  cases hf : p.fenced s.exec.queue checkedAt clock with
  | error lost =>
    obtain ⟨jobId, rfl⟩ := fenced_lost hf
    exact h.advance hp (fun hr => nomatch hr) fun _ _ ht => nomatch ht
  | ok q =>
    simp only
    split_ifs with hx
    · have h₁ := h.fenced hd hp hc hle hf
      have hpass := h₁.passes p hp
      have hl : Later (s.withQueue q clock)
          { (s.withQueue (withdraw q p.ref) clock).advance p { p with phase := .ended .returned } with
            subjects := deleteWhere (·.ref = p.ref) s.subjects } :=
        ⟨fun _ hr => hr, fun x hx _ => ⟨x, (mem_deleteWhere.mp hx).1, rfl, id⟩, fun _ _ => rfl, fun _ hr => hr⟩
      refine h₁.removes hl List.filter_sublist rfl rfl (fun x hx => ?_) rfl (fun x hx => ?_)
        (map_deleteWhere_nodup _ h.refs_nodup) (fun x hx => h.used x (mem_deleteWhere.mp hx).1)
      · rcases List.mem_cons.mp hx with rfl | hx
        · refine .inr ((hpass.later hl).phase (fun _ => ⟨hpass.closed.1, fun y hy => ?_⟩) fun _ _ ht => nomatch ht)
          simpa using (mem_deleteWhere.mp hy).2
        · exact .inl (List.mem_of_mem_erase hx)
      · -- the withdrawal names the subject that is gone, and another subject's job another key
        obtain ⟨hm, hne⟩ := mem_deleteWhere.mp hx
        refine ⟨hm, fun r hr ht => mem_deleteWhere.mpr ⟨hr, ?_⟩⟩
        rintro ⟨⟨hi, hk⟩, hkey, _⟩
        have hkind : x.ref.kind = p.ref.kind := job_kind_inj (ht.job.1.2.symm.trans hk)
        have hid := Option.some.inj (ht.dedupeKey.symm.trans hkey)
        rw [hkind] at hid
        exact hne (SubjectRef.ext (ht.job.1.1.symm.trans hi) hkind (deletionDedupeKey_inj hid))
    · exact h.advance hp (fun hr => nomatch hr) fun _ _ ht => nomatch ht

theorem JobOf.unique (h : JobOf ref r) (h' : JobOf ref' r) : ref = ref' := by
  have hk : ref.kind = ref'.kind := job_kind_inj (h.1.2.symm.trans h'.1.2)
  refine SubjectRef.ext (h.1.1.symm.trans h'.1.1) hk ?_
  have hid := h.2
  rw [hk] at hid
  exact Option.some.inj (hid.symm.trans h'.2)

/-- How the attempt at a deletion is stored: as succeeded when it returned, and never as failed. -/
theorem settled_fitting (hd : Deletes catalog) (hw : Serves catalog w) {row : JobRow} {k : SubjectKind}
    (hk : row.kind = k.job.kind) (hr : attempt = .returned → Gone s ref)
    (ht : ∀ code message, attempt ≠ .threw false code message) :
    Fitting s ref ((w.outcomeOf kind row (settled stopping attempt)).stored hookFails) := by
  have hn := not_tick hd hw hk
  cases attempt with
  | returned => exact ⟨fun _ _ he => (nomatch he), fun _ => hr rfl⟩
  | stopped => exact ⟨fun _ _ he => (nomatch he), fun he => (nomatch he)⟩
  | threw retryable code message =>
    cases retryable with
    | false => exact absurd rfl (ht code message)
    | true =>
      cases stopping with
      | true => exact ⟨fun _ _ he => (nomatch he), fun he => (nomatch he)⟩
      | false =>
        simp only [settled, Worker.outcomeOf, Worker.isTick, hn, Outcome.stored]
        split_ifs <;> simp_all [Fitting]

theorem DeletionsOk.settle (h : DeletionsOk catalog s) (hd : Deletes catalog) (hp : p ∈ s.passes)
    (ha : p.attempt = some (w, row)) (hphase : p.phase = .ended attempt) :
    DeletionsOk catalog
      { s.withQueue (transact s.exec.queue now clock
          (.settle w p.ref.kind.job row (settled stopping attempt) hookFails)).2 clock with
        passes := s.passes.erase p } := by
  have hpass := h.passes p hp
  obtain ⟨hw, hr, hj⟩ := hpass.attempt w row ha
  have hallowed : Allowed catalog s.exec.handed s.exec.clock clock
      (.settle w p.ref.kind.job row (settled stopping attempt) hookFails) := ⟨hd _, hr, hj.1.2⟩
  refine h.of_transact hd hallowed (fun k he => ?_) (fun ref r hm ht => ⟨?_, fun _ _ _ he => (nomatch he)⟩)
    (.of_subjects rfl rfl (fun _ _ => rfl) fun _ hr => hr) (h.exec.transact hallowed) rfl (fun _ hr => .inl hr)
    (fun _ hx => List.mem_of_mem_erase hx) rfl rfl
  · obtain ⟨schedule, hs, he⟩ := he
    exact schedule_other hd (hw schedule hs) k he.symm
  · rintro _ _ _ _ _ he hh
    cases he
    have hsame := (h.exec.handed row hr).same hm hh
    obtain rfl := (hj.same hsame).unique ht.job
    exact settled_fitting hd hw hj.1.2 (fun he => hpass.returned (he ▸ hphase))
      fun code message he => hpass.threw code message (he ▸ hphase)

theorem Tracks.not_pruned (h : Tracks s row.ref r) (hr : row ∈ s.subjects) :
    ¬ (r.clientInstanceId = instanceId ∧ r.status ∈ Pruned.statuses which ∧
      (∃ e ∈ r.finishedAt, e + which.retentionMs < now) ∧ ¬ deadJobOfSubjectInDeletion s r) := by
  rintro ⟨_, hs, _, hn⟩
  cases which with
  | completed =>
    rcases List.mem_cons.mp hs with hs | hs
    · exact (h.succeeded hs).2 row hr rfl
    · exact h.not_cancelled (List.mem_singleton.mp hs)
  | failed =>
    rcases List.mem_cons.mp hs with hs | hs
    · exact h.not_failed hs
    · exact hn ⟨List.mem_singleton.mp hs, row, hr, h.job.1.1.symm, h.subject, h.closed.2 row hr rfl⟩

theorem DeletionsOk.prune (h : DeletionsOk catalog s) : DeletionsOk catalog (s.prune now clock instanceId which) :=
  h.removes (.of_subjects rfl rfl (fun _ _ => rfl) fun _ hr => hr) List.filter_sublist rfl rfl (fun _ hp => .inl hp)
    rfl (fun _ hr => ⟨hr, fun _ hm ht => mem_deleteWhere.mpr ⟨hm, ht.not_pruned hr⟩⟩) h.refs_nodup h.used

theorem deletions_preserves (hd : Deletes catalog) : (deletions catalog).Preserves (DeletionsOk catalog) := by
  rintro s ⟨now, clock, action⟩ h he
  cases action with
  | executor a => exact h.executor hd rfl he
  | enqueue kind payload options subject => exact h.enqueue_other hd he.2.2.2
  | create row => exact h.create he.2.2.1 he.2.2.2
  | accept r => exact h.accept r
  | enqueueAgain r => exact h.enqueueAgain he.2.2
  | start w row kind => exact h.start he.2.2.1 he.2.2.2.1 he.2.2.2.2
  | read p =>
    have hr := h.read (h.passes p he.2.2.1).closed
    refine h.advance he.2.2.1 (fun hp => ?_) fun code message hp => ?_
    · rcases hr with ⟨_, hg⟩ | ⟨hc, _⟩
      · exact hg
      · exact nomatch hc.symm.trans hp
    · rcases hr with ⟨hc, _⟩ | ⟨hc, _⟩ <;> exact nomatch hc.symm.trans hp
  | fail p code message => exact h.advance he.2.2.1 (fun hp => nomatch hp) fun _ _ hp => nomatch hp
  | finish p checkedAt => exact h.finish hd he.2.2.1 he.2.2.2.2.1 he.2.2.2.2.2
  | settle p w row attempt stopping hookFails => exact h.settle hd he.2.2.1 he.2.2.2.1 he.2.2.2.2
  | prune instanceId which => exact h.prune

theorem deletionsOk (hd : Deletes catalog) (hs : (deletions catalog).Reachable s) : DeletionsOk catalog s := by
  refine hs.invariant (fun s hs => ?_) (deletions_preserves hd)
  obtain ⟨hr, hh, hsub, hpe, hpa⟩ := hs
  refine ⟨⟨⟨?_, ?_, ?_, ?_, ?_, ?_, ?_, ?_⟩, ?_⟩, ?_, ?_, ?_, ?_, ?_, ?_, ?_⟩ <;> simp [hr, hh, hsub, hpe, hpa]

/-- What the table of jobs holds of every deletion that was accepted, and what later steps do to it. -/
structure Kept (catalog : Catalog) (s : State) : Prop where
  /-- Nothing loses the deletion of a subject that still is there. -/
  marked : ∀ row ∈ s.subjects, row.deletionRequested = true → ∃ r ∈ s.exec.queue.rows, JobOf row.ref r ∧
    (r.status = .queued ∨ r.status = .running ∨ r.status = .dead)
  one : ∀ ref, count (fun r => JobOf ref r ∧ r.Live) s.exec.queue.rows ≤ 1
  not_failed : ∀ ref, ∀ r ∈ s.exec.queue.rows, JobOf ref r → r.status ≠ .failed
  /-- The record of an erasure that stopped outlives the pruning. -/
  pruned : ∀ st instanceId which, st.action = .prune instanceId which →
    ∀ row ∈ s.subjects, row.deletionRequested = true → ∀ r ∈ s.exec.queue.rows, JobOf row.ref r →
      r ∈ ((deletions catalog).next s st).exec.queue.rows
  /-- A request for a subject that is marked goes on to enqueue. -/
  repeated : ∀ st r, st.action = .accept r → ∀ row ∈ s.subjects, row.ref = r.ref → row.deletionRequested = true →
    ¬ (r.ref.kind = .workspace ∧ row.personal = true) →
    (deletions catalog).answer s st = .repeated ∧ r ∈ ((deletions catalog).next s st).pending
  /-- Where no job of the subject is live it makes one, due at once. -/
  again : ∀ st r, (deletions catalog).enabled s st → st.action = .enqueueAgain r → r.fits = true →
    (∀ job ∈ s.exec.queue.rows, JobOf r.ref job → ¬ job.Live) →
    ∃ job, ((deletions catalog).next s st).exec.queue.rows = s.exec.queue.rows ++ [job] ∧ JobOf r.ref job ∧
      job.id = s.exec.queue.fresh ∧ job.status = .queued ∧ job.runAfter = st.now
  /-- A pass that reads once the row is gone returns. -/
  gone : ∀ st p, (deletions catalog).enabled s st → st.action = .read p → Gone s p.ref →
    { p with phase := .ended .returned } ∈ ((deletions catalog).next s st).passes

theorem deletions_ok (hd : Deletes catalog) (hs : (deletions catalog).Reachable s) : Kept catalog s := by
  have h := deletionsOk hd hs
  constructor
  case marked =>
    intro row hr hm
    obtain ⟨r, hmem, hj⟩ := h.marked row hr hm
    have ht := h.tracks hmem hj
    refine ⟨r, hmem, hj, ?_⟩
    cases hst : r.status with
    | queued => exact .inl rfl
    | running => exact .inr (.inl rfl)
    | dead => exact .inr (.inr rfl)
    | succeeded => exact absurd rfl ((ht.succeeded hst).2 row hr)
    | failed => exact absurd hst ht.not_failed
    | cancelled => exact absurd hst ht.not_cancelled
  case one =>
    intro ref
    have hc : count (fun r => JobOf ref r ∧ r.Live) s.exec.queue.rows = count (holds ref) s.exec.queue.rows := by
      unfold count
      refine List.countP_congr fun r hr => ?_
      simp only [decide_eq_true_eq]
      exact (h.holds_iff hr).symm
    rw [hc]
    exact h.exec.queue.dedupe _ _ _
  case not_failed => exact fun ref r hr hj => (h.tracks hr hj).not_failed
  case pruned =>
    rintro ⟨now, clock, action⟩ instanceId which rfl row hr _ r hm hj
    exact mem_deleteWhere.mpr ⟨hm, (h.tracks hm hj).not_pruned hr⟩
  case repeated =>
    rintro ⟨now, clock, action⟩ r rfl row hr he hm hp
    have hf : s.subjects.find? (·.ref = r.ref) = some row := (find?_key_eq_some h.refs_nodup).mpr ⟨hr, he⟩
    have hmark : markDeletionRequested s.subjects r.ref = .ok (false, s.subjects) := by
      simp only [markDeletionRequested, hf, if_neg hp, hm, if_true]
    simp [deletions, Machine.answer, Machine.next, perform, State.accept, hmark]
  case again =>
    rintro ⟨now, clock, action⟩ r he rfl hf hn
    have hn' : ∀ job ∈ s.exec.queue.rows, ¬ holds r.ref job := fun job hj hh =>
      hn job hj ((h.holds_iff hj).mp hh).1 ((h.holds_iff hj).mp hh).2
    have hnext : ((deletions catalog).next s ⟨now, clock, .enqueueAgain r⟩).exec =
        (s.enqueueDeletion now clock r none).exec := by
      simp only [deletions, Machine.next, perform, State.enqueueAgain, hf, if_true]
      rfl
    rcases enqueueDeletion_cases s now clock none hf with ⟨job, hj, hh, _⟩ | ⟨_, job, hjob, hq⟩
    · exact absurd hh (hn' job hj)
    · exact ⟨job, by rw [hnext, hq], hjob.names, hjob.fresh, hjob.queued, hjob.runAfter⟩
  case gone =>
    rintro ⟨now, clock, action⟩ p he rfl hg
    rcases h.read hg.closed with ⟨hr, _⟩ | ⟨_, hn⟩
    · have hmem : { p with phase := readSubject s.subjects p.ref } ∈
          ((deletions catalog).next s ⟨now, clock, .read p⟩).passes := List.mem_cons_self
      rwa [hr] at hmem
    · exact absurd hg hn

namespace Example

def kinds : Catalog := ⟨[deleteAccountJob, deleteWorkspaceJob], by decide⟩

theorem kinds_deletes : Deletes kinds := fun k => by cases k <;> simp [kinds, SubjectKind.job]

def user : SubjectRow := ⟨⟨"i", .user, "u"⟩, false, false⟩

def empty : State := ⟨⟨⟨[], 0⟩, 0, []⟩, fun _ => none, [], [], [], []⟩

def create : Step := ⟨0, 0, .create user⟩

def accept : Step := ⟨1, 1, .accept ⟨"i", .account "u" .self "u"⟩⟩

def fail : Step := ⟨2, 2, .fail ⟨none, user.ref, .reading⟩ "TIMEOUT" "timed out"⟩

def claim : Step := ⟨60001, 60001, .executor (.claim ⟨"w", "i", []⟩ deleteAccountJob 1 [])⟩

def claimed : State := (deletions kinds).after empty [create, accept, fail, claim]

theorem claimed_reachable : (deletions kinds).Reachable claimed := by
  refine ⟨empty, _, ⟨rfl, rfl, rfl, rfl, rfl⟩, Machine.Allows.run ⟨⟨by decide, by decide, ?_⟩,
    ⟨by decide, by decide, trivial⟩, ⟨by decide, by decide, ?_⟩, ⟨by decide, by decide, ?_⟩, trivial⟩⟩
  · exact ⟨List.not_mem_nil, rfl⟩
  · exact ⟨List.mem_cons_self, .inl rfl⟩
  · exact ⟨trivial, List.mem_cons_self⟩

end Example

theorem deletions_ok_claimed :
    Example.claimed.exec.queue.rows.map (·.status) = [.running] ∧ Kept Example.kinds Example.claimed :=
  ⟨by decide, deletions_ok Example.kinds_deletes Example.claimed_reachable⟩

end Catalyst.Deletions
