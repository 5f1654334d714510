import Catalyst.Approvals.Stored

/-!
# A change is applied once

Only the call that has a request's lock stores its change, and it does so after it has looked
for a revision that an earlier call left behind. So a request has at most one such revision,
and a pending request that has one can only be approved, unless somebody ends it without
looking.
-/

namespace Catalyst.Approvals

open Library Library.Check Library.Processes Assets

variable {J : Type} {changes : SkillChanges J} {db db' : Db J} {r r' : ApprovalRequest}
  {id : ApprovalRequestId} {outcome : Outcome} {g g' : Going J}

-- -----------------
-- What a call relies on
-- -----------------

def Change.expected : Change → ApprovalRequestStatus
  | .apply => .pending
  | .revert => .approved

def Change.Stores (db : Db J) (r : ApprovalRequest) (input : MutationInput J) : Change → Prop
  | .apply => db.Unapplied r.id ∧ skillKeys input = [(.skill, r.payload.skillName)]
  | .revert => skillKeys input = []

def ChangePhase.Relies (db : Db J) (r : ApprovalRequest) (change : Change) : ChangePhase J → Prop
  | .reading input | .stateRead input _ | .assetsRead input _ | .writing input => change.Stores db r input
  | _ => True

def Phase.Relies (db : Db J) : Phase J → Prop
  | .opening | .locking => True
  | .checking r outcome => r.status = .pending ∧ outcome.status.Refused
  | .recovering r => r.status = .pending
  | .comparing r => r.status = .pending ∧ db.Unapplied r.id
  | .changing r change phase => r.status = change.expected ∧ phase.Relies db r change
  | .committing r outcome => Fits db r outcome

structure Going.Relies (db : Db J) (g : Going J) : Prop where
  row : ∀ r ∈ g.locked?, r ∈ db.requests
  phase : g.phase.Relies db

theorem Fits.beside (hf : Fits db r outcome) (hb : (db'.appliedTo r.id).Perm (db.appliedTo r.id)) : Fits db' r outcome := by
  rcases hf with ⟨hr, ho, ha⟩ | ⟨hr, ho, hu⟩ | h
  · exact .inl ⟨hr, ho, ha.perm hb⟩
  · exact .inr (.inl ⟨hr, ho, hu.perm hb⟩)
  · exact .inr (.inr h)

theorem ChangePhase.Relies.beside {change : Change} {phase : ChangePhase J} (hr : phase.Relies db r change)
    (hb : (db'.appliedTo r.id).Perm (db.appliedTo r.id)) : phase.Relies db' r change := by
  cases change <;> cases phase <;> first | exact hr | exact ⟨hr.1.perm hb, hr.2⟩

theorem Going.Relies.beside {id : Option ApprovalRequestId} (hr : g.Relies db) (hb : Beside id db db')
    (hid : ∀ r ∈ g.locked?, some r.id ≠ id) : g.Relies db' := by
  refine ⟨fun r hg => hb.rows r (hr.row r hg) (hid r hg), ?_⟩
  obtain ⟨call, phase⟩ := g
  have hphase := hr.phase
  cases phase with
  | opening | locking | checking | recovering => exact hphase
  | comparing r => exact ⟨hphase.1, hphase.2.perm (hb.applied _ (hid r rfl))⟩
  | changing r change phase => exact ⟨hphase.1, hphase.2.beside (hb.applied _ (hid r rfl))⟩
  | committing r outcome => exact hphase.beside (hb.applied _ (hid r rfl))

theorem skill?_name {snapshot : RuntimeAssetSnapshot J} (h : snapshot.skill? name = some skill) : skill.2.name = name := by
  simpa using List.find?_some h

theorem applied_name {payload : SkillChangePayload} {snapshot : RuntimeAssetSnapshot J} {skill : J × SkillConfig}
    (hscope : assertSkillChangeScope policy agent payload.skillName payload.operations = .ok u)
    (h : changes.applySkillChange (snapshot.skill? payload.skillName) payload.operations = .ok skill) :
    skill.2.name = payload.skillName := by
  have hname := changes.applied_name h
  cases hc : payload.operations.head?.bind SkillChangeOperation.createdName with
  | none =>
    rw [hc, Option.none_or] at hname
    obtain ⟨current, hcurrent, hsame⟩ := Option.map_eq_some_iff.mp hname.symm
    exact hsame.symm.trans (skill?_name hcurrent)
  | some name =>
    rw [hc, Option.some_or] at hname
    obtain ⟨operation, hhead, hcreated⟩ := Option.bind_eq_some_iff.mp hc
    obtain ⟨rest, hops⟩ := List.head?_eq_some_iff.mp hhead
    obtain ⟨-, -, hscope⟩ := bind_ok.mp hscope
    obtain ⟨-, -, hscope⟩ := bind_ok.mp hscope
    simp only [hops, List.findSome?_cons, hcreated] at hscope
    obtain ⟨-, -, hscope⟩ := bind_ok.mp hscope
    obtain ⟨-, -, hscope⟩ := bind_ok.mp hscope
    exact (Option.some.inj hname).trans (require_ok.mp hscope)

theorem applyMutations_keys {payload : SkillChangePayload} {snapshot : RuntimeAssetSnapshot J}
    (h : changes.applyMutations policy payload snapshot = .ok mutations) :
    skillKeys (Going.batch version mutations) = [(.skill, payload.skillName)] := by
  obtain ⟨_, hscope, h⟩ := bind_ok.mp h
  obtain ⟨skill, hskill, h⟩ := bind_ok.mp h
  obtain rfl := pure_ok.mp h
  have hname := applied_name hscope hskill
  simp only [skillKeys, Going.batch, List.filterMap_cons, ConfigAssetMutation.changes, hname]
  split <;> simp [ConfigAssetMutation.changes]

theorem revertMutations_keys {payload : SkillChangePayload} {snapshot : RuntimeAssetSnapshot J}
    (h : changes.revertMutations payload snapshot history applied = .ok mutations) :
    skillKeys (Going.batch version mutations) = [] := by
  have hnone : ∀ m ∈ mutations, m.changes = none := by
    unfold SkillChanges.revertMutations at h
    split at h
    · obtain rfl := Except.ok.inj h
      intro m hm
      rcases List.mem_append.mp hm with hm | hm
      · obtain ⟨agent, -, rfl⟩ := List.mem_map.mp hm
        rfl
      · obtain rfl := List.mem_singleton.mp hm
        rfl
    · split at h
      · cases h
      · obtain rfl := Except.ok.inj h
        intro m hm
        obtain rfl := List.mem_singleton.mp hm
        rfl
  simp only [skillKeys, Going.batch, List.filterMap_eq_nil_iff.mpr hnone, List.filter_nil]

theorem reversal_keys {snapshot : RuntimeAssetSnapshot J} (h : changes.reversal db r snapshot = .ok (.batch mutations)) :
    skillKeys (Going.batch version mutations) = [] := by
  obtain ⟨applied, -, h⟩ := bind_ok.mp h
  dsimp only at h
  split at h
  · cases pure_ok.mp h
  · obtain ⟨_, -, h⟩ := bind_ok.mp h
    obtain ⟨ms, hms, h⟩ := bind_ok.mp h
    obtain rfl := Reversal.batch.inj (pure_ok.mp h)
    exact revertMutations_keys hms

structure StepOk (db : Db J) (g : Going J) (result : StepResult J) : Prop where
  ok : result.2.2.Ok
  beside : Beside (g.locked?.map (·.id)) db result.2.2
  next : ∀ g' ∈ result.2.1, g'.Relies result.2.2 ∧ ∀ r ∈ g'.locked?, g.locked? = some r ∨ g.WaitsFor r.id
  follows : ∀ r ∈ db.requests, ∃ r' ∈ result.2.2.requests, r.Follows r'

theorem StepOk.answers (hd : db.Ok) (answer : Except Thrown ApprovalRequest) : StepOk db g (g.answers db answer) :=
  ⟨hd, .refl _ _, by simp [Going.answers], fun r hr => ⟨r, hr, .inl rfl⟩⟩

theorem StepOk.goesTo {phase : Phase J} (hd : db.Ok) (hrow : ∀ r ∈ g.locked?, r ∈ db.requests) (hphase : phase.Relies db)
    (hl : (⟨g.call, phase⟩ : Going J).locked? = g.locked?) : StepOk db g (g.goesTo db phase) := by
  refine ⟨hd, .refl _ _, ?_, fun r hr => ⟨r, hr, .inl rfl⟩⟩
  intro g' hg'
  obtain rfl := Option.some.inj hg'
  exact ⟨⟨fun r hr => hrow r (hl ▸ hr), hphase⟩, fun r hr => .inl (hl ▸ hr)⟩

def Going.ChecksApplied (db : Db J) (g : Going J) : Prop :=
  match g.phase with
  | .checking r _ => g.call.policy.enabled ∨ db.Unapplied r.id
  | _ => True

instance : DecidablePred (Going.ChecksApplied db) := fun g => by
  unfold Going.ChecksApplied
  split <;> infer_instance

variable {call : Call}

theorem opens_ok (hd : db.Ok) : StepOk db ⟨call, .opening⟩ (Going.opens ⟨call, .opening⟩ db) := by
  unfold Going.opens
  split
  · exact .answers hd _
  · exact .goesTo hd (fun _ h => absurd h (Option.not_mem_none _)) trivial rfl

theorem resolving_ok (hs : r.status = call.expectedStatus) :
    (⟨call, Going.resolving ⟨call, .locking⟩ r⟩ : Going J).locked? = some r ∧
      (Going.resolving (J := J) ⟨call, .locking⟩ r).Relies db := by
  obtain ⟨user, requestId, command, policy, stateFirst⟩ := call
  cases command with
  | decide verdict comment =>
    cases verdict with
    | approve => exact ⟨rfl, hs⟩
    | reject | requestChanges => exact ⟨rfl, hs, trivial⟩
  | withdraw => exact ⟨rfl, hs, trivial⟩
  | revert => exact ⟨rfl, hs, trivial⟩

theorem locks_ok (hd : db.Ok) : StepOk db ⟨call, .locking⟩ (Going.locks ⟨call, .locking⟩ db) := by
  unfold Going.locks
  cases hf : getApprovalRequest db call.requestId with
  | none => exact .answers hd _
  | some row =>
    have hm : row ∈ db.requests := List.mem_of_find?_eq_some hf
    have hid : row.id = call.requestId := by simpa using List.find?_some hf
    simp only
    split
    · exact .answers hd _
    · rename_i hs
      have hs : row.status = call.expectedStatus := not_not.mp hs
      refine ⟨hd, .refl _ _, ?_, fun r hr => ⟨r, hr, .inl rfl⟩⟩
      intro g' hg'
      obtain rfl := Option.some.inj hg'
      obtain ⟨hl, hphase⟩ : _ ∧ Phase.Relies db _ := resolving_ok hs
      refine ⟨⟨fun r hr => ?_, hphase⟩, fun r hr => .inr ?_⟩
      · obtain rfl := Option.some.inj (hl.symm.trans hr)
        exact hm
      · obtain rfl := Option.some.inj (hl.symm.trans hr)
        exact hid.symm

theorem checks_ok (hd : db.Ok) (hr : Going.Relies db ⟨call, .checking r outcome⟩)
    (hc : Going.ChecksApplied db ⟨call, .checking r outcome⟩) :
    StepOk db ⟨call, .checking r outcome⟩ (Going.checks ⟨call, .checking r outcome⟩ db r outcome) := by
  have hm := hr.row r rfl
  unfold Going.checks
  split
  · exact .answers hd _
  · rename_i hn
    refine .goesTo hd hr.row (.inr (.inl ⟨hr.phase.1, hr.phase.2, ?_⟩)) rfl
    rcases hc with he | hu
    · cases hf : findProducedRevision db r.payload.skillName r.id with
      | none => exact hd.unapplied_of_not_found hm hf
      | some revision => exact absurd ⟨he, by simp [hf]⟩ hn
    · exact hu

theorem recovers_ok (hd : db.Ok) (hr : Going.Relies db ⟨call, .recovering r⟩) :
    StepOk db ⟨call, .recovering r⟩ (Going.recovers changes ⟨call, .recovering r⟩ db r) := by
  unfold Going.recovers
  split
  · exact .answers hd _
  · split
    · exact .goesTo hd hr.row ⟨hr.phase, trivial⟩ rfl
    · rename_i hf
      exact .goesTo hd hr.row ⟨hr.phase, hd.unapplied_of_not_found (hr.row r rfl) hf⟩ rfl

theorem compares_ok (hd : db.Ok) (hr : Going.Relies db ⟨call, .comparing r⟩) :
    StepOk db ⟨call, .comparing r⟩ (Going.compares changes ⟨call, .comparing r⟩ db r) := by
  unfold Going.compares
  split
  · exact .answers hd _
  · split
    · exact .answers hd _
    · exact .goesTo hd hr.row (.inr (.inl ⟨hr.phase.1, trivial, hr.phase.2⟩)) rfl
    · exact .goesTo hd hr.row ⟨hr.phase.1, trivial⟩ rfl

theorem commits_ok (hd : db.Ok) (hr : Going.Relies db ⟨call, .committing r outcome⟩) :
    StepOk db ⟨call, .committing r outcome⟩ (Going.commits ⟨call, .committing r outcome⟩ db r outcome) := by
  have hm := hr.row r rfl
  unfold Going.commits
  split
  · obtain ⟨hok, hb⟩ := transition_ok hd hm hr.phase
    refine ⟨hok, hb, by simp [Going.answers], fun x hx => ?_⟩
    by_cases hid : x.id = r.id
    · obtain rfl := eq_of_key hd.ids hx hm hid
      exact ⟨_, (mem_transition hd hm).mpr (.inl rfl), Fits.follows hr.phase⟩
    · exact ⟨x, (mem_transition hd hm).mpr (.inr ⟨hx, hid⟩), .inl rfl⟩
  · exact .answers hd _

variable {change : Change} {phase : ChangePhase J} {input : MutationInput J}

theorem approval_fits (hd : db.Ok) (hr : r ∈ db.requests) (hs : r.status = .pending)
    (h : findProducedRevision db r.payload.skillName r.id = some revision) : Fits db r (call.approval result) :=
  .inl ⟨hs, rfl, hd.applied_of_found hr h⟩

theorem plans_ok (hd : db.Ok) (hr : Going.Relies db ⟨call, .changing r change phase⟩) :
    StepOk db ⟨call, .changing r change phase⟩
      (Going.plans changes ⟨call, .changing r change phase⟩ db r version snapshot change) := by
  have hs := hr.phase.1
  cases change with
  | apply =>
    simp only [Going.plans]
    split
    · rename_i hf
      exact .goesTo hd hr.row (approval_fits hd (hr.row r rfl) hs hf) rfl
    · rename_i hf
      split
      · exact .answers hd _
      · rename_i hms
        have hu := hd.unapplied_of_not_found (hr.row r rfl) hf
        exact .goesTo hd hr.row ⟨hs, hu, applyMutations_keys hms⟩ rfl
  | revert =>
    simp only [Going.plans]
    split
    · exact .answers hd _
    · exact .goesTo hd hr.row (.inr (.inr ⟨hs, rfl⟩)) rfl
    · rename_i hms
      exact .goesTo hd hr.row ⟨hs, reversal_keys hms⟩ rfl

theorem validates_ok (hd : db.Ok) (hrow : r ∈ db.requests) (hs : r.status = change.expected)
    (hstores : change.Stores db r input) :
    StepOk db ⟨call, .changing r change phase⟩
      (Going.validates changes ⟨call, .changing r change phase⟩ db r change input stored) := by
  unfold Going.validates
  split
  · exact .answers hd _
  · refine .goesTo hd (fun x hx => ?_) ⟨hs, hstores⟩ rfl
    obtain rfl := Option.some.inj hx
    exact hrow

/-- The batch of an applying call leaves its request applied; that of a revert changes nothing of it. -/
theorem writes_ok (hd : db.Ok) (hr : Going.Relies db ⟨call, .changing r change (.writing input)⟩) :
    StepOk db ⟨call, .changing r change (.writing input)⟩
      (Going.writes ⟨call, .changing r change (.writing input)⟩ db r change input) := by
  have hm := hr.row r rfl
  obtain ⟨hs, hstores⟩ := hr.phase
  unfold Going.writes
  split
  · exact .answers hd _
  · rename_i w hw
    have hw := written hd.rows hw
    have happlied := hw.applied r.id
    rw [if_pos rfl] at happlied
    have hsettled : w.Settled r := by
      cases change with
      | apply =>
        obtain ⟨hu, hkeys⟩ := hstores
        rw [hu, hkeys, List.nil_append] at happlied
        refine .inr ⟨List.perm_singleton.mp happlied, ?_⟩
        simp [hs, Change.expected, ApprovalRequestStatus.Refused]
      | revert =>
        rw [hstores, List.append_nil] at happlied
        exact (hd.settled r hm).perm happlied
    refine ⟨hw.ok hd ?_ ?_, hw.beside, ?_, fun x hx => ⟨x, hw.requests ▸ hx, .inl rfl⟩⟩
    · intro id hid
      obtain rfl := Option.some.inj hid
      exact hd.fresh r hm
    · intro x hx he
      obtain rfl := eq_of_key hd.ids hm hx (Option.some.inj he)
      exact hsettled
    · intro g' hg'
      obtain rfl := Option.some.inj hg'
      refine ⟨⟨fun x hx => hw.requests ▸ hr.row x hx, hs, trivial⟩, fun x hx => .inl hx⟩

theorem readsBack_ok (hd : db.Ok) (hr : Going.Relies db ⟨call, .changing r change phase⟩) :
    StepOk db ⟨call, .changing r change phase⟩
      (Going.readsBack ⟨call, .changing r change phase⟩ db r change) := by
  have hs := hr.phase.1
  cases change with
  | apply =>
    simp only [Going.readsBack]
    split
    · exact .answers hd _
    · rename_i hf
      exact .goesTo hd hr.row (approval_fits hd (hr.row r rfl) hs hf) rfl
  | revert =>
    simp only [Going.readsBack]
    split
    · exact .answers hd _
    · exact .goesTo hd hr.row (.inr (.inr ⟨hs, rfl⟩)) rfl

theorem changeStep_ok (hd : db.Ok) (hr : Going.Relies db ⟨call, .changing r change phase⟩) :
    StepOk db ⟨call, .changing r change phase⟩
      (Going.changeStep changes ⟨call, .changing r change phase⟩ db r change phase) := by
  have hm := hr.row r rfl
  obtain ⟨hs, hphase⟩ := hr.phase
  cases phase with
  | version =>
    simp only [Going.changeStep]
    split
    · exact .answers hd _
    · exact .goesTo hd hr.row ⟨hs, trivial⟩ rfl
  | snapshot version =>
    simp only [Going.changeStep]
    split
    · exact .answers hd _
    · exact .goesTo hd hr.row ⟨hs, trivial⟩ rfl
  | history version snapshot => exact plans_ok hd hr
  | reading input =>
    simp only [Going.changeStep]
    split
    · exact .answers hd _
    · refine .goesTo hd hr.row ⟨hs, ?_⟩ rfl
      split <;> exact hphase
  | stateRead input name => exact validates_ok hd hm hs hphase
  | assetsRead input assets => exact validates_ok hd hm hs hphase
  | writing input => exact writes_ok hd hr
  | readingBack => exact readsBack_ok hd hr

theorem step_ok (hd : db.Ok) (hr : g.Relies db) (hc : g.ChecksApplied db) : StepOk db g (g.step changes db) := by
  obtain ⟨call, phase⟩ := g
  cases phase with
  | opening => exact opens_ok hd
  | locking => exact locks_ok hd
  | checking r outcome => exact checks_ok hd hr hc
  | recovering r => exact recovers_ok hd hr
  | comparing r => exact compares_ok hd hr
  | changing r change phase => exact changeStep_ok hd hr
  | committing r outcome => exact commits_ok hd hr

-- -----------------
-- Runs
-- -----------------

def approvalSystem (changes : SkillChanges J) : Machine (ApprovalPool J) (ApprovalMove J) (Option Answered) :=
  (approvalCalls changes).machine
    (fun db => db.requests = [] ∧ db.assets.RowsOk ∧ db.assets.DefaultOk ∧
      ∀ e ∈ db.assets.revisions, db.origin e.2.id = none)
    fun _ _ => True

/-- Nobody ends a request without its change where the handler cannot be asked and a revision of the
request is stored. -/
def ChecksApplied (s : ApprovalPool J) : ApprovalMove J → Prop
  | .advance pid => ∀ g ∈ s.at? pid, g.ChecksApplied s.store
  | _ => True

instance : DecidablePred (ChecksApplied (J := J) s)
  | .advance pid => inferInstanceAs (Decidable (∀ g ∈ s.at? pid, g.ChecksApplied s.store))
  | .start _ | .abort _ | .env _ => .isTrue trivial

def onceOnly (J : Type) : Assertions (Db J) (Going J) Answered where
  holds _ db := db.Ok
  relies _ db g := g.Relies db
  apart p q := ∀ r ∈ p.locked?, ∀ r' ∈ q.locked?, r.id ≠ r'.id

theorem onceOnly_inductive (changes : SkillChanges J) :
    (approvalCalls changes).Inductive (onceOnly J) ChecksApplied where
  symm _ _ h r hr r' hr' := (h r' hr' r hr).symm
  start _ _ _ _ _ :=
    ⟨⟨fun _ h => absurd h (Option.not_mem_none _), trivial⟩, fun _ _ h => absurd h (Option.not_mem_none _)⟩
  step log s pid g hs ha hat hg hothers := by
    have hstep : StepOk s.store g (g.step changes s.store) := step_ok hs.holds hg (ha g hat)
    refine ⟨⟨hstep.ok, fun q hq hrelies => hrelies.beside hstep.beside fun r hr he => ?_⟩, fun g' hg' => ?_⟩
    · obtain ⟨r', hr', hid⟩ := Option.map_eq_some_iff.mp he.symm
      exact hq.1 r' hr' r hr hid
    · obtain ⟨hrelies, htakes⟩ := hstep.next g' hg'
      refine ⟨hrelies, fun q hq hapart hblocks r hr r' hr' he => ?_⟩
      rcases htakes r hr with hl | hw
      · exact hapart r hl r' hr' he
      · exact hblocks ⟨r', hr', he ▸ hw⟩
  env log s other hs _ := by
    obtain ⟨hok, hb⟩ := Other.run_ok hs.holds other
    exact ⟨hok, fun q _ hrelies => hrelies.beside hb fun _ _ => Option.some_ne_none _⟩

theorem approvalSystem_ok {s : ApprovalPool J} (hs : ((approvalSystem changes).when ChecksApplied).Reachable s) :
    ∃ log, (onceOnly J).Ok log s := by
  obtain ⟨s₀, h, ⟨⟨hnone, hrows, hdefault, horigins⟩, hidle, -⟩, hr⟩ := hs
  have hstart : s₀.store.Ok := by
    refine ⟨hrows, hdefault, by simp [hnone], by simp [hnone], fun e he id hid => ?_, by simp [hnone]⟩
    simp [horigins e he] at hid
  have hok : (onceOnly J).Ok [] s₀ := .of_idle hidle hstart
  exact ⟨_, (onceOnly_inductive changes).run_ok (run_of_when _ hr) hok⟩

theorem next_follows {s : ApprovalPool J} (hs : (onceOnly J).Ok log s) (ha : ChecksApplied s a) (hr : r ∈ s.store.requests) :
    ∃ r' ∈ ((approvalSystem changes).next s a).store.requests, r.Follows r' := by
  cases a with
  | start call => exact ⟨r, hr, .inl rfl⟩
  | abort pid => exact ⟨r, hr, .inl rfl⟩
  | env other => exact ⟨r, (Other.run_ok hs.holds other).2.rows r hr (Option.some_ne_none _), .inl rfl⟩
  | advance pid =>
    simp only [Machine.next, approvalSystem, machine, move, advance]
    cases hat : s.at? pid with
    | none => exact ⟨r, hr, .inl rfl⟩
    | some g => exact (step_ok hs.holds (hs.relies _ (at?_mem hat)) (ha g hat)).follows r hr

def ApprovalRequest.Later (r r' : ApprovalRequest) : Prop :=
  r'.id = r.id ∧ (r' = r ∨ r.status = .pending ∧ r'.status ≠ .pending ∨ r.status = .approved ∧ r'.status = .reverted)

theorem ApprovalRequest.Follows.later (h : r.Follows r') : r.Later r' := by
  rcases h with rfl | ⟨o, rfl, ⟨hr, ho⟩ | ⟨hr, ho⟩⟩
  · exact ⟨rfl, .inl rfl⟩
  · refine ⟨rfl, .inr (.inl ⟨hr, fun he => ?_⟩)⟩
    have he : o.status = .pending := he
    rcases ho with ho | ho
    · cases he.symm.trans ho
    · rw [he] at ho
      exact ho
  · exact ⟨rfl, .inr (.inr ⟨hr, ho⟩)⟩

theorem ApprovalRequest.Later.trans (h₁ : r.Later r') (h₂ : r'.Later r'') : r.Later r'' := by
  refine ⟨h₂.1.trans h₁.1, ?_⟩
  rcases h₁.2 with rfl | ⟨hr, hr'⟩ | ⟨hr, hr'⟩
  · exact h₂.2
  · refine .inr (.inl ⟨hr, ?_⟩)
    rcases h₂.2 with rfl | ⟨-, h⟩ | ⟨-, h⟩
    · exact hr'
    · exact h
    · simp [h]
  · rcases h₂.2 with rfl | ⟨h, -⟩ | ⟨h, -⟩
    · exact .inr (.inr ⟨hr, hr'⟩)
    · cases hr'.symm.trans h
    · cases hr'.symm.trans h

theorem run_later {s t : ApprovalPool J} (hs : ((approvalSystem changes).when ChecksApplied).Reachable s)
    (hr : ((approvalSystem changes).when ChecksApplied).Run s h t) (hm : r ∈ s.store.requests) :
    ∃ r' ∈ t.store.requests, r.Later r' := by
  induction hr generalizing r with
  | nil => exact ⟨r, hm, rfl, .inl rfl⟩
  | cons he _ ih =>
    obtain ⟨log, hok⟩ := approvalSystem_ok hs
    obtain ⟨r', hr', hf⟩ : ∃ r' ∈ ((approvalSystem changes).next _ _).store.requests, _ :=
      next_follows hok he.2 hm
    obtain ⟨r'', hr'', hl⟩ := ih (hs.next he) hr'
    exact ⟨r'', hr'', hf.later.trans hl⟩

def Db.Live (db : Db J) (r : ApprovalRequest) : Prop :=
  ∃ asset ∈ db.assets.assets, asset.key = (.skill, r.payload.skillName) ∧ asset.status = .active ∧
    ∃ revision ∈ asset.activeRevision?, db.Produced r.id revision

instance : Decidable (Db.Live db r) :=
  inferInstanceAs (Decidable (∃ asset ∈ db.assets.assets, _ ∧ _ ∧ ∃ revision ∈ asset.activeRevision?, _))

theorem Db.Live.stored (h : db.Live r) : db.applications r.id ≠ [] := by
  obtain ⟨asset, ha, hk, -, revision, hrev, hp⟩ := h
  have hm : ((AssetKindId.skill, r.payload.skillName), revision) ∈ db.assets.revisions :=
    mem_revisions.mpr ⟨asset, ha, hk, List.mem_of_find?_eq_some hrev⟩
  exact List.ne_nil_of_mem (mem_applications.mpr ⟨hm, rfl, hp⟩)

/-- Where nobody ends a request unasked, its change is stored at most once, and never beside a
refusal; an approved one has its revision, and an ended one changes only by the revert of its approval. -/
theorem skill_change_requests_ok {s : ApprovalPool J}
    (hs : ((approvalSystem changes).when ChecksApplied).Reachable s) :
    (∀ r ∈ s.store.requests, (s.store.applications r.id).length ≤ 1 ∧
      (r.status.Refused → s.store.applications r.id = [] ∧ ¬ s.store.Live r) ∧
      (r.status = .approved → ∃ revision ∈ listSkillRevisions s.store r.payload.skillName, s.store.Produced r.id revision)) ∧
    (∀ a, ((approvalSystem changes).when ChecksApplied).enabled s a → ∀ r ∈ s.store.requests,
      ∃ r' ∈ ((approvalSystem changes).next s a).store.requests, r.Follows r') ∧
    ∀ h t, ((approvalSystem changes).when ChecksApplied).Run s h t → ∀ r ∈ s.store.requests,
      ∃ r' ∈ t.store.requests, r.Later r' := by
  obtain ⟨log, hok⟩ := approvalSystem_ok hs
  have hd : s.store.Ok := hok.holds
  refine ⟨fun r hr => ?_, fun a ha r hr => next_follows hok ha.2 hr, fun h t hrun r hr => run_later hs hrun hr⟩
  have hlength : (s.store.applications r.id).length = (s.store.appliedTo r.id).length := (List.length_map _).symm
  rcases hd.settled r hr with ⟨hu, hna, -⟩ | ⟨ha, hnr⟩
  · have hnone := Db.unapplied_iff.mp hu
    exact ⟨by simp [hnone], fun _ => ⟨hnone, fun hlive => hlive.stored hnone⟩, fun h => absurd h hna⟩
  · refine ⟨?_, fun h => absurd h hnr, fun _ => ha.found hd.rows⟩
    rw [hlength, ha]
    exact Nat.le_refl 1

instance : Decidable (Going.WaitsFor g id) := by
  unfold Going.WaitsFor
  split <;> infer_instance

instance : Decidable ((approvalCalls changes).blocks p q) :=
  inferInstanceAs (Decidable (∃ r ∈ p.locked?, q.WaitsFor r.id))

namespace Example

open Assets.Example (Definition kinds nameLe agent)

/-- A creation leaves a skill of its name, any other change leaves the skill as it is. -/
def applySkillChange (current : Option (Definition × SkillConfig)) (operations : List SkillChangeOperation) :
    Except AppError (Definition × SkillConfig) :=
  match operations.head?.bind SkillChangeOperation.createdName, current with
  | some name, none => .ok (.inr ⟨name⟩, ⟨name⟩)
  | none, some skill => .ok skill
  | some name, some _ => .error ⟨.validationFailed, s!"Skill '{name}' already exists"⟩
  | none, none => .error ⟨.validationFailed, "Target skill does not exist"⟩

def edits : SkillChanges Definition where
  kinds := kinds
  nameLe := nameLe
  fieldIssues _ := []
  applySkillChange := applySkillChange
  withSkillNames
    | .inl config, names => .inl { config with skillNames := names }
    | .inr config, _ => .inr config
  applied_name {current operations skill} h := by
    unfold applySkillChange at h
    cases hc : operations.head?.bind SkillChangeOperation.createdName <;> cases current <;> simp only [hc] at h <;>
      cases h <;> rfl

def assets : Assets.Db Definition where
  assets := [⟨0, (.agent, "a"), .ofInstance, .active, 1, [⟨1, 1, .create, some (agent []), 1⟩],
    some ⟨.all, false, []⟩⟩]
  version := 1
  defaultAgentName := some "a"
  nextId := 2

def start : ApprovalPool Definition := ⟨⟨[], 0, assets, fun _ => none⟩, [], 0⟩

def payload : SkillChangePayload := ⟨"a", "s", [.createSkill "s" "S" "A skill" "Text"], none⟩

def enabled : AgentSkillChangesPolicy := ⟨true, true⟩

def disabled : AgentSkillChangesPolicy := ⟨false, true⟩

def approve : Call := ⟨⟨"m", true⟩, 0, .decide .approve none, enabled, true⟩

def withdraw (policy : AgentSkillChangesPolicy) : Call := ⟨⟨"u", false⟩, 0, .withdraw, policy, true⟩

abbrev Moves := List (ApprovalMove Definition)

def steps (pid n : Nat) : Moves := List.replicate n (.advance pid)

def crashed : Moves := .env (.createApprovalRequest "u" payload) :: .start approve :: steps 0 10 ++ [.abort 0]

def withdrawn (policy : AgentSkillChangesPolicy) : Moves := crashed ++ .start (withdraw policy) :: steps 1 4

def recovered : Moves := withdrawn enabled ++ .start approve :: steps 2 7

theorem start_ok : (approvalSystem edits).init start := by
  refine ⟨⟨rfl, ⟨?_, by decide, by decide⟩, ?_, fun _ _ => rfl⟩, rfl, rfl⟩
  · intro asset ha
    obtain rfl := List.mem_singleton.mp ha
    exact ⟨⟨by decide, rfl, rfl⟩, by decide, by decide, fun h => by cases h⟩
  · intro name hname
    obtain rfl := Option.some.inj hname
    exact ⟨_, List.mem_singleton_self _, rfl, rfl, _, rfl, rfl⟩

instance : Decidable ((approvalSystem changes).enabled s a) :=
  inferInstanceAs (Decidable (((approvalCalls changes).machine _ fun _ _ => True).enabled s a))

instance : Decidable (((approvalSystem changes).when ChecksApplied).enabled s a) :=
  inferInstanceAs (Decidable ((approvalSystem changes).enabled s a ∧ ChecksApplied s a))

end Example

/-- After a crash the requester withdraws on a node without the handler, and the change stays live. -/
theorem live_change_withdrawn :
    ¬ ∀ s : ApprovalPool Assets.Example.Definition, (approvalSystem Example.edits).Reachable s →
      ∀ r ∈ s.store.requests, s.store.Live r → ¬ r.status.Refused := by
  intro h
  have hrun : (approvalSystem Example.edits).Allows Example.start (Example.withdrawn Example.disabled) := by
    decide
  obtain ⟨r, hr, hlive, hs⟩ : ∃ r ∈ ((approvalSystem Example.edits).after Example.start
      (Example.withdrawn Example.disabled)).store.requests, ((approvalSystem Example.edits).after Example.start
      (Example.withdrawn Example.disabled)).store.Live r ∧ r.status = .withdrawn := by
    decide
  exact h _ ⟨_, _, Example.start_ok, hrun.run⟩ r hr hlive (by rw [hs]; trivial)

theorem skill_change_requests_ok_recovered :
    ∃ r ∈ ((approvalSystem Example.edits).after Example.start Example.recovered).store.requests, r.status = .approved ∧
      (((approvalSystem Example.edits).after Example.start Example.recovered).store.applications r.id).length ≤ 1 := by
  have hrun : ((approvalSystem Example.edits).when ChecksApplied).Allows Example.start Example.recovered := by
    decide
  obtain ⟨r, hr, hs⟩ : ∃ r ∈ ((approvalSystem Example.edits).after Example.start Example.recovered).store.requests,
      r.status = .approved := by
    decide
  exact ⟨r, hr, hs, ((skill_change_requests_ok ⟨_, _, Example.start_ok, hrun.run⟩).1 r hr).1⟩

end Catalyst.Approvals
