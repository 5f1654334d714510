import Catalyst.Usage.Counters
import Catalyst.Usage.Rollups

/-!
# The sums against their ledger

What the sums of a key lack of its events changes in one place only: the correction of a
reconciliation takes to zero what it has read, and nobody else has moved that meanwhile.
-/

namespace Catalyst.Usage.Rollups

open Library Library.Processes

variable {db db' : Db} {key : RollupKey}

def contributions (events : List ModelUsageEvent) : List (RollupKey × RollupSums) :=
  (events.filter fun e => e.status ≠ .pending).map rollupContribution

def rollupRow (key : RollupKey) (rollups : List (RollupKey × RollupSums)) : RollupSums :=
  ((rollups.find? fun r => r.1 = key).map Prod.snd).getD 0

def Agrees (db : Db) (key : RollupKey) : Prop := rollupRow key db.rollups = sumAt key (contributions db.events)

structure Db.Ok (db : Db) : Prop where
  ids : (db.events.map (·.id)).Nodup
  keys : (db.rollups.map Prod.fst).Nodup

def lacks (db : Db) (key : RollupKey) : RollupSums := sumAt key (contributions db.events) - sumAt key db.rollups

theorem rollupRow_eq {rollups : List (RollupKey × RollupSums)} (hn : (rollups.map Prod.fst).Nodup) :
    rollupRow key rollups = sumAt key rollups := by
  unfold rollupRow
  cases hf : rollups.find? fun r => r.1 = key with
  | none =>
    rw [sumAt_eq_zero fun h => ?_]
    · rfl
    · obtain ⟨r, hr, he⟩ := List.mem_map.mp h
      exact find?_key_eq_none.mp hf r hr he
  | some r =>
    obtain ⟨hr, rfl⟩ := (find?_key_eq_some hn).mp hf
    exact (sumAt_of_mem hn hr).symm

theorem agrees_iff (hd : db.Ok) : Agrees db key ↔ lacks db key = 0 := by
  rw [Agrees, rollupRow_eq hd.keys, lacks, sub_eq_zero, eq_comm]

theorem sumAt_contributions {events : List ModelUsageEvent} : sumAt key (contributions events) =
    total (fun e => e.status ≠ .pending ∧ (rollupContribution e).1 = key) (fun e => (rollupContribution e).2) events :=
  sumAt_select

theorem sumAt_signed {sign : Int} {c : RollupKey × RollupSums} :
    sumAt key [(c.1, sign • c.2)] = sign • if c.1 = key then c.2 else 0 := by
  rw [sumAt_cons, sumAt_nil, add_zero]
  split
  · rfl
  · exact (zsmul_zero sign).symm

theorem addToRollups_keys {changes : List (Int × RollupKey × RollupSums)} {rollups : List (RollupKey × RollupSums)}
    (hn : (rollups.map Prod.fst).Nodup) : ((addToRollups changes rollups).map Prod.fst).Nodup := nodup_addGrouped hn

structure Keeps (locked : Option String) (db db' : Db) : Prop where
  ok : db'.Ok
  events : ∀ e ∈ db.events, locked ≠ some e.id → e ∈ db'.events
  lacks : ∀ key, lacks db' key = lacks db key

theorem Keeps.refl {locked : Option String} (hd : db.Ok) : Keeps locked db db := ⟨hd, fun _ he _ => he, fun _ => rfl⟩

theorem insert_keeps {locked : Option String} {inserted : ModelUsageEvent} {counters : CounterKey → Option Amounts}
    (hd : db.Ok) (hnew : ¬ ∃ e ∈ db.events, e.id = inserted.id) :
    Keeps locked db ⟨inserted :: db.events, counters,
      if inserted.status ≠ .pending then addToRollups [(1, rollupContribution inserted)] db.rollups else db.rollups⟩ := by
  refine ⟨⟨?_, ?_⟩, fun e he _ => List.mem_cons_of_mem _ he, fun key => ?_⟩
  · refine List.nodup_cons.mpr ⟨fun h => ?_, hd.ids⟩
    obtain ⟨e, he, hid⟩ := List.mem_map.mp h
    exact hnew ⟨e, he, hid⟩
  · simp only
    split
    · exact addToRollups_keys hd.keys
    · exact hd.keys
  · simp only [lacks, sumAt_contributions, total_cons]
    by_cases hended : inserted.status = .pending
    · simp [hended]
    · simp only [hended, not_false_eq_true, ne_eq, true_and, if_true, addToRollups, sumAt_addGrouped hd.keys,
        List.map_cons, List.map_nil, sumAt_signed]
      rw [one_zsmul]
      abel

theorem countAndInsert_free {s : Ledger} {now : Time} {id : String} {row : AdmissionRow}
    (h : (Usage.countAndInsert s now id event status counted limits).1 = .answered row) (hadmitted : row.admitted) :
    ¬ ∃ e ∈ s.events, e.id = id := by
  intro htaken
  simp only [Usage.countAndInsert, if_pos htaken] at h
  split at h
  · split at h
    · cases h
    · cases h
      cases hadmitted
  · cases h
    cases hadmitted

theorem countAndInsert_keeps {locked : Option String} {id : String} (hd : db.Ok) :
    Keeps locked db (countAndInsert db now id event status counted limits).2 := by
  unfold countAndInsert
  have hfree : ∀ row, (Usage.countAndInsert (db.ledger now) now id event.counted status counted limits).1 = .answered row →
      row.admitted → ¬ ∃ e ∈ db.events, e.id = id := by
    intro row hrow hadmitted htaken
    have htaken' : ∃ e ∈ (db.ledger now).events, e.id = id := by simpa [Db.ledger, ModelUsageEvent.counted] using htaken
    exact absurd (countAndInsert_free hrow hadmitted) (not_not.mpr htaken')
  cases hr : Usage.countAndInsert (db.ledger now) now id event.counted status counted limits with
  | mk answer s =>
    cases answer with
    | uniqueViolation => exact .refl hd
    | answered row =>
      by_cases hadmitted : row.admitted
      · simp only [hadmitted, if_true]
        have hnew : ¬ ∃ e ∈ db.events, e.id = (insertEvent id event status counted now).id :=
          hfree row (by rw [hr]) hadmitted
        exact insert_keeps hd hnew
      · simp only [hadmitted]
        exact .refl hd

theorem write_keeps {input : SettleInput} {old : ModelUsageEvent} (hd : db.Ok) (hold : old ∈ db.events) :
    Keeps (some old.id) db (input.write db old) := by
  have hone : ∀ e ∈ db.events, e.id = old.id ↔ e = old := fun e he => ⟨eq_of_key hd.ids he hold, fun h => h ▸ rfl⟩
  have hids : (updateWhere (·.id = old.id) input.settled db.events).map ModelUsageEvent.id =
      db.events.map ModelUsageEvent.id := map_updateWhere ModelUsageEvent.id fun _ _ => rfl
  refine ⟨⟨hids ▸ hd.ids, addToRollups_keys hd.keys⟩, fun e he hne => ?_, fun key => ?_⟩
  · exact mem_updateWhere_of_not he fun hid => hne (congrArg some hid.symm)
  · have hended : (input.settled old).status ≠ .pending := input.ended
    simp only [lacks, SettleInput.write, SettleInput.changes, sumAt_contributions, total_updateWhere hd.ids hold hone,
      addToRollups, sumAt_addGrouped hd.keys, List.map_append, sumAt_append, List.map_cons, List.map_nil, sumAt_signed,
      hended, ne_eq, not_false_eq_true, true_and]
    by_cases hpending : old.status = .pending
    · simp [hpending]
    · simp only [hpending, not_false_eq_true, true_and, if_true, List.map_cons, List.map_nil, sumAt_signed]
      rw [one_zsmul, neg_one_zsmul]
      abel

def ReconcileInput.Covers (input : ReconcileInput) (key : RollupKey) : Prop :=
  key.clientInstanceId = input.clientInstanceId ∧ ∀ day ∈ input.first, day ≤ key.day

instance {input : ReconcileInput} : DecidablePred input.Covers := fun _ => inferInstanceAs (Decidable (_ ∧ _))

theorem covers_contribution {input : ReconcileInput} {e : ModelUsageEvent} : input.Covers (rollupContribution e).1 ↔
    e.clientInstanceId = input.clientInstanceId ∧ ∀ day ∈ input.first, day * msPerDay ≤ e.createdAt :=
  and_congr_right fun _ => forall₂_congr fun _ _ => Nat.le_div_iff_mul_le msPerDay_pos

theorem sumAt_differences {input : ReconcileInput} :
    sumAt key (input.differences db) = if input.Covers key then lacks db key else 0 := by
  have hkept : sumAt key (db.rollups.filter fun r => input.Covers r.1) = if input.Covers key then sumAt key db.rollups else 0 :=
    sumAt_filter
  have hledger : sumAt key ((db.events.filter fun e => e.clientInstanceId = input.clientInstanceId ∧ e.status ≠ .pending ∧
      ∀ day ∈ input.first, day * msPerDay ≤ e.createdAt).map rollupContribution) =
        if input.Covers key then sumAt key (contributions db.events) else 0 := by
    rw [sumAt_select, sumAt_contributions]
    split
    · rename_i hcovers
      refine total_congr fun e _ => and_congr_left fun he => ?_
      rw [← he, covers_contribution] at hcovers
      exact ⟨fun h => h.2.1, fun h => ⟨hcovers.1, h, hcovers.2⟩⟩
    · rename_i hno
      refine total_eq_zero fun e _ he => hno ?_
      rw [← he.2, covers_contribution]
      exact ⟨he.1.1, he.1.2.2⟩
  rw [ReconcileInput.differences, sumAt_corrections]
  refine (congrArg₂ _ hledger hkept).trans ?_
  split
  · rfl
  · exact sub_zero _

theorem add_lacks {input : ReconcileInput} {drifts : List (CounterKey × Amounts)} {changes : List (RollupKey × RollupSums)}
    (hd : db.Ok) (h : ∀ key, sumAt key changes = if input.Covers key then lacks db key else 0) :
    (reconcile db input (.adding drifts changes)).2.2.Ok ∧
      ∀ key, lacks (reconcile db input (.adding drifts changes)).2.2 key = if input.Covers key then 0 else lacks db key := by
  have hchanges : (changes.map ((1, ·))).map (fun c : Int × RollupKey × RollupSums => (c.2.1, c.1 • c.2.2)) = changes := by
    simp [Function.comp_def, one_zsmul]
  refine ⟨⟨hd.ids, addToRollups_keys hd.keys⟩, fun key => ?_⟩
  simp only [reconcile, lacks, addToRollups, hchanges, sumAt_addGrouped hd.keys, h]
  split <;> simp

def Process.Relies (db : Db) : Process → Prop
  | settling _ (.writing old) => old ∈ db.events
  | reconciling input (.adding _ changes) => ∀ key, sumAt key changes = if input.Covers key then lacks db key else 0
  | _ => True

structure Apart (p q : Process) : Prop where
  locks : ∀ id ∈ p.locks, id ∉ q.locks
  reconciles : ∀ i ∈ p.reconciles, i ∉ q.reconciles

/-- What a step of `t` does to the store. -/
structure Effect (t : Process) (db db' : Db) : Prop where
  ok : db'.Ok
  events : ∀ e ∈ db.events, e.id ∉ t.locks → e ∈ db'.events
  lacks : ∀ key, lacks db' key = lacks db key ∨ (key.clientInstanceId ∈ t.reconciles ∧ lacks db' key = 0)

structure Steps (db : Db) (t : Process) (r : Option Answer × Option Process × Db) : Prop where
  effect : Effect t db r.2.2
  relies : ∀ t' ∈ r.2.1, t'.Relies r.2.2
  apart : ∀ t' ∈ r.2.1, ∀ q, Apart t q → ¬ waitsFor q t → Apart t' q

theorem Apart.symm {p q : Process} (h : Apart p q) : Apart q p :=
  ⟨fun id hq hp => h.locks id hp hq, fun i hq hp => h.reconciles i hp hq⟩

theorem Keeps.effect {t : Process} (h : Keeps t.locks db db') : Effect t db db' :=
  ⟨h.ok, h.events, fun key => .inl (h.lacks key)⟩

theorem Effect.relies {t q : Process} (h : Effect t db db') (hap : Apart t q) (hq : q.Relies db) : q.Relies db' := by
  cases q with
  | inserting | starting => trivial
  | settling input phase =>
    cases phase with
    | finding | locking => trivial
    | writing old => exact h.events old hq fun hl => hap.locks _ hl rfl
  | reconciling input phase =>
    cases phase with
    | acquiring | counting | comparing => trivial
    | adding drifts changes =>
      intro key
      rw [hq key]
      split
      · rename_i hcovers
        refine ((h.lacks key).resolve_right fun hr => ?_).symm
        exact hap.reconciles _ hr.1 (congrArg some hcovers.1.symm)
      · rfl

theorem Steps.ends {t : Process} (h : Effect t db db') : Steps db t (answer, none, db') := ⟨h, by simp, by simp⟩

theorem Steps.reads {t t' : Process} (hd : db.Ok) (hr : t'.Relies db)
    (hl : ∀ id ∈ t'.locks, id ∈ t.locks ∨ ∀ q, q.locks = some id → waitsFor q t)
    (hi : ∀ i ∈ t'.reconciles, i ∈ t.reconciles ∨ ∀ q, q.reconciles = some i → waitsFor q t) :
    Steps db t (none, some t', db) := by
  refine ⟨Keeps.effect (.refl hd), ?_, ?_⟩
  · rintro _ ⟨⟩
    exact hr
  · rintro _ ⟨⟩ q hap hwaits
    constructor
    · intro id hid hq
      exact (hl id hid).elim (fun h => hap.locks id h hq) fun h => hwaits (h q hq)
    · intro i hid hq
      exact (hi i hid).elim (fun h => hap.reconciles i h hq) fun h => hwaits (h q hq)

theorem settle_steps {input : SettleInput} {phase : SettlePhase} (hd : db.Ok)
    (hr : (Process.settling input phase).Relies db) : Steps db (.settling input phase) (settle db input phase) := by
  cases phase with
  | finding =>
    simp only [settle]
    split
    · exact .reads hd trivial (fun _ h => by cases h) fun _ h => by cases h
    · exact .ends (Keeps.effect (.refl hd))
  | locking =>
    simp only [settle]
    cases hf : db.events.find? fun e => input.matches e with
    | none => exact .ends (Keeps.effect (.refl hd))
    | some old =>
      obtain ⟨_, hid, _⟩ : input.matches old := by simpa using List.find?_some hf
      refine .reads hd (List.mem_of_find?_eq_some hf) ?_ fun _ h => by cases h
      rintro _ ⟨⟩
      exact .inr fun q hq => hq.trans (congrArg some hid)
  | writing old =>
    have hkeeps : Keeps (Process.settling input (.writing old)).locks db (input.write db old) := write_keeps hd hr
    exact .ends hkeeps.effect

theorem reconcile_steps {input : ReconcileInput} {phase : ReconcilePhase} (hd : db.Ok)
    (hr : (Process.reconciling input phase).Relies db) :
    Steps db (.reconciling input phase) (reconcile db input phase) := by
  cases phase with
  | acquiring =>
    refine .reads hd trivial (fun _ h => by cases h) ?_
    rintro _ ⟨⟩
    exact .inr fun q hq => hq
  | counting => exact .reads hd trivial (fun _ h => by cases h) fun i hi => .inl hi
  | comparing drifts => exact .reads hd (fun _ => sumAt_differences) (fun _ h => by cases h) fun i hi => .inl hi
  | adding drifts changes =>
    obtain ⟨hok, hlacks⟩ := add_lacks hd hr
    refine .ends ⟨hok, fun e he _ => he, fun key => ?_⟩
    refine (em (input.Covers key)).symm.imp (fun hno => ?_) fun hcovers => ⟨congrArg some hcovers.1.symm, ?_⟩
    · exact (hlacks key).trans (if_neg hno)
    · exact (hlacks key).trans (if_pos hcovers)

theorem process_steps {t : Process} (hd : db.Ok) (hr : t.Relies db) : Steps db t (usage.step db t) := by
  cases t with
  | inserting now id event status counted limits => exact .ends (countAndInsert_keeps hd).effect
  | starting now i => exact .ends (Keeps.effect ⟨⟨hd.ids, hd.keys⟩, fun _ he _ => he, fun _ => rfl⟩)
  | settling input phase => exact settle_steps hd hr
  | reconciling input phase => exact reconcile_steps hd hr

/-- `agreed` are keys whose rows are their sums. -/
def assertions (agreed : RollupKey → Prop) : Assertions Db Process Answer where
  holds _ db := db.Ok ∧ ∀ key, agreed key → lacks db key = 0
  relies _ db t := t.Relies db
  apart := Apart

theorem usage_inductive (agreed : RollupKey → Prop) : usage.Inductive (assertions agreed) fun _ _ => True where
  symm _ _ h := h.symm
  start log s request _ _ := by
    cases request with
    | admission | append | start | settle | reconcile =>
      exact ⟨trivial, fun q => ⟨(fun _ h => by cases h), fun _ h => by cases h⟩⟩
  step log s pid t hs _ _ ht hothers := by
    obtain ⟨hd, hagreed⟩ := hs.holds
    have hsteps : Steps s.store t (usage.step s.store t) := process_steps hd ht
    refine ⟨⟨⟨hsteps.effect.ok, fun key hkey => ?_⟩, fun q hq => hsteps.effect.relies hq.1⟩,
      fun t' ht' => ⟨hsteps.relies t' ht', fun q _ => hsteps.apart t' ht' q⟩⟩
    rcases hsteps.effect.lacks key with h | h
    · rw [h, hagreed key hkey]
    · exact h.2
  env _ _ e := e.elim

def ledgerMachine : Machine (Pool Db Process) (Move Request Empty) (Option Answer) :=
  usage.machine Db.Ok fun _ _ => True

/-- In every run each row of the sums stays what its events add up to, and a correction makes it so for every key
it covers, whatever has been committed since the comparison. -/
theorem rollups_ok {s₀ s : Pool Db Process} {h : List (Move Request Empty × Option Answer)}
    (hi : ledgerMachine.init s₀) (hr : ledgerMachine.Run s₀ h s) :
    (s.store.rollups.map Prod.fst).Nodup ∧ (s.store.events.map (·.id)).Nodup ∧
      ((∀ key, Agrees s₀.store key) → ∀ key, Agrees s.store key) ∧
      ∀ pid input drifts changes, s.at? pid = some (.reconciling input (.adding drifts changes)) →
        ∀ key, input.Covers key → Agrees (ledgerMachine.next s (.advance pid)).store key := by
  obtain ⟨hd, hidle, _⟩ := hi
  have hstart : (assertions fun key => lacks s₀.store key = 0).Ok [] s₀ :=
    Assertions.Ok.of_idle hidle ⟨hd, fun _ h => h⟩
  have hok := (usage_inductive _).run_ok hr hstart
  obtain ⟨hd', hagreed⟩ := hok.holds
  refine ⟨hd'.keys, hd'.ids, fun h₀ key => ?_, fun pid input drifts changes hat key hcovers => ?_⟩
  · exact (agrees_iff hd').mpr (hagreed key ((agrees_iff hd).mp (h₀ key)))
  · obtain ⟨hok', hlacks⟩ := add_lacks hd' (hok.relies _ (at?_mem hat))
    have hnext : (ledgerMachine.next s (.advance pid)).store = (reconcile s.store input (.adding drifts changes)).2.2 := by
      simp [ledgerMachine, Machine.next, machine, move, advance, hat, usage]
    rw [hnext]
    exact (agrees_iff hok').mpr ((hlacks key).trans (if_pos hcovers))

instance : Decidable (usage.blocks q t) :=
  match t with
  | .settling input .locking => inferInstanceAs (Decidable (q.locks = some input.id))
  | .reconciling input .acquiring => inferInstanceAs (Decidable (q.reconciles = some input.clientInstanceId))
  | .inserting .. | .starting .. | .settling _ .finding | .settling _ (.writing _)
  | .reconciling _ .counting | .reconciling _ (.comparing _) | .reconciling _ (.adding _ _) => .isFalse id

instance : Decidable (ledgerMachine.enabled s a) := inferInstanceAs (Decidable (usage.Unblocked s a ∧ True))

namespace Example

def call : ModelUsageEventRecordInput :=
  { agentName := some "assistant", purpose := none, providerId := "provider", model := "model", region := none,
    inputTokens := 40, cachedInputTokens := none, outputTokens := 2, totalTokens := 42, webSearchCallCount := 0,
    settledCost := none, clientInstanceId := "instance" }

def earlier : ModelUsageEvent := insertEvent "earlier" call .settled ⟨42, 0⟩ 0

def pending : ModelUsageEvent := insertEvent "late" call .pending ⟨42, 0⟩ 5

def ready : Pool Db Process := ⟨⟨[pending, earlier], fun _ => none, []⟩, [], 0⟩

def callKey : RollupKey := (rollupContribution earlier).1

def settleLate : SettleInput :=
  { clientInstanceId := "instance", id := "late", fromStatuses := [.pending, .abandoned], status := .settled,
    settlement := call.toModelUsageSettlement, counted := ⟨42, 0⟩, ended := by decide }

def repair : ReconcileInput := ⟨"instance", .all, none, 9⟩

def moves : List (Move Request Empty) :=
  [.start (.reconcile repair), .advance 0, .advance 0, .advance 0, .start (.settle settleLate), .advance 1, .advance 1,
    .advance 1]

end Example

theorem rollups_ok_repaired :
    rollupRow Example.callKey (ledgerMachine.after Example.ready (Example.moves ++ [.advance 0])).store.rollups .totalTokens = 84 ∧
      Agrees (ledgerMachine.next (ledgerMachine.after Example.ready Example.moves) (.advance 0)).store Example.callKey := by
  have hallows : ledgerMachine.Allows Example.ready Example.moves := by decide
  have hi : ledgerMachine.init Example.ready := ⟨⟨by decide, by decide⟩, rfl, rfl⟩
  exact ⟨by decide, (rollups_ok hi hallows.run).2.2.2 0 Example.repair _ _ rfl Example.callKey (by decide)⟩

end Catalyst.Usage.Rollups
