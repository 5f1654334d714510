import Mathlib
import Catalyst.Assets.Replaced
import Catalyst.Assets.Synced

/-!
# The answer of a sync call

The rows the items were read at are where a call starts from, and the row the
batch finds may be a later one. The answer counts from the first, the store from
the second.
-/

namespace Catalyst.Assets

open Library Library.Check Library.Processes

variable {J : Type} {kinds : BundleKinds J} {nameLe : String → String → Bool}
variable {db db' : Db J} {s : Instance J} {t : SyncCall J} {entry : ReadyItem J} {key : AssetKey}

-- -----------------
-- Numbers
-- -----------------

theorem Db.RowsOk.activeRevision (hd : db.RowsOk) {row : ConfigAsset J} (hrow : row ∈ db.find? key) :
    ∃ r, row.activeRevision? = some r ∧ r.revision = row.revisions.length := by
  have hok := hd.assets row ((find?_key_eq_some hd.keys).mp hrow).1
  obtain ⟨r, hr⟩ : ∃ r, row.activeRevision? = some r := by
    rw [hok.active]
    exact Option.ne_none_iff_exists'.mp (by simpa [List.getLast?_eq_none_iff] using hok.nonempty)
  exact ⟨r, hr, hok.current hr⟩

theorem getConfigAsset_revision (hd : db.RowsOk) :
    (getConfigAsset db key).map (·.revision) = (db.find? key).map fun row => row.revisions.length := by
  cases hrow : db.find? key with
  | none => simp [getConfigAsset, hrow]
  | some row =>
    obtain ⟨r, hr, hnumber⟩ := hd.activeRevision hrow
    simp [getConfigAsset, hrow, ConfigAsset.readRow, hr, hnumber]

theorem revisionOf_of_base (hd : db.RowsOk) (h : baseMatches (db.find? key) (some n) = true) :
    db.revisionOf key = n := by
  obtain ⟨r, hr, hn⟩ := (Option.any_eq_true _ _).mp h
  obtain ⟨row, hrow, hr⟩ := Option.bind_eq_some_iff.mp hr
  obtain ⟨r', hr', hnumber⟩ := hd.activeRevision hrow
  obtain rfl := Option.some.inj (hr.symm.trans hr')
  rw [Db.revisionOf, hrow, Option.map_some, Option.getD_some, ← hnumber]
  exact of_decide_eq_true hn

structure WasStored (db : Db J) (version : Nat) (item : SyncedItem) (revision : Nat) : Prop where
  row : ∃ row ∈ db.find? item.key, row.scope = .ofInstance ∧ (row.status = .active ↔ item.put = true) ∧
    ∃ r, row.activeRevision? = some r ∧ r.revision = revision ∧ r.globalVersion = version

def ReadyItem.synced (entry : ReadyItem J) : SyncedItem := ⟨entry.item.isPut, entry.key, entry.reported⟩

theorem ItemStored.wasStored (h : ItemStored db db' entry) (hd' : db'.RowsOk) (revision : Nat) :
    WasStored db' db'.version entry.synced revision ↔ revision = db.revisionOf entry.key + 1 := by
  obtain ⟨row, hrow, happ⟩ := h.stored
  obtain ⟨r, hrevisions, hversion⟩ := happ.revisions
  obtain ⟨active, hactive, hnumber⟩ := hd'.activeRevision hrow
  have hlast : active = r := by
    have hok := hd'.assets row ((find?_key_eq_some hd'.keys).mp hrow).1
    rw [hok.active, hrevisions, List.getLast?_concat] at hactive
    exact (Option.some.inj hactive).symm
  have hlength : row.revisions.length = db.revisionOf entry.key + 1 := by
    rw [hrevisions, List.length_append, Db.revisionOf]
    cases db.find? entry.key <;> rfl
  constructor
  · rintro ⟨row', hrow', -, -, r', hr', rfl, -⟩
    obtain rfl := Option.some.inj (hrow.symm.trans hrow')
    obtain rfl := Option.some.inj (hactive.symm.trans hr')
    exact hnumber.trans hlength
  · rintro rfl
    exact ⟨row, hrow, happ.scope, happ.status, active, hactive, hnumber.trans hlength, hlast ▸ hversion⟩

/-- A put without an expected revision finds its row at the revision it was read at, or no row
where none was read. -/
def ReadyItem.CreatesAsRead (db : Db J) (entry : ReadyItem J) : Prop :=
  entry.item.expectedRevision = none →
    (getConfigAsset db entry.key).map (·.revision) = entry.asset.map (·.revision)

theorem ReadyItem.reported_iff (hd : db.RowsOk) (hread : entry.ReadFrom db) (hexpected : entry.Expected)
    (hbase : baseMatches (db.find? entry.key) entry.item.expectedRevision = true) :
    entry.reported = db.revisionOf entry.key + 1 ↔ entry.CreatesAsRead db := by
  rw [ReadyItem.CreatesAsRead, getConfigAsset_revision hd, ReadyItem.reported, Nat.add_right_cancel_iff]
  cases he : entry.item.expectedRevision with
  | some n =>
    rw [ReadyItem.Expected, he] at hexpected
    obtain ⟨read, hread, rfl⟩ := Option.map_eq_some_iff.mp hexpected
    rw [Option.filter_eq_some_iff.mp hread |>.1, revisionOf_of_base hd (he ▸ hbase)]
    exact iff_of_true rfl (by simp)
  | none =>
    cases hasset : entry.asset with
    | none =>
      cases hrow : db.find? entry.key with
      | none => simp [Db.revisionOf, hrow]
      | some row =>
        have hne := (hd.assets row ((find?_key_eq_some hd.keys).mp hrow).1).nonempty
        have hpos := List.length_pos_of_ne_nil hne
        simp [Db.revisionOf, hrow, hpos.ne]
    | some read =>
      obtain ⟨row, hrow, -⟩ := hread read hasset
      simp [Db.revisionOf, Option.mem_def.mp hrow, eq_comm]

inductive SyncStep (s : Instance J) (t : SyncCall J) : Option SyncAnswer → Instance J → Prop
  | unwritten (h : ∀ version synced, answer ≠ some (.applied version synced)) : SyncStep s t answer s
  | applied (hphase : t.phase = .validated planned batch)
      (h : applyConfigAssetMutations batch s.toDb = .ok written) :
      SyncStep s t (some (.applied written.version ((readyOf planned).map ReadyItem.synced)))
        ⟨written, true⟩

theorem SyncStep.store_eq {s' : Instance J} (h : SyncStep s t answer s')
    (hnot : ∀ version synced, answer ≠ some (.applied version synced)) : s' = s := by
  cases h with
  | unwritten => rfl
  | applied => exact absurd rfl (hnot _ _)

theorem orRefused_unwritten (t : SyncCall J) (check : Except RefusedBatch (SyncPhase J)) (s : Instance J) :
    SyncStep s t (t.orRefused check).1 s := by
  refine .unwritten fun version synced => ?_
  unfold SyncCall.orRefused
  split <;> simp

theorem readSet_unwritten (t : SyncCall J) (db : Db J) (read : SetRead J) (more : SetRead J → SyncPhase J)
    (done : AssetSet J → Except RefusedBatch (SyncPhase J)) (s : Instance J) :
    SyncStep s t (t.readSet nameLe db read more done).1 s := by
  unfold SyncCall.readSet
  split
  · exact .unwritten (by simp)
  · exact orRefused_unwritten t _ s

theorem step_wrote (kinds : BundleKinds J) (nameLe : String → String → Bool) (s : Instance J) (t : SyncCall J) :
    SyncStep s t (t.step kinds nameLe s).1 (t.step kinds nameLe s).2.2 := by
  unfold SyncCall.step
  cases hphase : t.phase with
  | reading done todo =>
    cases todo with
    | nil => exact orRefused_unwritten t _ s
    | cons entry todo => exact .unwritten (by simp)
  | furtherRights planned read => exact readSet_unwritten t _ _ _ _ s
  | loading planned read => exact readSet_unwritten t _ _ _ _ s
  | writing planned batch read => exact readSet_unwritten t _ _ _ _ s
  | validated planned batch =>
    simp only [AssetCall.transact, AssetCall.run]
    cases h : applyConfigAssetMutations batch s.toDb with
    | error e => exact .unwritten (by simp [bind, Except.bind])
    | ok db => exact .applied hphase h

theorem step_continues (kinds : BundleKinds J) (nameLe : String → String → Bool) (hs : s.Ok) (t : SyncCall J) :
    (t.step kinds nameLe s).2.2.Ok ∧ s.toDb.Continues (t.step kinds nameLe s).2.2.toDb := by
  have hwrote := step_wrote kinds nameLe s t
  revert hwrote
  generalize (t.step kinds nameLe s).1 = answer
  generalize (t.step kinds nameLe s).2.2 = s'
  intro hwrote
  cases hwrote with
  | unwritten => exact ⟨hs, .refl _⟩
  | @applied planned batch db hphase h =>
    have ht : (AssetCall.applyConfigAssetMutations batch).transact s =
        (.ok (.version db.version), ⟨db, true⟩) := by
      simp [AssetCall.transact, AssetCall.run, h, bind, Except.bind, pure, Except.pure]
    have hok := (transact_ok hs (.applyConfigAssetMutations batch)).1
    have hcont := transact_continues hs (.applyConfigAssetMutations batch)
    rw [ht] at hok hcont
    exact ⟨hok, hcont⟩

theorem readSet_next {db : Db J} {read : SetRead J} {more : SetRead J → SyncPhase J}
    {done : AssetSet J → Except RefusedBatch (SyncPhase J)} {t' : SyncCall J}
    (h : (t.readSet nameLe db read more done).2 = some t') :
    (∃ read', t' = t.goTo (more read')) ∨ ∃ stored phase, done stored = .ok phase ∧ t' = t.goTo phase := by
  unfold SyncCall.readSet at h
  split at h
  · exact .inl ⟨_, (Option.some.inj h).symm⟩
  · unfold SyncCall.orRefused at h
    split at h
    · exact .inr ⟨_, _, ‹_›, (Option.some.inj h).symm⟩
    · cases h

theorem checkRevisions_ok {input : AssetSyncInput J} {planned : List (PlannedItem J)}
    (h : checkRevisions input planned = .ok u) : ∀ entry ∈ readyOf planned, entry.Expected := by
  unfold checkRevisions at h
  simp only at h
  split at h
  · obtain ⟨-, h, -⟩ := bind_ok.mp h
    cases h
  split at h
  · cases h
  · exact fun entry he => revisionRefusal_none (refuseBy_ok h entry he)

theorem step_relies (hd : s.RowsOk) (h : t.Relies kinds s.toDb) {t' : SyncCall J}
    (ht : (t.step kinds nameLe s).2.1 = some t') : t'.Relies kinds s.toDb := by
  unfold SyncCall.step at ht
  unfold SyncCall.Relies at h
  cases hphase : t.phase with
  | reading done todo =>
    rw [hphase] at h ht
    cases todo with
    | nil =>
      simp only [SyncCall.orRefused] at ht
      split at ht
      · rename_i phase hcheck
        obtain rfl := Option.some.inj ht
        obtain ⟨_, hstop, hphase⟩ := bind_ok.mp hcheck
        obtain rfl := pure_ok.mp hphase
        simp only [List.append_nil] at h
        exact ⟨⟨h.plan, h.read⟩, stopIfRefused_ok hstop⟩
      · cases ht
    | cons entry todo =>
      obtain rfl := Option.some.inj ht
      exact h.read_one rfl hd
  | furtherRights planned read =>
    rw [hphase] at h ht
    rcases readSet_next ht with ⟨read', rfl⟩ | ⟨stored, phase, hdone, rfl⟩
    · exact ⟨⟨h.1.plan, h.1.read⟩, h.2⟩
    · obtain ⟨_, -, hdone⟩ := bind_ok.mp hdone
      obtain ⟨_, hrevisions, hdone⟩ := bind_ok.mp hdone
      obtain rfl := pure_ok.mp hdone
      exact ⟨⟨h.1.plan, h.1.read⟩, h.2, checkRevisions_ok hrevisions⟩
  | loading planned read =>
    rw [hphase] at h ht
    rcases readSet_next ht with ⟨read', rfl⟩ | ⟨stored, phase, hdone, rfl⟩
    · exact ⟨⟨h.plan, h.read⟩, h.unrefused, h.expected⟩
    · obtain ⟨batch, hbatch, hdone⟩ := bind_ok.mp hdone
      obtain rfl := pure_ok.mp hdone
      exact ⟨⟨⟨h.plan, h.read⟩, h.unrefused, h.expected⟩, stored, hbatch⟩
  | writing planned batch read =>
    rw [hphase] at h ht
    rcases readSet_next ht with ⟨read', rfl⟩ | ⟨stored, phase, hdone, rfl⟩
    · exact ⟨⟨⟨h.1.plan, h.1.read⟩, h.1.unrefused, h.1.expected⟩, h.2⟩
    · split at hdone
      · cases hdone
      · obtain rfl := Except.ok.inj hdone
        exact ⟨⟨⟨h.1.plan, h.1.read⟩, h.1.unrefused, h.1.expected⟩, h.2⟩
  | validated planned batch =>
    rw [hphase] at ht
    simp only [AssetCall.transact, AssetCall.run] at ht
    cases hw : applyConfigAssetMutations batch s.toDb with
    | error e =>
      rw [hw] at ht
      cases ht
    | ok db =>
      rw [hw] at ht
      cases ht

def syncAssertions (kinds : BundleKinds J) : Assertions (Instance J) (SyncCall J) SyncAnswer where
  holds _ s := s.Ok
  relies _ s t := t.Relies kinds s.toDb
  apart _ _ := True

theorem start_relies (input : AssetSyncInput J) (db : Db J) :
    (SyncCall.start input kinds.readDefinitionName).Relies kinds db := by
  obtain ⟨hplan, hready⟩ := planItems_ok kinds.readDefinitionName input.ns [] 0 input.items
  refine ⟨hplan, fun entry he read hread => ?_⟩
  rw [(hready entry he).1] at hread
  cases hread

theorem syncs_inductive : (syncs kinds nameLe).Inductive (syncAssertions kinds) fun _ _ => True where
  symm _ _ h := h
  start _ s input _ _ := ⟨start_relies input s.store.toDb, fun _ => trivial⟩
  step _ s _ t hs _ _ hrelies _ := by
    obtain ⟨hok, hcont⟩ := step_continues kinds nameLe hs.holds t
    refine ⟨⟨hok, fun q _ hq => SyncCall.Relies.continues hq hcont⟩, fun t' ht' => ⟨?_, fun _ _ _ _ => trivial⟩⟩
    exact (step_relies hs.holds.toRowsOk hrelies ht').continues hcont
  env _ s call hs _ :=
    ⟨(transact_ok hs.holds call).1, fun q _ hq => SyncCall.Relies.continues hq (transact_continues hs.holds call)⟩

theorem syncSystem_ok {s : SyncPool J} (hs : (syncSystem kinds nameLe).Reachable s) :
    ∃ log, (syncAssertions kinds).Ok log s := by
  obtain ⟨s₀, h, ⟨hstore, hidle, -⟩, hr⟩ := hs
  have h₀ : (syncAssertions kinds).Ok [] s₀ := .of_idle hidle (hstore ▸ Instance.empty_ok)
  exact ⟨_, syncs_inductive.run_ok hr h₀⟩

theorem syncSystem_continues {s u : SyncPool J} (hs : (syncSystem kinds nameLe).Reachable s)
    (hr : (syncSystem kinds nameLe).Run s h u) : s.store.toDb.Continues u.store.toDb := by
  refine hr.relates (I := fun s => ∃ log, (syncAssertions kinds).Ok log s)
    (R := fun s u : SyncPool J => s.store.toDb.Continues u.store.toDb) (fun s => .refl _)
    (fun _ _ _ => Db.Continues.trans) ?_ ?_ (syncSystem_ok hs)
  · rintro s a ⟨log, hs⟩ he
    exact ⟨_, syncs_inductive.move_ok hs he.1 he.2⟩
  · rintro s a ⟨log, hs⟩ -
    cases a with
    | start input => exact .refl _
    | abort pid => exact .refl _
    | env call => exact transact_continues hs.holds call
    | advance pid =>
      change s.store.toDb.Continues ((syncs kinds nameLe).advance s pid).2.store.toDb
      unfold advance
      split
      · exact .refl _
      · exact (step_continues kinds nameLe hs.holds _).2

/-- An applied batch is stored whole: every item by one revision of the batch's version, and
nothing else. -/
structure BatchStored (readName : J → Option String) (items : List (AssetSyncItem J)) (s s' : Instance J)
    (version : Nat) (synced : List SyncedItem) : Prop where
  numbered : s'.version = version ∧ version = s.version + 1
  items : List.Forall₂ (fun item out => out.put = item.isPut ∧
    AssetKindId.ofText? item.kindText = some out.key.1 ∧ item.name? readName = some out.key.2) items synced
  stored : ∀ out ∈ synced, ∃ revision, WasStored s'.toDb version out revision
  others : ∀ key, key ∉ synced.map (·.key) → s'.find? key = s.find? key

theorem answered_items {readName : J → Option String} {planned : List (PlannedItem J)}
    (hnames : ∀ entry ∈ planned, entry.name = entry.item.name? readName ∧
      entry.kind = AssetKindId.ofText? entry.item.kindText)
    (hready : ∀ entry ∈ planned, ∃ r, entry.ready? = some r) :
    List.Forall₂ (fun item out => out.put = item.isPut ∧
      AssetKindId.ofText? item.kindText = some out.key.1 ∧ item.name? readName = some out.key.2)
      (planned.map (·.item)) ((readyOf planned).map ReadyItem.synced) := by
  induction planned with
  | nil => exact .nil
  | cons entry planned ih =>
    obtain ⟨r, hr⟩ := hready entry List.mem_cons_self
    obtain ⟨hname, hkind⟩ := hnames entry List.mem_cons_self
    obtain ⟨hk, hn, -, -, hitem, -⟩ := ready?_eq_some.mp hr
    rw [readyOf, List.filterMap_cons_some hr, List.map_cons, List.map_cons]
    refine .cons ⟨congrArg AssetSyncItem.isPut hitem.symm, hkind.symm.trans hk, hname.symm.trans hn⟩ ?_
    exact ih (fun e he => hnames e (List.mem_cons_of_mem _ he)) fun e he => hready e (List.mem_cons_of_mem _ he)

theorem batch_stored {batch : MutationInput J} {planned : List (PlannedItem J)} {stored : AssetSet J}
    {rules : SyncRules J} (hs : s.Ok) (hc : CheckedItems kinds s.toDb t planned)
    (hb : syncInput kinds rules stored planned = .ok batch)
    (h : applyConfigAssetMutations batch s.toDb = .ok db) (hdb : db.RowsOk) :
    BatchStored kinds.readDefinitionName t.input.items s ⟨db, true⟩ db.version
      ((readyOf planned).map ReadyItem.synced) := by
  have hstored := batch_stores hs.toRowsOk hc hb h
  obtain ⟨-, ms, hms, rest, hmutations, hrest⟩ := syncInput_ok hb
  have hkeys : (batch.mutations.filterMap ConfigAssetMutation.target).map Prod.fst =
      (readyOf planned).map (·.key) := by
    rw [hmutations, List.filterMap_append, filterMap_target_none hrest, List.append_nil,
      targets_of_mutations hms]
  obtain ⟨-, -, h⟩ := bind_ok.mp h
  obtain ⟨db₁, h₁, h⟩ := bind_ok.mp h
  obtain ⟨-, -, h⟩ := bind_ok.mp h
  obtain rfl := pure_ok.mp h
  obtain ⟨-, hframe, -⟩ := applyMutations_appends hs.toRowsOk (hkeys ▸ hc.plan.keys) h₁
  refine ⟨⟨rfl, rfl⟩, ?_, ?_, fun key hkey => ?_⟩
  · have hanswered := answered_items hc.plan.names fun entry he => hc.plan.ready entry he (hc.unrefused entry he)
    rwa [hc.plan.items] at hanswered
  · intro out hout
    obtain ⟨entry, he, rfl⟩ := List.mem_map.mp hout
    exact ⟨_, ((hstored entry he).wasStored hdb _).mpr rfl⟩
  · refine hframe key fun hin => hkey ?_
    rw [hkeys] at hin
    rwa [List.map_map]

def SyncCall.CreatesAsRead (db : Db J) (t : SyncCall J) : Prop :=
  ∀ planned batch, t.phase = .validated planned batch →
    ∀ entry ∈ readyOf planned, entry.CreatesAsRead db

theorem reports_iff {batch : MutationInput J} {planned : List (PlannedItem J)} {stored : AssetSet J}
    {rules : SyncRules J} (hs : s.Ok) (hphase : t.phase = .validated planned batch)
    (hc : CheckedItems kinds s.toDb t planned) (hb : syncInput kinds rules stored planned = .ok batch)
    (h : applyConfigAssetMutations batch s.toDb = .ok db) (hdb : db.RowsOk) :
    (∀ out ∈ (readyOf planned).map ReadyItem.synced, WasStored db db.version out out.revision) ↔
      t.CreatesAsRead s.toDb := by
  have hstored := batch_stores hs.toRowsOk hc hb h
  have hone : ∀ entry ∈ readyOf planned,
      WasStored db db.version entry.synced entry.synced.revision ↔ entry.CreatesAsRead s.toDb := by
    intro entry he
    have hitem := hstored entry he
    rw [hitem.wasStored hdb]
    exact ReadyItem.reported_iff hs.toRowsOk (hc.read entry he) (hc.expected entry he) hitem.base
  constructor
  · intro hall planned' batch' hphase' entry he
    obtain ⟨rfl, rfl⟩ := SyncPhase.validated.inj (hphase.symm.trans hphase')
    exact (hone entry he).mp (hall _ (List.mem_map_of_mem he))
  · intro hall out hout
    obtain ⟨entry, he, rfl⟩ := List.mem_map.mp hout
    exact (hone entry he).mpr (hall planned batch hphase entry he)

theorem later_base {s' u : Instance J} {out : SyncedItem} (hs : s'.Ok) (hu : u.Ok)
    (hcont : s'.toDb.Continues u.toDb) (h : WasStored s'.toDb version out revision) :
    baseMatches (u.find? out.key) (some revision) = true ↔
      (u.find? out.key).map (·.revisions) = (s'.find? out.key).map (·.revisions) := by
  obtain ⟨row, hrow, hscope, -, r, hr, rfl, -⟩ := h.row
  obtain ⟨r', hr', hnumber⟩ := hs.activeRevision hrow
  obtain rfl := Option.some.inj (hr.symm.trans hr')
  obtain ⟨row', hrow', -, hp, -⟩ := hcont _ row hrow hscope
  have hmatches := baseMatches_iff hu.toRowsOk hrow' hp
  rw [hnumber, hmatches, Option.mem_def.mp hrow', Option.mem_def.mp hrow]
  simp

/-- In every run, whoever writes between the steps of a call: a step without an applied batch
leaves the store. An applied batch is stored whole; it is answered with the stored revisions
exactly if each put without an expected revision found its row as it was read; and a later write
based on a stored revision passes the store's check exactly while the name has no further
revision. -/
theorem syncAssets_answers {s : SyncPool J} (hs : (syncSystem kinds nameLe).Reachable s) (pid : Nat) :
    let answer := (syncSystem kinds nameLe).answer s (.advance pid)
    let after := (syncSystem kinds nameLe).next s (.advance pid)
    ((∀ version synced, answer ≠ some (.applied version synced)) → after.store = s.store) ∧
    ∀ version synced, answer = some (.applied version synced) → ∃ t, s.at? pid = some t ∧
      BatchStored kinds.readDefinitionName t.input.items s.store after.store version synced ∧
      ((∀ out ∈ synced, WasStored after.store.toDb version out out.revision) ↔
        t.CreatesAsRead s.store.toDb) ∧
      ∀ h u, (syncSystem kinds nameLe).Run after h u → ∀ out ∈ synced, ∀ revision,
        WasStored after.store.toDb version out revision →
        (baseMatches (u.store.find? out.key) (some revision) = true ↔
          (u.store.find? out.key).map (·.revisions) = (after.store.find? out.key).map (·.revisions)) := by
  intro answer after
  have hafter : (syncSystem kinds nameLe).Reachable after := hs.next ⟨fun _ _ _ _ => id, trivial⟩
  obtain ⟨log, hok⟩ := syncSystem_ok hs
  cases hat : s.at? pid with
  | none =>
    have hstep : (syncs kinds nameLe).advance s pid = (none, s) := by rw [advance, hat]
    refine ⟨fun _ => congrArg (fun p => p.2.store) hstep, fun version synced hanswer => ?_⟩
    have hnone : answer = none := congrArg Prod.fst hstep
    rw [hnone] at hanswer
    cases hanswer
  | some t =>
    have hanswer : answer = (t.step kinds nameLe s.store).1 := by
      change ((syncs kinds nameLe).advance s pid).1 = _
      rw [advance, hat]
      rfl
    have hstore : after.store = (t.step kinds nameLe s.store).2.2 := by
      change ((syncs kinds nameLe).advance s pid).2.store = _
      rw [advance, hat]
      rfl
    have hwrote : SyncStep s.store t answer after.store := by
      rw [hanswer, hstore]
      exact step_wrote kinds nameLe s.store t
    have hrelies : t.Relies kinds s.store.toDb := hok.relies _ (at?_mem hat)
    refine ⟨fun hnot => ?_, fun version synced happlied => ⟨t, rfl, ?_⟩⟩
    · exact hwrote.store_eq hnot
    · have hlater : ∀ h u, (syncSystem kinds nameLe).Run after h u → ∀ out ∈ synced, ∀ revision,
          WasStored after.store.toDb version out revision →
          (baseMatches (u.store.find? out.key) (some revision) = true ↔ (u.store.find? out.key).map
            (·.revisions) = (after.store.find? out.key).map (·.revisions)) := by
        intro h u hr out _ revision hstored
        obtain ⟨_, hafter'⟩ := syncSystem_ok hafter
        obtain ⟨_, hu⟩ := syncSystem_ok (hafter.run hr)
        exact later_base hafter'.holds hu.holds (syncSystem_continues hafter hr) hstored
      obtain ⟨_, hafter'⟩ := syncSystem_ok hafter
      have hrows : after.store.RowsOk := hafter'.holds.toRowsOk
      revert hlater hrows
      generalize after.store = store at hwrote ⊢
      generalize answer = given at hwrote happlied
      subst happlied
      intro hlater hrows
      cases hwrote with
      | unwritten hnot => exact absurd rfl (hnot _ _)
      | applied hphase h =>
        simp only [SyncCall.Relies, hphase] at hrelies
        obtain ⟨hchecked, stored, hbatch⟩ := hrelies
        exact ⟨batch_stored hok.holds hchecked hbatch h hrows,
          reports_iff hok.holds hphase hchecked hbatch h hrows, hlater⟩

namespace Example

def putSkill : AssetSyncInput Definition where
  ns := "s"
  items := [.put "skill" skill none]
  stateFirst := true
  rules :=
    { missingRight := fun _ _ => none
      mayChangeDefault := true
      missingUpsertRight := fun _ _ _ => none
      prepareInteractiveUpsert := fun _ _ config => config
      registered := fun _ => true
      authorizeInteractiveWrite := .ok ()
      deleteRefusal := fun _ => none
      tellableIssues := fun _ _ => []
      changedAgentRefusals := fun _ _ => []
      upsertRefusal := fun _ _ _ => none }

def untilValidated : List (SyncMove Definition) :=
  .start putSkill :: List.replicate 8 (.advance 0)

def comesAndGoes : List (SyncMove Definition) :=
  [.env (.applyConfigAssetMutations
      { baseRevisions := none, baseDefaultAgentName := none
        mutations := [.upsert skillKey skill false none] }),
    .env (.applyConfigAssetMutations
      { baseRevisions := none, baseDefaultAgentName := none
        mutations := [.delete skillKey none] })]

def syncSkill : Machine (SyncPool Definition) (SyncMove Definition) (Option SyncAnswer) :=
  syncSystem bundleKinds Example.nameLe

def idle : SyncPool Definition := ⟨.empty, [], 0⟩

instance (s : SyncPool Definition) (move : SyncMove Definition) : Decidable (syncSkill.enabled s move) :=
  have : ∀ q t, Decidable ((syncs bundleKinds Example.nameLe).blocks q t) := fun _ _ => .isFalse id
  inferInstanceAs (Decidable ((syncs bundleKinds Example.nameLe).Unblocked s move ∧ True))

def validated : SyncPool Definition := syncSkill.after idle untilValidated

def overtaken : SyncPool Definition := syncSkill.after idle (untilValidated ++ comesAndGoes)

def reportedSkill : SyncedItem := ⟨true, skillKey, 1⟩

theorem validated_reachable : syncSkill.Reachable validated :=
  have hallows : syncSkill.Allows idle untilValidated := by decide
  ⟨idle, _, ⟨rfl, rfl, rfl⟩, hallows.run⟩

theorem overtaken_reachable : syncSkill.Reachable overtaken :=
  have hallows : syncSkill.Allows idle (untilValidated ++ comesAndGoes) := by decide
  ⟨idle, _, ⟨rfl, rfl, rfl⟩, hallows.run⟩

end Example

/-- The skill is stored at revision 3 and answered at revision 1, which the next write is
refused for. -/
theorem syncAssets_reports_unstored :
    let after := Example.syncSkill.next Example.overtaken (.advance 0)
    Example.syncSkill.Reachable Example.overtaken ∧
    Example.syncSkill.answer Example.overtaken (.advance 0) = some (.applied 3 [Example.reportedSkill]) ∧
    WasStored after.store.toDb 3 Example.reportedSkill 3 ∧
    ¬ WasStored after.store.toDb 3 Example.reportedSkill Example.reportedSkill.revision ∧
    baseMatches (after.store.find? Example.skillKey) (some Example.reportedSkill.revision) = false := by
  intro after
  have hrow : after.store.find? Example.skillKey = some ⟨0, Example.skillKey, .ofInstance, .active, 3,
      [⟨1, 1, .create, some Example.skill, 1⟩, ⟨2, 2, .delete, none, 2⟩,
        ⟨3, 3, .create, some Example.skill, 3⟩], none⟩ := by decide
  refine ⟨Example.overtaken_reachable, by decide,
    ⟨_, hrow, rfl, iff_of_true rfl rfl, ⟨3, 3, .create, some Example.skill, 3⟩, rfl, rfl, rfl⟩, ?_,
    by decide⟩
  rintro ⟨row, hrow', -, -, r, hr, hrevision, -⟩
  obtain rfl := Option.some.inj (hrow.symm.trans hrow')
  obtain rfl := Option.some.inj ((rfl : _ = some _).symm.trans hr)
  cases hrevision

theorem syncAssets_answers_created :
    ∃ t, Example.validated.at? 0 = some t ∧ t.CreatesAsRead Example.validated.store.toDb := by
  have hanswer : Example.syncSkill.answer Example.validated (.advance 0) =
      some (.applied 1 [Example.reportedSkill]) := by decide
  obtain ⟨t, hat, -, hiff, -⟩ :=
    (syncAssets_answers Example.validated_reachable 0).2 _ _ hanswer
  have hrow : (Example.syncSkill.next Example.validated (.advance 0)).store.find? Example.skillKey =
      some ⟨0, Example.skillKey, .ofInstance, .active, 1, [⟨1, 1, .create, some Example.skill, 1⟩], none⟩ := by
    decide
  refine ⟨t, hat, hiff.mp fun out hout => ?_⟩
  obtain rfl := List.mem_singleton.mp hout
  exact ⟨_, hrow, rfl, iff_of_true rfl rfl, ⟨1, 1, .create, some Example.skill, 1⟩, rfl, rfl, rfl⟩

end Catalyst.Assets
