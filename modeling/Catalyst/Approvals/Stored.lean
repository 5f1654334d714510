import Catalyst.Approvals.Workflow

/-!
# What is stored of a request

A request's change is stored as a revision of its skill that carries the request as its
origin. A request is settled when it has no such revision and its change counts as nowhere
applied, or has one, of its own skill, and did not end without it. Every write keeps that,
as long as the request's own writes do.
-/

namespace Catalyst.Approvals

open Library Library.Check Library.Processes Assets

variable {J : Type} {changes : SkillChanges J} {db db' : Db J} {r r' : ApprovalRequest}
  {id : ApprovalRequestId} {outcome : Outcome} {g g' : Going J}

def Db.applications (db : Db J) (id : ApprovalRequestId) : List (AssetKey × ConfigAssetRevision J) :=
  db.assets.revisions.filter fun e => e.1.1 = .skill ∧ db.Produced id e.2

def Db.appliedTo (db : Db J) (id : ApprovalRequestId) : List AssetKey := (db.applications id).map Prod.fst

def Db.Applied (db : Db J) (r : ApprovalRequest) : Prop := db.appliedTo r.id = [(.skill, r.payload.skillName)]

def Db.Unapplied (db : Db J) (id : ApprovalRequestId) : Prop := db.appliedTo id = []

instance (db : Db J) (id : ApprovalRequestId) : Decidable (db.Unapplied id) :=
  inferInstanceAs (Decidable (_ = _))

def ApprovalRequestStatus.Refused : ApprovalRequestStatus → Prop
  | .rejected | .changesRequested | .superseded | .withdrawn => True
  | _ => False

def Db.Settled (db : Db J) (r : ApprovalRequest) : Prop :=
  (db.Unapplied r.id ∧ r.status ≠ .approved ∧ r.status ≠ .reverted) ∨ (db.Applied r ∧ ¬ r.status.Refused)

structure Db.Ok (db : Db J) : Prop where
  rows : db.assets.RowsOk
  default : db.assets.DefaultOk
  ids : (db.requests.map (·.id)).Nodup
  fresh : ∀ r ∈ db.requests, r.id < db.fresh
  origins : ∀ e ∈ db.assets.revisions, ∀ id ∈ db.origin e.2.id, id < db.fresh
  settled : ∀ r ∈ db.requests, db.Settled r

theorem mem_applications : e ∈ db.applications id ↔
    e ∈ db.assets.revisions ∧ e.1.1 = .skill ∧ db.Produced id e.2 := by
  simp [Db.applications]

theorem produced_iff {revision : ConfigAssetRevision J} : db.Produced id revision ↔
    db.origin revision.id = some id ∧ ¬ revision.operation.TakesBack := by
  unfold Db.Produced
  cases revision.operation <;> simp [RevisionOperation.TakesBack]

theorem Db.unapplied_iff : db.Unapplied id ↔ db.applications id = [] := List.map_eq_nil_iff

theorem mem_revisions {assets : Assets.Db J} {e : AssetKey × ConfigAssetRevision J} :
    e ∈ assets.revisions ↔ ∃ asset ∈ assets.assets, asset.key = e.1 ∧ e.2 ∈ asset.revisions := by
  simp only [Assets.Db.revisions, List.mem_flatMap, List.mem_map]
  constructor
  · rintro ⟨asset, ha, revision, hr, rfl⟩
    exact ⟨asset, ha, rfl, hr⟩
  · rintro ⟨asset, ha, hk, hr⟩
    exact ⟨asset, ha, e.2, hr, Prod.ext hk rfl⟩

theorem mem_listSkillRevisions (hd : db.assets.RowsOk) : revision ∈ listSkillRevisions db name ↔
    ((.skill, name), revision) ∈ db.assets.revisions := by
  rw [mem_revisions, listSkillRevisions]
  cases hf : db.assets.find? (.skill, name) with
  | none =>
    have hnone := Assets.Db.find?_eq_none.mp hf
    simp only [List.not_mem_nil, false_iff]
    rintro ⟨asset, ha, hk, -⟩
    exact hnone asset ha hk
  | some asset =>
    obtain ⟨ha, hk⟩ := (find?_key_eq_some hd.keys).mp hf
    constructor
    · exact fun hr => ⟨asset, ha, hk, hr⟩
    · rintro ⟨x, hx, hxk, hr⟩
      rwa [eq_of_key hd.keys ha hx (hk.trans hxk.symm)]

theorem revision_lt (hd : db.assets.RowsOk) (he : e ∈ db.assets.revisions) : e.2.id < db.assets.nextId := by
  obtain ⟨asset, ha, -, hr⟩ := mem_revisions.mp he
  exact (hd.assets asset ha).revision_lt e.2 hr

theorem Db.Ok.applied_of_found (hd : db.Ok) (hr : r ∈ db.requests)
    (h : findProducedRevision db r.payload.skillName r.id = some revision) : db.Applied r := by
  have hm := (mem_listSkillRevisions hd.rows).mp (List.mem_of_find?_eq_some h)
  have hp : db.Produced r.id revision := by simpa using List.find?_some h
  rcases hd.settled r hr with ⟨hu, -⟩ | ⟨ha, -⟩
  · have he := mem_applications.mpr ⟨hm, rfl, hp⟩
    rw [Db.unapplied_iff.mp hu] at he
    cases he
  · exact ha

theorem Db.Applied.found (hd : db.assets.RowsOk) (h : db.Applied r) :
    ∃ revision ∈ listSkillRevisions db r.payload.skillName, db.Produced r.id revision := by
  have hmem : (AssetKindId.skill, r.payload.skillName) ∈ db.appliedTo r.id := by
    rw [h]
    exact List.mem_singleton_self _
  obtain ⟨⟨key, revision⟩, he, rfl⟩ := List.mem_map.mp hmem
  obtain ⟨hrev, -, hp⟩ := mem_applications.mp he
  exact ⟨revision, (mem_listSkillRevisions hd).mpr hrev, hp⟩

theorem Db.Ok.unapplied_of_not_found (hd : db.Ok) (hr : r ∈ db.requests)
    (h : findProducedRevision db r.payload.skillName r.id = none) : db.Unapplied r.id := by
  rcases hd.settled r hr with ⟨hu, -⟩ | ⟨ha, -⟩
  · exact hu
  · obtain ⟨revision, hm, hp⟩ := ha.found hd.rows
    exact absurd hp (by simpa using List.find?_eq_none.mp h revision hm)

structure Beside (id : Option ApprovalRequestId) (db db' : Db J) : Prop where
  rows : ∀ r ∈ db.requests, some r.id ≠ id → r ∈ db'.requests
  applied : ∀ i, some i ≠ id → (db'.appliedTo i).Perm (db.appliedTo i)

theorem Beside.refl (id : Option ApprovalRequestId) (db : Db J) : Beside id db db := ⟨fun _ hr _ => hr, fun _ _ => .refl _⟩

theorem Db.Unapplied.perm (h : db.Unapplied id) (hp : (db'.appliedTo id).Perm (db.appliedTo id)) : db'.Unapplied id :=
  (h ▸ hp).eq_nil

theorem Db.Applied.perm (h : db.Applied r) (hp : (db'.appliedTo r.id).Perm (db.appliedTo r.id)) : db'.Applied r :=
  List.perm_singleton.mp (h ▸ hp)

theorem Db.Settled.perm (h : db.Settled r) (hp : (db'.appliedTo r.id).Perm (db.appliedTo r.id)) : db'.Settled r := by
  rcases h with ⟨hu, hs⟩ | ⟨ha, hs⟩
  · exact .inl ⟨hu.perm hp, hs⟩
  · exact .inr ⟨ha.perm hp, hs⟩

def skillKeys (input : MutationInput J) : List AssetKey :=
  (input.mutations.filterMap ConfigAssetMutation.changes).filter (·.1 = .skill)

structure Written (db db' : Db J) (origin : Option ApprovalRequestId) (input : MutationInput J) : Prop where
  requests : db'.requests = db.requests
  fresh : db'.fresh = db.fresh
  rows : db'.assets.RowsOk
  default : db'.assets.DefaultOk
  origins : ∀ e ∈ db'.assets.revisions, e ∈ db.assets.revisions ∧ db'.origin e.2.id = db.origin e.2.id ∨
    db'.origin e.2.id = origin
  applied : ∀ id, (db'.appliedTo id).Perm (db.appliedTo id ++ if origin = some id then skillKeys input else [])

theorem written {origin : Option ApprovalRequestId} (hd : db.assets.RowsOk)
    (h : db.applyConfigAssetMutations origin input = .ok db') : Written db db' origin input := by
  obtain ⟨assets, ha, hp⟩ := bind_ok.mp h
  obtain rfl := pure_ok.mp hp
  obtain ⟨new, hadds, hkeys⟩ := applyConfigAssetMutations_adds hd ha
  obtain ⟨hrows, hdefault, -⟩ := applyConfigAssetMutations_rows hd ha
  have hold : ∀ e ∈ db.assets.revisions, ¬ (db.assets.nextId ≤ e.2.id ∧ e.2.id < assets.nextId) := fun e he hle =>
    absurd (revision_lt hd he) (Nat.not_lt.mpr hle.1)
  refine ⟨rfl, rfl, hrows, hdefault, ?_, ?_⟩
  · intro e he
    rcases List.mem_append.mp (hadds.revisions.mem_iff.mp he) with he | he
    · exact .inl ⟨he, if_neg (hold e he)⟩
    · exact .inr (if_pos (hadds.fresh e he))
  · intro id
    let db' : Db J := ⟨db.requests, db.fresh, assets, fun id =>
      if db.assets.nextId ≤ id ∧ id < assets.nextId then origin else db.origin id⟩
    have hsame : db.assets.revisions.filter (fun e => e.1.1 = .skill ∧ db'.Produced id e.2) = db.applications id := by
      refine List.filter_congr fun e he => decide_eq_decide.mpr ?_
      have ho : db'.origin e.2.id = db.origin e.2.id := if_neg (hold e he)
      simp only [produced_iff, ho]
    have hnew : (new.filter fun e => e.1.1 = .skill ∧ db'.Produced id e.2).map Prod.fst =
        if origin = some id then skillKeys input else [] := by
      have ho : ∀ e ∈ new, db'.origin e.2.id = origin := fun e he => if_pos (hadds.fresh e he)
      split
      · rename_i hid
        rw [skillKeys, ← hkeys, changedKeys, List.filter_map, List.filter_filter]
        refine congrArg (List.map Prod.fst) (List.filter_congr fun e he => ?_)
        simp [produced_iff, ho e he, hid]
      · rename_i hid
        rw [List.map_eq_nil_iff, List.filter_eq_nil_iff]
        intro e he
        simp [produced_iff, ho e he, hid]
    have hperm := (hadds.revisions.filter fun e => e.1.1 = .skill ∧ db'.Produced id e.2).map Prod.fst
    rw [List.filter_append, List.map_append, hsame, hnew] at hperm
    exact hperm

theorem Written.beside {origin : Option ApprovalRequestId} (hw : Written db db' origin input) : Beside origin db db' where
  rows _ hr _ := hw.requests ▸ hr
  applied i hi := by
    have h := hw.applied i
    rwa [if_neg fun he => hi he.symm, List.append_nil] at h

/-- A batch keeps what is settled, where it does for the request it belongs to. -/
theorem Written.ok {origin : Option ApprovalRequestId} (hd : db.Ok) (hw : Written db db' origin input)
    (horigin : ∀ id ∈ origin, id < db.fresh) (hs : ∀ r ∈ db.requests, origin = some r.id → db'.Settled r) : db'.Ok where
  rows := hw.rows
  default := hw.default
  ids := hw.requests ▸ hd.ids
  fresh := by
    rw [hw.requests, hw.fresh]
    exact hd.fresh
  origins e he id hid := by
    rw [hw.fresh]
    rcases hw.origins e he with ⟨hold, ho⟩ | ho
    · exact hd.origins e hold id (ho ▸ hid)
    · exact horigin id (ho ▸ hid)
  settled r hr := by
    rw [hw.requests] at hr
    by_cases he : origin = some r.id
    · exact hs r hr he
    · exact (hd.settled r hr).perm (hw.beside.applied r.id fun h => he h.symm)

theorem Db.Ok.same_revisions {assets : Assets.Db J} (hd : db.Ok) (hrows : assets.RowsOk) (hdefault : assets.DefaultOk)
    (hrev : assets.revisions = db.assets.revisions) : ({ db with assets } : Db J).Ok ∧ Beside none db { db with assets } := by
  have happlied : ∀ i, (Db.appliedTo { db with assets } i).Perm (db.appliedTo i) := by
    intro i
    simp only [Db.appliedTo, Db.applications, hrev]
    exact .refl _
  exact ⟨⟨hrows, hdefault, hd.ids, hd.fresh, hrev ▸ hd.origins, fun r hr => (hd.settled r hr).perm (happlied r.id)⟩,
    fun _ hr _ => hr, fun i _ => happlied i⟩

theorem createApprovalRequest_ok (hd : db.Ok) :
    (createApprovalRequest db requestedBy payload).Ok ∧ Beside none db (createApprovalRequest db requestedBy payload) := by
  have hnone : db.Unapplied db.fresh := by
    rw [Db.unapplied_iff, List.eq_nil_iff_forall_not_mem]
    intro e he
    obtain ⟨hm, -, ho, -⟩ := mem_applications.mp he
    exact absurd (hd.origins e hm db.fresh ho) (Nat.lt_irrefl _)
  refine ⟨⟨hd.rows, hd.default, ?_, ?_, ?_, ?_⟩, fun _ hr _ => List.mem_cons_of_mem _ hr, fun _ _ => .refl _⟩
  · refine List.nodup_cons.mpr ⟨fun hm => ?_, hd.ids⟩
    obtain ⟨r, hr, he⟩ := List.mem_map.mp hm
    exact absurd he (hd.fresh r hr).ne
  · intro r hr
    rcases List.mem_cons.mp hr with rfl | hr
    · exact Nat.lt_succ_self _
    · exact Nat.lt_succ_of_lt (hd.fresh r hr)
  · exact fun e he id hid => Nat.lt_succ_of_lt (hd.origins e he id hid)
  · intro r hr
    rcases List.mem_cons.mp hr with rfl | hr
    · exact .inl ⟨hnone, by simp, by simp⟩
    · exact hd.settled r hr

theorem Other.run_ok (hd : db.Ok) (other : Other J) : (other.run db).Ok ∧ Beside none db (other.run db) := by
  cases other with
  | createApprovalRequest requestedBy payload => exact createApprovalRequest_ok hd
  | applyConfigAssetMutations input =>
    simp only [Other.run]
    split
    · exact ⟨hd, .refl _ _⟩
    · rename_i w hw
      have hw := written hd.rows hw
      exact ⟨hw.ok hd nofun fun r _ he => absurd he.symm (Option.some_ne_none r.id), hw.beside⟩
  | setAgentAvailability agentName availability =>
    simp only [Other.run]
    split
    · exact ⟨hd, .refl _ _⟩
    · rename_i stored assets ha
      obtain ⟨hrows, hdefault, -⟩ := setAgentAvailability_ok hd.rows hd.default ha
      exact hd.same_revisions hrows hdefault (setAgentAvailability_revisions ha).1

def Fits (db : Db J) (r : ApprovalRequest) (outcome : Outcome) : Prop :=
  (r.status = .pending ∧ outcome.status = .approved ∧ db.Applied r) ∨
    (r.status = .pending ∧ outcome.status.Refused ∧ db.Unapplied r.id) ∨
    (r.status = .approved ∧ outcome.status = .reverted)

/-- How a request goes on in one step: it stays, it is decided or withdrawn while it is pending, or
its approval is reverted. -/
def ApprovalRequest.Follows (r r' : ApprovalRequest) : Prop :=
  r' = r ∨ ∃ outcome : Outcome, r' = r.ended outcome ∧
    (r.status = .pending ∧ (outcome.status = .approved ∨ outcome.status.Refused) ∨
      r.status = .approved ∧ outcome.status = .reverted)

theorem Fits.settled (hf : Fits db r outcome) (hs : db.Settled r) : db.Settled (r.ended outcome) := by
  rcases hf with ⟨-, ho, ha⟩ | ⟨-, ho, hu⟩ | ⟨hr, ho⟩
  · refine .inr ⟨ha, ?_⟩
    simp [ApprovalRequest.ended, ho, ApprovalRequestStatus.Refused]
  · refine .inl ⟨hu, ?_⟩
    constructor <;> intro he <;> simp [ApprovalRequest.ended] at he <;> simp [he, ApprovalRequestStatus.Refused] at ho
  · rcases hs with ⟨-, hna, -⟩ | ⟨ha, -⟩
    · exact absurd hr hna
    · refine .inr ⟨ha, ?_⟩
      simp [ApprovalRequest.ended, ho, ApprovalRequestStatus.Refused]

theorem Fits.follows (hf : Fits db r outcome) : r.Follows (r.ended outcome) := by
  rcases hf with ⟨hr, ho, -⟩ | ⟨hr, ho, -⟩ | ⟨hr, ho⟩
  · exact .inr ⟨outcome, rfl, .inl ⟨hr, .inl ho⟩⟩
  · exact .inr ⟨outcome, rfl, .inl ⟨hr, .inr ho⟩⟩
  · exact .inr ⟨outcome, rfl, .inr ⟨hr, ho⟩⟩

theorem mem_transition (hd : db.Ok) (hr : r ∈ db.requests) :
    x ∈ (db.transition r outcome).requests ↔ x = r.ended outcome ∨ (x ∈ db.requests ∧ x.id ≠ r.id) := by
  have hsame : (db.transition r outcome).requests =
      updateWhere (fun x => x.id = r.id) (·.ended outcome) db.requests := by
    refine List.map_congr_left fun x hx => ?_
    by_cases hid : x.id = r.id
    · obtain rfl := eq_of_key hd.ids hx hr hid
      simp
    · simp [hid]
  rw [hsame]
  exact updateWhere_key_of_mem hd.ids hr

theorem transition_ok (hd : db.Ok) (hr : r ∈ db.requests) (hf : Fits db r outcome) :
    (db.transition r outcome).Ok ∧ Beside (some r.id) db (db.transition r outcome) := by
  refine ⟨⟨hd.rows, hd.default, ?_, ?_, hd.origins, ?_⟩, ?_, fun _ _ => .refl _⟩
  · have hids : (db.transition r outcome).requests.map (·.id) = db.requests.map (·.id) :=
      map_updateWhere _ fun _ _ => rfl
    exact hids ▸ hd.ids
  · intro x hx
    rcases (mem_transition hd hr).mp hx with rfl | ⟨hx, -⟩
    · exact hd.fresh r hr
    · exact hd.fresh x hx
  · intro x hx
    rcases (mem_transition hd hr).mp hx with rfl | ⟨hx, -⟩
    · exact hf.settled (hd.settled r hr)
    · exact hd.settled x hx
  · exact fun x hx hne => (mem_transition hd hr).mpr (.inr ⟨hx, fun he => hne (congrArg some he)⟩)

end Catalyst.Approvals
