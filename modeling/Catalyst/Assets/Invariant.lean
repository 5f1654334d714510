import Catalyst.Assets.Effect
import Catalyst.Library.Transition
import Mathlib.Data.List.Lex

/-!
# The set over whole runs

Three transactions write an instance's assets: a batch of mutations, the
availability of one agent, and the removal of what a workspace owns. Each keeps
the default agent usable by its own code. The rows do not know a definition's
name, so nothing here asks that mutations are well named.
-/

namespace Catalyst.Assets

open Library Library.Check

variable {J : Type}

/-- The rows of an instance. Its state row, with the version and the default,
is written by the first batch. -/
structure Instance (J : Type) extends Db J where
  hasState : Bool
  deriving DecidableEq

def Instance.empty : Instance J := ⟨⟨[], 0, none, 0⟩, false⟩

-- -----------------
-- The other two writes
-- -----------------

/-- The UTF-16 code units that JavaScript compares strings by. -/
def utf16 (c : Char) : List Nat :=
  if c.toNat ≤ 0xffff then [c.toNat]
  else [0xd800 + (c.toNat - 0x10000) / 0x400, 0xdc00 + (c.toNat - 0x10000) % 0x400]

def jsLe (p q : String) : Bool := decide (p.toList.flatMap utf16 ≤ q.toList.flatMap utf16)

/-- `[...new Set(ids)].sort()` -/
def sortedOnce (ids : List String) : List String := ids.eraseDups.insertionSort fun p q => jsLe p q

def setAgentAvailability (agentName : String) (availability : AgentAvailability) (db : Db J) :
    Except AppError (AgentAvailability × Db J) := do
  let asset ← Check.need ((db.find? (.agent, agentName)).filter (·.status = .active))
    ⟨.notFound, s!"Config agent '{agentName}' was not found"⟩
  Check.require (availability.mode = .all ∨ db.defaultAgentName ≠ some agentName)
    ⟨.validationFailed, s!"Default agent '{agentName}' must be available in all workspaces"⟩
  let stored := { availability with
    collaborationWorkspaceIds := sortedOnce availability.collaborationWorkspaceIds }
  return (stored, { db with
    assets := updateWhere (·.id = asset.id) ({ · with availability := some stored }) db.assets })

def ConfigAsset.OwnedBy (workspaceId : String) (asset : ConfigAsset J) : Prop :=
  asset.scope = .ofWorkspace workspaceId

instance : DecidablePred (ConfigAsset.OwnedBy (J := J) workspaceId) := fun asset =>
  inferInstanceAs (Decidable (asset.scope = .ofWorkspace workspaceId))

def removesDefault (workspaceId : String) (db : Db J) : Prop :=
  ∃ asset ∈ db.assets, asset.OwnedBy workspaceId ∧ asset.key.1 = .agent ∧
    some asset.key.2 = db.defaultAgentName
  deriving Decidable

def deleteWorkspaceOwnedAssets (workspaceId : String) (s : Instance J) : Instance J :=
  if ∃ asset ∈ s.assets, asset.OwnedBy workspaceId then
    let left := { s with assets := deleteWhere (ConfigAsset.OwnedBy workspaceId) s.assets }
    if s.hasState then
      { left with
        version := s.version + 1
        defaultAgentName := if removesDefault workspaceId s.toDb then none else s.defaultAgentName }
    else left
  else s

inductive AssetCall (J : Type)
  | applyConfigAssetMutations (input : MutationInput J)
  | setAgentAvailability (agentName : String) (availability : AgentAvailability)
  | deleteWorkspaceOwnedAssets (workspaceId : String)
  deriving DecidableEq

inductive AssetAnswer
  | version (version : Nat)
  | availability (availability : AgentAvailability)
  | removed
  deriving DecidableEq

def AssetCall.run (s : Instance J) : AssetCall J → Except AppError (AssetAnswer × Instance J)
  | .applyConfigAssetMutations input => do
    let db ← Assets.applyConfigAssetMutations input s.toDb
    return (.version db.version, ⟨db, true⟩)
  | .setAgentAvailability agentName availability => do
    let (stored, db) ← Assets.setAgentAvailability agentName availability s.toDb
    return (.availability stored, ⟨db, s.hasState⟩)
  | .deleteWorkspaceOwnedAssets workspaceId =>
    .ok (.removed, Assets.deleteWorkspaceOwnedAssets workspaceId s)

def AssetCall.transact (s : Instance J) (call : AssetCall J) : Except AppError AssetAnswer × Instance J :=
  match call.run s with
  | .ok (answer, s') => (.ok answer, s')
  | .error e => (.error e, s)

def assetCalls (J : Type) : Machine (Instance J) (AssetCall J) (Except AppError AssetAnswer) where
  init s := s = .empty
  enabled _ _ := True
  step := AssetCall.transact

def AgentAvailability.ForAll (v : AgentAvailability) : Prop := v.mode = .all

def Db.DefaultOk (db : Db J) : Prop :=
  ∀ name, db.defaultAgentName = some name → ∃ asset ∈ db.assets, asset.key = (.agent, name) ∧
    asset.status = .active ∧ ∃ v, asset.availability = some v ∧ v.ForAll

structure ConfigAsset.RevisionsOk (asset : ConfigAsset J) : Prop where
  nonempty : asset.revisions ≠ []
  numbers : asset.revisions.map (·.revision) = List.range' 1 asset.revisions.length
  active : asset.activeRevision? = asset.revisions.getLast?

structure ConfigAsset.RowOk (nextId : Nat) (asset : ConfigAsset J) : Prop extends asset.RevisionsOk where
  id_lt : asset.id < nextId
  revision_lt : ∀ r ∈ asset.revisions, r.id < nextId
  deleted : asset.status = .deleted → asset.availability = none

structure Db.RowsOk (db : Db J) : Prop where
  assets : ∀ asset ∈ db.assets, asset.RowOk db.nextId
  ids : (db.assets.map ConfigAsset.id).Nodup
  keys : (db.assets.map ConfigAsset.key).Nodup

structure Instance.Ok (s : Instance J) : Prop extends s.toDb.RowsOk where
  default : s.DefaultOk
  state : s.hasState = false → s.assets = []

variable {db db' : Db J} {asset a : ConfigAsset J} {s t : Instance J}

theorem ConfigAsset.RowOk.mono (h : asset.RowOk n) (hn : n ≤ n') : asset.RowOk n' :=
  { h with
    id_lt := h.id_lt.trans_le hn
    revision_lt := fun r hr => (h.revision_lt r hr).trans_le hn }

theorem ConfigAsset.RevisionsOk.current (h : asset.RevisionsOk) (hr : asset.activeRevision? = some r) :
    r.revision = asset.revisions.length := by
  have hlast : asset.revisions.getLast? = some r := h.active ▸ hr
  have hnumber : (asset.revisions.map (·.revision)).getLast? = some r.revision := by
    simp [List.getLast?_map, hlast]
  rw [h.numbers, List.getLast?_range'] at hnumber
  have hpos := List.length_pos_of_ne_nil h.nonempty
  simp only [Nat.ne_of_gt hpos, if_false, Option.some.injEq] at hnumber
  omega

theorem ConfigAsset.RowOk.appended {st : AssetStatus} (h : asset.RowOk db.nextId)
    (ha : appendAndActivateRevision db asset operation config st = .ok a) (hv : st = .deleted → v = none) :
    ({ a with availability := v } : ConfigAsset J).RowOk (db.nextId + 1) := by
  obtain ⟨r, hr, rfl⟩ := appended_iff.mp ha
  refine ⟨⟨?_, ?_, ?_⟩, Nat.lt_succ_of_lt h.id_lt, ?_, hv⟩
  · simp
  · rw [List.map_append, h.numbers, List.length_append, List.length_singleton, List.range'_concat]
    simp [h.current hr, Nat.add_comm]
  · rw [List.getLast?_concat]
    exact find?_appended (x := ⟨db.nextId, r.revision + 1, operation, config, db.version + 1⟩) h.revision_lt
  · intro r hr
    rcases List.mem_append.mp hr with hr | hr
    · exact Nat.lt_succ_of_lt (h.revision_lt r hr)
    · obtain rfl := List.mem_singleton.mp hr
      exact Nat.lt_succ_self _

theorem Db.RowsOk.update (hd : db.RowsOk) (hm : asset ∈ db.assets) (ha : a.RowOk (db.nextId + 1))
    (hid : a.id = asset.id) (hkey : a.key = asset.key) : (db.update a).RowsOk where
  assets r hr := by
    rcases (Db.mem_update hd.ids hm hid).mp hr with rfl | ⟨hr, -⟩
    · exact ha
    · exact (hd.assets r hr).mono (Nat.le_succ _)
  ids := Db.update_ids db a ▸ hd.ids
  keys := Db.update_keys hd.ids hm hid hkey ▸ hd.keys

theorem Db.RowsOk.insert (hd : db.RowsOk) (hf : db.find? key = none) :
    (db.insert key scope operation config mode).RowsOk := by
  refine ⟨?_, ?_, ?_⟩
  · intro asset ha
    rcases List.mem_cons.mp ha with rfl | ha
    · exact ⟨⟨by simp, rfl, by simp [ConfigAsset.activeRevision?]⟩, by simp [Db.insert], by simp [Db.insert], nofun⟩
    · exact (hd.assets asset ha).mono (Nat.le_add_right _ 2)
  · refine List.nodup_cons.mpr ⟨fun hm => ?_, hd.ids⟩
    obtain ⟨asset, ha, he⟩ := List.mem_map.mp hm
    exact (hd.assets asset ha).id_lt.ne he
  · refine List.nodup_cons.mpr ⟨fun hm => ?_, hd.keys⟩
    obtain ⟨asset, ha, he⟩ := List.mem_map.mp hm
    exact Db.find?_eq_none.mp hf asset ha he

theorem applyMutation_rows (hd : db.RowsOk) (h : applyMutation mode db m = .ok db') : db'.RowsOk := by
  cases m with
  | setDefaultAgent agentName =>
    obtain rfl := Except.ok.inj h
    exact ⟨hd.assets, hd.ids, hd.keys⟩
  | delete key scope =>
    simp only [applyMutation] at h
    cases hf : db.find? key with
    | none =>
      rw [hf] at h
      obtain rfl := Except.ok.inj h
      exact hd
    | some asset =>
      rw [hf] at h
      have hm := List.mem_of_find?_eq_some hf
      obtain ⟨-, -, h⟩ := bind_ok.mp h
      split at h
      · obtain rfl := pure_ok.mp h
        exact hd
      · obtain ⟨a, ha, hp⟩ := bind_ok.mp h
        obtain rfl := pure_ok.mp hp
        have hrow := (hd.assets asset hm).appended (v := none) ha fun _ => rfl
        obtain ⟨r, -, rfl⟩ := appended_iff.mp ha
        exact hd.update hm hrow rfl rfl
  | upsert key config revert scope =>
    simp only [applyMutation] at h
    cases hf : db.find? key with
    | none =>
      rw [hf] at h
      obtain rfl := Except.ok.inj h
      exact hd.insert hf
    | some asset =>
      rw [hf] at h
      have hm := List.mem_of_find?_eq_some hf
      obtain ⟨-, -, h⟩ := bind_ok.mp h
      obtain ⟨a, ha, hp⟩ := bind_ok.mp h
      obtain rfl := pure_ok.mp hp
      have hrow : ∀ v, ({ a with availability := v } : ConfigAsset J).RowOk (db.nextId + 1) :=
        fun v => (hd.assets asset hm).appended ha (by rintro ⟨⟩)
      have hsame : a.id = asset.id ∧ a.key = asset.key := by
        obtain ⟨r, -, rfl⟩ := appended_iff.mp ha
        exact ⟨rfl, rfl⟩
      split
      · exact hd.update hm (hrow _) hsame.1 hsame.2
      · exact hd.update hm (hrow a.availability) hsame.1 hsame.2

theorem applyMutations_rows (hd : db.RowsOk) (h : applyMutations mode db ms = .ok db') : db'.RowsOk := by
  induction ms generalizing db with
  | nil =>
    obtain rfl := Except.ok.inj h
    exact hd
  | cons m ms ih =>
    obtain ⟨db₁, h₁, h₂⟩ := bind_ok.mp h
    exact ih (applyMutation_rows hd h₁) h₂

theorem Db.mem_of_active (h : (db.find? key).filter (·.status = .active) = some asset) :
    asset ∈ db.assets ∧ asset.key = key ∧ asset.status = .active := by
  obtain ⟨hf, hs⟩ := Option.filter_eq_some_iff.mp h
  exact ⟨List.mem_of_find?_eq_some hf, by simpa using List.find?_some hf, by simpa using hs⟩

theorem requireDefaultAgent_ok (h : requireDefaultAgent db = .ok u) : db.DefaultOk := by
  intro name hname
  simp only [requireDefaultAgent, hname] at h
  obtain ⟨agent, hagent, hall⟩ := bind_ok.mp h
  obtain ⟨hm, hkey, hs⟩ := Db.mem_of_active (need_ok.mp hagent)
  have hv := require_ok.mp hall
  exact ⟨agent, hm, hkey, hs, by simpa [AgentAvailability.ForAll, Option.any_eq_true] using hv⟩

theorem applyConfigAssetMutations_rows (hd : db.RowsOk) (h : applyConfigAssetMutations input db = .ok db') :
    db'.RowsOk ∧ db'.DefaultOk ∧ db'.version = db.version + 1 := by
  obtain ⟨-, -, h⟩ := bind_ok.mp h
  obtain ⟨db₁, h₁, h⟩ := bind_ok.mp h
  obtain ⟨_, hdefault, h⟩ := bind_ok.mp h
  obtain rfl := pure_ok.mp h
  have hd₁ := applyMutations_rows hd h₁
  exact ⟨⟨hd₁.assets, hd₁.ids, hd₁.keys⟩, requireDefaultAgent_ok hdefault, rfl⟩

def ConfigAsset.withoutAvailability (asset : ConfigAsset J) : ConfigAsset J := { asset with availability := none }

def Db.SameSet (db db' : Db J) : Prop :=
  db'.defaultAgentName = db.defaultAgentName ∧
    db'.assets.map ConfigAsset.withoutAvailability = db.assets.map ConfigAsset.withoutAvailability

structure AvailabilitySet (agentName : String) (stored : AgentAvailability) (db db' : Db J) : Prop where
  same : db.SameSet db'
  version : db'.version = db.version
  others : ∀ asset ∈ db.assets, asset.key ≠ (.agent, agentName) → asset ∈ db'.assets
  agent : ∃ asset ∈ db'.assets, asset.key = (.agent, agentName) ∧ asset.status = .active ∧
    asset.availability = some stored

theorem setAgentAvailability_ok (hd : db.RowsOk) (hdef : db.DefaultOk)
    (h : setAgentAvailability agentName availability db = .ok (stored, db')) :
    db'.RowsOk ∧ db'.DefaultOk ∧ AvailabilitySet agentName stored db db' := by
  obtain ⟨agent, hagent, h⟩ := bind_ok.mp h
  obtain ⟨_, hallowed, h⟩ := bind_ok.mp h
  obtain ⟨rfl, rfl⟩ := Prod.mk.inj (pure_ok.mp h)
  obtain ⟨hm, hkey, hs⟩ := Db.mem_of_active (need_ok.mp hagent)
  have hallowed := require_ok.mp hallowed
  let stored := { availability with
    collaborationWorkspaceIds := sortedOnce availability.collaborationWorkspaceIds }
  let f (asset : ConfigAsset J) : ConfigAsset J := { asset with availability := some stored }
  have hmem : ∀ r, r ∈ updateWhere (·.id = agent.id) f db.assets ↔ r = f agent ∨ (r ∈ db.assets ∧ r.id ≠ agent.id) :=
    fun r => updateWhere_key_of_mem hd.ids hm
  have hother : ∀ asset ∈ db.assets, asset.key ≠ (.agent, agentName) →
      asset ∈ updateWhere (·.id = agent.id) f db.assets := by
    intro asset ha hne
    refine (hmem asset).mpr (.inr ⟨ha, fun he => hne ?_⟩)
    rw [eq_of_key hd.ids ha hm he, hkey]
  have hids : (updateWhere (·.id = agent.id) f db.assets).map ConfigAsset.id = db.assets.map ConfigAsset.id :=
    map_updateWhere ConfigAsset.id fun _ _ => rfl
  have hkeys : (updateWhere (·.id = agent.id) f db.assets).map ConfigAsset.key = db.assets.map ConfigAsset.key :=
    map_updateWhere ConfigAsset.key fun _ _ => rfl
  refine ⟨⟨?_, hids ▸ hd.ids, hkeys ▸ hd.keys⟩, ?_, ⟨rfl, map_updateWhere _ fun _ _ => rfl⟩, rfl, hother, ?_⟩
  · intro r hr
    rcases (hmem r).mp hr with rfl | ⟨hr, -⟩
    · obtain ⟨hrev, hid, hlt, -⟩ := hd.assets agent hm
      exact ⟨⟨hrev.nonempty, hrev.numbers, hrev.active⟩, hid, hlt, fun hdel => nomatch hs.symm.trans hdel⟩
    · exact hd.assets r hr
  · intro name hname
    by_cases he : name = agentName
    · subst he
      rcases hallowed with hall | hne
      · exact ⟨f agent, (hmem _).mpr (.inl rfl), hkey, hs, stored, rfl, hall⟩
      · exact absurd hname hne
    · obtain ⟨asset, ha, hk, hrest⟩ := hdef name hname
      exact ⟨asset, hother asset ha (by simp [hk, he]), hk, hrest⟩
  · exact ⟨f agent, (hmem _).mpr (.inl rfl), hkey, hs, rfl⟩

theorem mem_deleteWorkspaceOwnedAssets : asset ∈ (deleteWorkspaceOwnedAssets workspaceId s).assets ↔
    asset ∈ s.assets ∧ ¬ asset.OwnedBy workspaceId := by
  unfold deleteWorkspaceOwnedAssets
  split
  · dsimp only
    split <;> exact mem_deleteWhere
  · rename_i hnone
    exact ⟨fun ha => ⟨ha, fun ho => hnone ⟨asset, ha, ho⟩⟩, And.left⟩

theorem deleteWorkspaceOwnedAssets_none (h : ∀ asset ∈ s.assets, ¬ asset.OwnedBy workspaceId) :
    deleteWorkspaceOwnedAssets workspaceId s = s :=
  if_neg fun ⟨asset, ha, ho⟩ => h asset ha ho

theorem deleteWorkspaceOwnedAssets_some (hs : s.Ok) (ha : asset ∈ s.assets) (ho : asset.OwnedBy workspaceId) :
    deleteWorkspaceOwnedAssets workspaceId s = { s with
      assets := deleteWhere (ConfigAsset.OwnedBy workspaceId) s.assets
      version := s.version + 1
      defaultAgentName := if removesDefault workspaceId s.toDb then none else s.defaultAgentName } := by
  have hstate : s.hasState = true := by
    cases h : s.hasState with
    | true => rfl
    | false => simp [hs.state h] at ha
  have hany : ∃ asset ∈ s.assets, asset.OwnedBy workspaceId := ⟨asset, ha, ho⟩
  simp only [deleteWorkspaceOwnedAssets, hany, if_true, hstate]

theorem deleteWorkspaceOwnedAssets_ok (hs : s.Ok) : (deleteWorkspaceOwnedAssets workspaceId s).Ok := by
  by_cases hany : ∃ asset ∈ s.assets, asset.OwnedBy workspaceId
  · obtain ⟨asset, ha, ho⟩ := hany
    rw [deleteWorkspaceOwnedAssets_some hs ha ho]
    refine ⟨⟨?_, ?_, ?_⟩, ?_, ?_⟩
    · exact fun r hr => hs.assets r (mem_deleteWhere.mp hr).1
    · exact map_deleteWhere_nodup ConfigAsset.id hs.ids
    · exact map_deleteWhere_nodup ConfigAsset.key hs.keys
    · intro name hname
      dsimp only at hname
      split at hname
      · cases hname
      · -- the default's row stays, since no removed row is the default agent's
        rename_i hkept
        obtain ⟨agent, hm, hkey, hrest⟩ := hs.default name hname
        refine ⟨agent, mem_deleteWhere.mpr ⟨hm, fun howned => hkept ⟨agent, hm, howned, ?_⟩⟩, hkey, hrest⟩
        simp [hkey, hname]
    · intro hstate
      simp [hs.state hstate] at ha
  · rw [deleteWorkspaceOwnedAssets_none fun asset ha ho => hany ⟨asset, ha, ho⟩]
    exact hs

/-- What one call does to rows that are well formed. -/
inductive CallEffect (s : Instance J) : AssetCall J → Except AppError AssetAnswer → Instance J → Prop
  | refused {call : AssetCall J} {e : AppError} : CallEffect s call (.error e) s
  | applied {input : MutationInput J} {t : Instance J} : t.version = s.version + 1 →
      CallEffect s (.applyConfigAssetMutations input) (.ok (.version t.version)) t
  | available {agentName : String} {v stored : AgentAvailability} {t : Instance J} :
      AvailabilitySet agentName stored s.toDb t.toDb →
      CallEffect s (.setAgentAvailability agentName v) (.ok (.availability stored)) t
  | nothingOwned {workspaceId : String} : (∀ asset ∈ s.assets, ¬ asset.OwnedBy workspaceId) →
      CallEffect s (.deleteWorkspaceOwnedAssets workspaceId) (.ok .removed) s
  | removed {workspaceId : String} {t : Instance J} : (∃ asset ∈ s.assets, asset.OwnedBy workspaceId) →
      t.version = s.version + 1 → (∀ r, r ∈ t.assets ↔ r ∈ s.assets ∧ ¬ r.OwnedBy workspaceId) →
      CallEffect s (.deleteWorkspaceOwnedAssets workspaceId) (.ok .removed) t

/-- A stale version, an unknown agent or a default that some workspace could not use. -/
inductive Refusable (s : Instance J) : AssetCall J → Prop
  | stale {input : MutationInput J} {v : Nat} : input.baseRevisions = none → input.baseVersion = some v →
      v ≠ s.version → Refusable s (.applyConfigAssetMutations input)
  | unknown {agentName : String} {v : AgentAvailability} :
      (∀ asset ∈ s.assets, asset.key = (.agent, agentName) → asset.status = .deleted) →
      Refusable s (.setAgentAvailability agentName v)
  | default {agentName : String} {v : AgentAvailability} : s.defaultAgentName = some agentName → ¬ v.ForAll →
      Refusable s (.setAgentAvailability agentName v)

theorem Refusable.refused (h : Refusable s call) : ∃ e, (call.transact s).1 = .error e := by
  cases hr : call.run s with
  | error e => exact ⟨e, by simp [AssetCall.transact, hr]⟩
  | ok answered =>
    exfalso
    cases h with
    | stale hbases hbase hv =>
      obtain ⟨db, hdb, -⟩ := bind_ok.mp hr
      obtain ⟨_, hbases', -⟩ := bind_ok.mp hdb
      simp only [assertConfigAssetBases, hbases] at hbases'
      have hfits := require_ok.mp hbases'
      simp [hbase, hv] at hfits
    | unknown hnone =>
      obtain ⟨_, hset, -⟩ := bind_ok.mp hr
      obtain ⟨agent, hagent, -⟩ := bind_ok.mp hset
      obtain ⟨hm, hkey, hs⟩ := Db.mem_of_active (need_ok.mp hagent)
      exact nomatch (hnone agent hm hkey).symm.trans hs
    | default hdef hall =>
      obtain ⟨_, hset, -⟩ := bind_ok.mp hr
      obtain ⟨_, _, hset⟩ := bind_ok.mp hset
      obtain ⟨_, hallowed, -⟩ := bind_ok.mp hset
      have hallowed := require_ok.mp hallowed
      exact hallowed.elim hall fun hne => hne hdef

theorem Instance.empty_ok : (Instance.empty : Instance J).Ok :=
  ⟨⟨by simp [empty], by simp [empty], by simp [empty]⟩, nofun, fun _ => rfl⟩

theorem transact_ok (hs : s.Ok) (call : AssetCall J) :
    (call.transact s).2.Ok ∧ CallEffect s call (call.transact s).1 (call.transact s).2 := by
  cases h : call.run s with
  | error e =>
    simp only [AssetCall.transact, h]
    exact ⟨hs, .refused⟩
  | ok answered =>
    obtain ⟨answer, t⟩ := answered
    simp only [AssetCall.transact, h]
    cases call with
    | applyConfigAssetMutations input =>
      obtain ⟨db, hdb, h⟩ := bind_ok.mp h
      obtain ⟨rfl, rfl⟩ := Prod.mk.inj (pure_ok.mp h)
      obtain ⟨hrows, hdef, hv⟩ := applyConfigAssetMutations_rows hs.toRowsOk hdb
      exact ⟨⟨hrows, hdef, nofun⟩, .applied (t := ⟨db, true⟩) hv⟩
    | setAgentAvailability agentName availability =>
      obtain ⟨⟨stored, db⟩, hdb, h⟩ := bind_ok.mp h
      obtain ⟨rfl, rfl⟩ := Prod.mk.inj (pure_ok.mp h)
      obtain ⟨hrows, hdef, hset⟩ := setAgentAvailability_ok hs.toRowsOk hs.default hdb
      refine ⟨⟨hrows, hdef, fun hstate => ?_⟩, .available hset⟩
      simpa [hs.state hstate] using hset.same.2
    | deleteWorkspaceOwnedAssets workspaceId =>
      obtain ⟨rfl, rfl⟩ := Prod.mk.inj (Except.ok.inj h)
      refine ⟨deleteWorkspaceOwnedAssets_ok hs, ?_⟩
      by_cases hany : ∃ asset ∈ s.assets, asset.OwnedBy workspaceId
      · obtain ⟨asset, ha, ho⟩ := hany
        refine .removed ⟨asset, ha, ho⟩ ?_ fun r => mem_deleteWorkspaceOwnedAssets
        rw [deleteWorkspaceOwnedAssets_some hs ha ho]
      · have hnone : ∀ asset ∈ s.assets, ¬ asset.OwnedBy workspaceId := fun asset ha ho => hany ⟨asset, ha, ho⟩
        rw [deleteWorkspaceOwnedAssets_none hnone]
        exact .nothingOwned hnone

theorem assetCalls_preserves : (assetCalls J).Preserves Instance.Ok :=
  fun _ call hs _ => (transact_ok hs call).1

def Instance.Later (s t : Instance J) : Prop :=
  s.version < t.version ∨ (s.version = t.version ∧ s.SameSet t.toDb)

theorem Instance.Later.trans (h₁ : Later s t) (h₂ : Later t u) : Later s u := by
  rcases h₁ with h₁ | ⟨h₁, hd₁, ha₁⟩
  · rcases h₂ with h₂ | ⟨h₂, -⟩
    · exact .inl (h₁.trans h₂)
    · exact .inl (h₂ ▸ h₁)
  · rcases h₂ with h₂ | ⟨h₂, hd₂, ha₂⟩
    · exact .inl (h₁ ▸ h₂)
    · exact .inr ⟨h₁.trans h₂, hd₂.trans hd₁, ha₂.trans ha₁⟩

theorem CallEffect.later (h : CallEffect s call answer t) : Instance.Later s t := by
  cases h with
  | refused | nothingOwned => exact .inr ⟨rfl, rfl, rfl⟩
  | applied hv => exact .inl (hv ▸ Nat.lt_succ_self _)
  | removed _ hv => exact .inl (hv ▸ Nat.lt_succ_self _)
  | available hset => exact .inr ⟨hset.version.symm, hset.same⟩

/-- The set's invariant, what each call does, and how the version counts the set's changes. -/
theorem configAssets_ok (hs : (assetCalls J).Reachable s) :
    s.DefaultOk ∧ (∀ asset ∈ s.assets, asset.RevisionsOk) ∧
      (∀ call, CallEffect s call ((assetCalls J).answer s call) ((assetCalls J).next s call)) ∧
      (∀ call, Refusable s call → ∃ e, (assetCalls J).answer s call = .error e) ∧
      ∀ h t, (assetCalls J).Run s h t → s.Later t := by
  have hinit : ∀ s, (assetCalls J).init s → s.Ok := by
    rintro s rfl
    exact Instance.empty_ok
  have hok := hs.invariant hinit assetCalls_preserves
  refine ⟨hok.default, fun asset ha => (hok.assets asset ha).toRevisionsOk, fun call => (transact_ok hok call).2,
    fun _ => Refusable.refused, ?_⟩
  intro h t hr
  exact hr.relates (fun _ => .inr ⟨rfl, rfl, rfl⟩) (fun _ _ _ => Instance.Later.trans) assetCalls_preserves
    (fun s call hs _ => (transact_ok hs call).2.later) hok

instance : Decidable ((assetCalls J).enabled s call) := .isTrue trivial

namespace Example

def twoAgents : AssetCall String := .applyConfigAssetMutations
  { baseVersion := some 0
    mutations := [.setDefaultAgent (some "main"), .upsert (.agent, "main") "definition" false none,
      .upsert (.agent, "helper") "definition" false (some (.ofWorkspace "w")),
      .upsert (.agent, "main") "changed" false none] }

def selectHelper : AssetCall String := .setAgentAvailability "helper" ⟨.selected, false, ["w", "v", "w"]⟩

def withAgents : Instance String := (assetCalls String).after .empty [twoAgents]

def withoutWorkspace : Instance String :=
  (assetCalls String).after .empty
    [twoAgents, selectHelper, .setAgentAvailability "main" ⟨.selected, false, []⟩, .deleteWorkspaceOwnedAssets "w"]

end Example

/-- A change of an agent's availability is applied, and the version stays. -/
theorem availability_keeps_version :
    ¬ ∀ (s : Instance String) (call : AssetCall String), (assetCalls String).Reachable s →
      (assetCalls String).next s call ≠ s → s.version < ((assetCalls String).next s call).version := by
  intro h
  have hallows : (assetCalls String).Allows .empty [Example.twoAgents] := by decide
  have hlt := h Example.withAgents Example.selectHelper ⟨.empty, _, rfl, hallows.run⟩ (by decide)
  revert hlt
  decide

theorem configAssets_ok_without_workspace :
    Example.withoutWorkspace.version = 2 ∧ Example.withoutWorkspace.defaultAgentName = some "main" ∧
      Example.withoutWorkspace.assets.map (·.revisions.map (·.revision)) = [[1, 2]] ∧
      Example.withoutWorkspace.DefaultOk := by
  have hallows : (assetCalls String).Allows .empty
      [Example.twoAgents, Example.selectHelper, .setAgentAvailability "main" ⟨.selected, false, []⟩,
        .deleteWorkspaceOwnedAssets "w"] := by decide
  exact ⟨by decide, by decide, by decide, (configAssets_ok ⟨.empty, _, rfl, hallows.run⟩).1⟩

end Catalyst.Assets
