import Catalyst.Assets.Sound
import Catalyst.Assets.Store

/-!
# What a batch does to the active set

To its readers a set is a map from keys to definitions, with a default agent. A
mutation changes that map at one key, in the store's rows as in a candidate. Two
well-named sets with one map have the same definitions.
-/

namespace Catalyst.Assets

open Library Library.Check

@[ext] structure AssetMap (J : Type) where
  default : Option String
  definition : AssetKey → Option J

variable {J : Type}

def ConfigAssetMutation.on (v : AssetMap J) : ConfigAssetMutation J → AssetMap J
  | .upsert key config _ _ => { v with definition := Function.update v.definition key (some config) }
  | .delete key _ => { v with definition := Function.update v.definition key none }
  | .setDefaultAgent agentName => { v with default := agentName }

def ConfigAssetMutation.Named (readName : J → Option String) : ConfigAssetMutation J → Prop
  | .upsert key config _ _ => readName config = some key.2
  | _ => True

namespace AssetSet

variable {readName : J → Option String} {s t : AssetSet J}

def findDefinition (readName : J → Option String) (set : AssetSet J) (key : AssetKey) : Option J :=
  (set.definitions key.1).find? (readName · = some key.2)

def map (readName : J → Option String) (set : AssetSet J) : AssetMap J :=
  ⟨set.defaultAgentName, set.findDefinition readName⟩

structure WellNamed (readName : J → Option String) (set : AssetSet J) : Prop where
  named : ∀ kind, ∀ d ∈ set.definitions kind, ∃ name, readName d = some name
  nodup : ∀ kind, ((set.definitions kind).map readName).Nodup

theorem WellNamed.mem_iff (h : s.WellNamed readName) :
    d ∈ s.definitions kind ↔ ∃ name, s.findDefinition readName (kind, name) = some d := by
  constructor
  · intro hd
    obtain ⟨name, hn⟩ := h.named kind d hd
    exact ⟨name, (find?_key_eq_some (h.nodup kind)).mpr ⟨hd, hn⟩⟩
  · rintro ⟨name, hn⟩
    exact ((find?_key_eq_some (h.nodup kind)).mp hn).1

theorem WellNamed.same (hs : s.WellNamed readName) (ht : t.WellNamed readName)
    (h : s.map readName = t.map readName) : s.Same t where
  default := congrArg AssetMap.default h
  definitions kind := by
    have hd : s.findDefinition readName = t.findDefinition readName := congrArg AssetMap.definition h
    refine (List.perm_ext_iff_of_nodup (hs.nodup kind).of_map (ht.nodup kind).of_map).mpr fun d => ?_
    rw [hs.mem_iff, ht.mem_iff, hd]

end AssetSet

def ConfigAsset.active? (asset : ConfigAsset J) : Option J :=
  if asset.status = .active then asset.activeRevision?.bind (·.config) else none

def Db.map (db : Db J) : AssetMap J :=
  ⟨db.defaultAgentName, fun key => (db.find? key).bind ConfigAsset.active?⟩

structure ConfigAsset.Ok (readName : J → Option String) (nextId : Nat) (asset : ConfigAsset J) :
    Prop where
  id_lt : asset.id < nextId
  revision_lt : ∀ r ∈ asset.revisions, r.id < nextId
  current : ∃ r, asset.activeRevision? = some r
  named : asset.status = .active → ∃ d, asset.active? = some d ∧ readName d = some asset.key.2

structure Db.Ok (readName : J → Option String) (db : Db J) : Prop where
  assets : ∀ asset ∈ db.assets, asset.Ok readName db.nextId
  ids : (db.assets.map ConfigAsset.id).Nodup
  keys : (db.assets.map ConfigAsset.key).Nodup

variable {readName : J → Option String} {db db' : Db J} {asset : ConfigAsset J}

theorem ConfigAsset.Ok.mono (h : asset.Ok readName n) (hn : n ≤ n') : asset.Ok readName n' :=
  ⟨h.id_lt.trans_le hn, fun r hr => (h.revision_lt r hr).trans_le hn, h.current, h.named⟩

theorem Db.Ok.find?_eq_some (h : db.Ok readName) :
    db.find? key = some asset ↔ asset ∈ db.assets ∧ asset.key = key := find?_key_eq_some h.keys

theorem Db.find?_eq_none : db.find? key = none ↔ ∀ asset ∈ db.assets, asset.key ≠ key :=
  find?_key_eq_none

-- One row

theorem appended_iff : appendAndActivateRevision db asset operation config status = .ok a ↔
    ∃ r, asset.activeRevision? = some r ∧
      a = { asset with
        status := status
        activeRevisionId := db.nextId
        revisions := asset.revisions ++ [⟨db.nextId, r.revision + 1, operation, config, db.version + 1⟩] } := by
  simp only [appendAndActivateRevision, bind_ok, need_ok, pure_ok]
  exact exists_congr fun r => and_congr_right fun _ => eq_comm

theorem find?_appended {revisions : List (ConfigAssetRevision J)} {x : ConfigAssetRevision J}
    (hnew : ∀ r ∈ revisions, r.id < x.id) : (revisions ++ [x]).find? (·.id = x.id) = some x := by
  rw [List.find?_append, List.find?_eq_none.mpr]
  · simp
  · intro r hr
    simpa using (hnew r hr).ne

theorem appended_ok (ha : asset.Ok readName db.nextId) (hn : ∀ d ∈ config, readName d = some asset.key.2)
    (hs : status = .active ↔ config.isSome)
    (h : appendAndActivateRevision db asset operation config status = .ok a) :
    a.Ok readName (db.nextId + 1) ∧ a.id = asset.id ∧ a.key = asset.key ∧ a.active? = config := by
  obtain ⟨r, -, rfl⟩ := appended_iff.mp h
  have hactive := find?_appended (x := ⟨db.nextId, r.revision + 1, operation, config, db.version + 1⟩)
    ha.revision_lt
  have hconfig : (if status = .active then config else none) = config := by
    split
    · rfl
    · rename_i hc
      cases config with
      | none => rfl
      | some d => exact absurd (hs.mpr rfl) hc
  have hget : ({ asset with status := status, activeRevisionId := db.nextId, revisions :=
      asset.revisions ++ [⟨db.nextId, r.revision + 1, operation, config, db.version + 1⟩] } :
      ConfigAsset J).active? = config := by
    simp only [ConfigAsset.active?, ConfigAsset.activeRevision?, hactive, Option.bind_some, hconfig]
  refine ⟨⟨Nat.lt_succ_of_lt ha.id_lt, ?_, ⟨_, hactive⟩, ?_⟩, rfl, rfl, hget⟩
  · intro r hr
    rcases List.mem_append.mp hr with hr | hr
    · exact Nat.lt_succ_of_lt (ha.revision_lt r hr)
    · obtain rfl := List.mem_singleton.mp hr
      exact Nat.lt_succ_self _
  · intro hst
    obtain ⟨d, rfl⟩ := Option.isSome_iff_exists.mp (hs.mp hst)
    exact ⟨d, hget, hn d rfl⟩

theorem ConfigAsset.Ok.withAvailability (h : asset.Ok readName n) (v : Option AgentAvailability) :
    ({ asset with availability := v } : ConfigAsset J).Ok readName n :=
  ⟨h.id_lt, h.revision_lt, h.current, h.named⟩

-- All rows

theorem Db.mem_update (hids : (db.assets.map ConfigAsset.id).Nodup) (hm : asset ∈ db.assets)
    (hid : a.id = asset.id) : r ∈ (db.update a).assets ↔ r = a ∨ (r ∈ db.assets ∧ r.id ≠ asset.id) := by
  simp only [Db.update, hid]
  exact updateWhere_key_of_mem hids hm

theorem Db.update_ids (db : Db J) (a : ConfigAsset J) :
    (db.update a).assets.map ConfigAsset.id = db.assets.map ConfigAsset.id :=
  map_updateWhere ConfigAsset.id fun _ hr => hr.symm

theorem Db.update_keys (hids : (db.assets.map ConfigAsset.id).Nodup) (hm : asset ∈ db.assets)
    (hid : a.id = asset.id) (hkey : a.key = asset.key) :
    (db.update a).assets.map ConfigAsset.key = db.assets.map ConfigAsset.key := by
  have hsame : ∀ r ∈ db.assets, r.id = a.id → a.key = r.key := by
    intro r hr he
    rw [hkey, eq_of_key hids hr hm (he.trans hid)]
  simp only [Db.update, updateWhere, List.map_map]
  refine List.map_congr_left fun r hr => ?_
  by_cases he : r.id = a.id
  · simp [he, hsame r hr he]
  · simp [he]

theorem Db.Ok.update_ok (hd : db.Ok readName) (hm : asset ∈ db.assets)
    (ha : a.Ok readName (db.nextId + 1)) (hid : a.id = asset.id) (hkey : a.key = asset.key) :
    (db.update a).Ok readName where
  assets r hr := by
    rcases (Db.mem_update hd.ids hm hid).mp hr with rfl | ⟨hr, -⟩
    · exact ha
    · exact (hd.assets r hr).mono (Nat.le_succ _)
  ids := Db.update_ids db a ▸ hd.ids
  keys := Db.update_keys hd.ids hm hid hkey ▸ hd.keys

theorem Db.find?_update (hids : (db.assets.map ConfigAsset.id).Nodup)
    (hkeys : (db.assets.map ConfigAsset.key).Nodup) (hm : asset ∈ db.assets)
    (hid : a.id = asset.id) (hkey : a.key = asset.key) (key : AssetKey) :
    (db.update a).find? key = if key = asset.key then some a else db.find? key := by
  have hkeys' : ((db.update a).assets.map ConfigAsset.key).Nodup :=
    Db.update_keys hids hm hid hkey ▸ hkeys
  split
  · rename_i hk
    exact (find?_key_eq_some hkeys').mpr ⟨(Db.mem_update hids hm hid).mpr (.inl rfl), hkey.trans hk.symm⟩
  · rename_i hk
    cases hf : db.find? key with
    | none =>
      rw [Db.find?_eq_none] at hf ⊢
      intro r hr
      rcases (Db.mem_update hids hm hid).mp hr with rfl | ⟨hr, -⟩
      · rw [hkey]
        exact fun he => hk he.symm
      · exact hf r hr
    | some x =>
      obtain ⟨hx, hxk⟩ := (find?_key_eq_some hkeys).mp hf
      have hne : x.id ≠ asset.id := fun he => hk (hxk ▸ eq_of_key hids hx hm he ▸ rfl)
      exact (find?_key_eq_some hkeys').mpr ⟨(Db.mem_update hids hm hid).mpr (.inr ⟨hx, hne⟩), hxk⟩

theorem Db.Ok.update (hd : db.Ok readName) (hm : asset ∈ db.assets)
    (ha : a.Ok readName (db.nextId + 1)) (hid : a.id = asset.id) (hkey : a.key = asset.key) :
    (db.update a).Ok readName ∧
      (db.update a).map = { db.map with
        definition := Function.update db.map.definition asset.key a.active? } := by
  refine ⟨hd.update_ok hm ha hid hkey, AssetMap.ext rfl (funext fun key => ?_)⟩
  simp only [Db.map, Db.find?_update hd.ids hd.keys hm hid hkey, Function.update_apply]
  split <;> rfl

theorem Db.Ok.insert (hd : db.Ok readName) (hf : db.find? key = none)
    (hn : readName config = some key.2) :
    (db.insert key scope operation config mode).Ok readName ∧
      (db.insert key scope operation config mode).map = { db.map with
        definition := Function.update db.map.definition key (some config) } := by
  have hkey := Db.find?_eq_none.mp hf
  have hactive : ∀ asset ∈ (db.insert key scope operation config mode).assets.head?,
      asset.active? = some config ∧ asset.activeRevision? ≠ none := by
    intro asset ha
    obtain rfl := Option.some.inj ha
    simp [ConfigAsset.active?, ConfigAsset.activeRevision?]
  refine ⟨⟨?_, ?_, ?_⟩, AssetMap.ext rfl (funext fun k => ?_)⟩
  · intro asset ha
    rcases List.mem_cons.mp ha with rfl | ha
    · obtain ⟨hac, hrev⟩ := hactive _ rfl
      refine ⟨by simp [Db.insert], by simp [Db.insert], Option.ne_none_iff_exists'.mp hrev, ?_⟩
      exact fun _ => ⟨config, hac, hn⟩
    · exact (hd.assets asset ha).mono (Nat.le_add_right _ 2)
  · refine List.nodup_cons.mpr ⟨fun hm => ?_, hd.ids⟩
    obtain ⟨asset, ha, he⟩ := List.mem_map.mp hm
    exact absurd he (hd.assets asset ha).id_lt.ne
  · refine List.nodup_cons.mpr ⟨fun hm => ?_, hd.keys⟩
    obtain ⟨asset, ha, he⟩ := List.mem_map.mp hm
    exact hkey asset ha he
  · by_cases hk : k = key
    · subst hk
      simp [Db.map, Db.find?, Db.insert, ConfigAsset.active?, ConfigAsset.activeRevision?]
    · have hne : ¬ key = k := fun he => hk he.symm
      simp [Db.map, Db.find?, Db.insert, List.find?_cons, hk, hne]

theorem ConfigAsset.active?_of_deleted (h : asset.status = .deleted) : asset.active? = none := by
  simp [ConfigAsset.active?, h]

theorem Db.map_definition_of_none (h : (db.find? key).bind ConfigAsset.active? = none) :
    db.map = { db.map with definition := Function.update db.map.definition key none } := by
  refine AssetMap.ext rfl (funext fun k => ?_)
  by_cases hk : k = key
  · subst hk
    simpa [Db.map] using h
  · simp [hk]

theorem applyMutation_ok (hd : db.Ok readName) (hm : m.Named readName)
    (h : applyMutation mode db m = .ok db') : db'.Ok readName ∧ db'.map = m.on db.map := by
  cases m with
  | setDefaultAgent agentName =>
    obtain rfl := Except.ok.inj h
    exact ⟨⟨hd.assets, hd.ids, hd.keys⟩, rfl⟩
  | delete key scope =>
    simp only [applyMutation] at h
    cases hf : db.find? key with
    | none =>
      rw [hf] at h
      obtain rfl := Except.ok.inj h
      exact ⟨hd, Db.map_definition_of_none (by simp [hf])⟩
    | some asset =>
      rw [hf] at h
      obtain ⟨hmem, rfl⟩ := hd.find?_eq_some.mp hf
      obtain ⟨-, -, h⟩ := bind_ok.mp h
      split at h
      · rename_i hs
        obtain rfl := pure_ok.mp h
        exact ⟨hd, Db.map_definition_of_none (by simp [hf, ConfigAsset.active?_of_deleted hs])⟩
      · obtain ⟨a, ha, hp⟩ := bind_ok.mp h
        obtain rfl := pure_ok.mp hp
        obtain ⟨hok, hid, hkey, hac⟩ :=
          appended_ok (hd.assets asset hmem) (by simp) (by simp) ha
        rw [ConfigAssetMutation.on, ← hac]
        exact hd.update hmem (hok.withAvailability none) hid hkey
  | upsert key config revert scope =>
    simp only [applyMutation] at h
    cases hf : db.find? key with
    | none =>
      rw [hf] at h
      obtain rfl := Except.ok.inj h
      exact hd.insert hf hm
    | some asset =>
      rw [hf] at h
      obtain ⟨hmem, rfl⟩ := hd.find?_eq_some.mp hf
      obtain ⟨-, -, h⟩ := bind_ok.mp h
      obtain ⟨a, ha, hp⟩ := bind_ok.mp h
      obtain rfl := pure_ok.mp hp
      obtain ⟨hok, hid, hkey, hac⟩ :=
        appended_ok (hd.assets asset hmem) (fun d hd => (Option.some.inj hd) ▸ hm) (by simp) ha
      rw [ConfigAssetMutation.on, ← hac]
      split
      · exact hd.update hmem (hok.withAvailability _) hid hkey
      · exact hd.update hmem hok hid hkey

theorem applyMutations_ok (hd : db.Ok readName) (hm : ∀ m ∈ ms, m.Named readName)
    (h : applyMutations mode db ms = .ok db') :
    db'.Ok readName ∧ db'.map = ms.foldl ConfigAssetMutation.on db.map := by
  induction ms generalizing db with
  | nil =>
    obtain rfl := Except.ok.inj h
    exact ⟨hd, rfl⟩
  | cons m ms ih =>
    obtain ⟨db₁, h₁, h₂⟩ := bind_ok.mp h
    obtain ⟨hd₁, hmap₁⟩ := applyMutation_ok hd (hm m List.mem_cons_self) h₁
    rw [List.foldl_cons, ← hmap₁]
    exact ih hd₁ (fun m hm' => hm m (List.mem_cons_of_mem _ hm')) h₂

theorem applyConfigAssetMutations_ok (hd : db.Ok readName)
    (hm : ∀ m ∈ input.mutations, m.Named readName)
    (h : applyConfigAssetMutations input db = .ok db') :
    db'.Ok readName ∧ db'.map = input.mutations.foldl ConfigAssetMutation.on db.map := by
  obtain ⟨-, -, h⟩ := bind_ok.mp h
  obtain ⟨db₁, h₁, h⟩ := bind_ok.mp h
  obtain ⟨-, -, h⟩ := bind_ok.mp h
  obtain rfl := pure_ok.mp h
  obtain ⟨hd₁, hmap₁⟩ := applyMutations_ok hd hm h₁
  exact ⟨⟨hd₁.assets, hd₁.ids, hd₁.keys⟩, hmap₁⟩

theorem set_definitions_perm (nameLe : String → String → Bool) (db : Db J) (kind : AssetKindId) :
    ((db.set nameLe).definitions kind).Perm
      (db.assets.filterMap fun asset => if asset.key.1 = kind then asset.active? else none) := by
  refine ((List.perm_insertionSort _ _).filterMap _).trans (List.Perm.of_eq ?_)
  rw [List.filterMap_filter, List.filterMap_filterMap]
  refine List.filterMap_congr fun asset _ => ?_
  by_cases hs : asset.status = .active
  · cases hr : asset.activeRevision? with
    | none => simp [ConfigAsset.record?, ConfigAsset.active?, hs, hr]
    | some r => simp [ConfigAsset.record?, ConfigAsset.active?, hs, hr]
  · simp [ConfigAsset.active?, hs]

theorem mem_set_definitions : d ∈ (db.set nameLe).definitions kind ↔
    ∃ asset ∈ db.assets, asset.key.1 = kind ∧ asset.active? = some d := by
  rw [(set_definitions_perm nameLe db kind).mem_iff, List.mem_filterMap]
  refine exists_congr fun asset => and_congr_right fun _ => ?_
  by_cases h : asset.key.1 = kind <;> simp [h]

theorem ConfigAsset.status_of_active? (h : asset.active? = some d) : asset.status = .active := by
  unfold ConfigAsset.active? at h
  split at h
  · assumption
  · cases h

theorem ConfigAsset.Ok.active_name (ha : asset.Ok readName n) (h : asset.active? = some d) :
    readName d = some asset.key.2 := by
  obtain ⟨d', hd', hn⟩ := ha.named (ConfigAsset.status_of_active? h)
  obtain rfl := Option.some.inj (h.symm.trans hd')
  exact hn

theorem Db.Ok.set_wellNamed (hd : db.Ok readName) (nameLe : String → String → Bool) :
    (db.set nameLe).WellNamed readName where
  named kind d hm := by
    obtain ⟨asset, ha, -, hac⟩ := mem_set_definitions.mp hm
    exact ⟨_, (hd.assets asset ha).active_name hac⟩
  nodup kind := by
    refine ((set_definitions_perm nameLe db kind).map readName).nodup_iff.mpr ?_
    refine nodup_map_filterMap hd.keys fun a ha b hb x hx y hy he => ?_
    split at hx
    · rename_i hka
      split at hy
      · rename_i hkb
        rw [(hd.assets a ha).active_name hx, (hd.assets b hb).active_name hy] at he
        exact Prod.ext (hka.trans hkb.symm) (Option.some.inj he)
      · cases hy
    · cases hx

theorem Db.Ok.set_map (hd : db.Ok readName) (nameLe : String → String → Bool) :
    (db.set nameLe).map readName = db.map := by
  refine AssetMap.ext rfl (funext fun key => Option.ext fun d => ?_)
  refine (find?_key_eq_some ((hd.set_wellNamed nameLe).nodup key.1)).trans ?_
  rw [mem_set_definitions]
  constructor
  · rintro ⟨⟨asset, ha, hk, hac⟩, hn⟩
    have hname := (hd.assets asset ha).active_name hac
    have hkey : asset.key = key := Prod.ext hk (Option.some.inj (hname.symm.trans hn))
    simp [Db.map, hd.find?_eq_some.mpr ⟨ha, hkey⟩, hac]
  · intro h
    obtain ⟨asset, hf, hac⟩ := Option.bind_eq_some_iff.mp h
    obtain ⟨ha, rfl⟩ := hd.find?_eq_some.mp hf
    exact ⟨⟨asset, ha, rfl, hac⟩, (hd.assets asset ha).active_name hac⟩

end Catalyst.Assets
