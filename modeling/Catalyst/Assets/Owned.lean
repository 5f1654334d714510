import Mathlib
import Catalyst.Assets.Bundle

/-!
# What a batch does to the owned definitions

Beside its definition an active asset has an owner. A mutation changes one row, which it first
checks to be of the owner it is for, so the rows of other owners and other keys stay what they
are. The records readers find are the owned definitions.
-/

namespace Catalyst.Assets

open Library Library.Check

section

variable {J : Type} {readName : J → Option String} {db db' : Db J}

def Db.owned (db : Db J) (key : AssetKey) : Option (AssetScope × J) :=
  (db.find? key).bind fun asset => asset.active?.map (asset.scope, ·)

def Db.WorkspaceOwned (db : Db J) (key : AssetKey) : Prop :=
  ∃ workspaceId d, db.owned key = some (.ofWorkspace workspaceId, d)

theorem Db.map_owned (db : Db J) (key : AssetKey) :
    db.map.definition key = (db.owned key).map Prod.snd := by
  simp only [Db.map, Db.owned]
  cases db.find? key with
  | none => rfl
  | some asset => cases hd : asset.active? <;> simp [hd]

def ConfigAssetMutation.target : ConfigAssetMutation J → Option (AssetKey × AssetScope)
  | .upsert key _ _ scope => some (key, scope.getD .ofInstance)
  | .delete key scope => some (key, scope.getD .ofInstance)
  | .setDefaultAgent _ => none

def ConfigAssetMutation.own (v : AssetKey → Option (AssetScope × J)) :
    ConfigAssetMutation J → AssetKey → Option (AssetScope × J)
  | .upsert key config _ scope => Function.update v key (some (scope.getD .ofInstance, config))
  | .delete key _ => Function.update v key none
  | .setDefaultAgent _ => v

/-- What mutations have done to the rows: another row, or another owner's, is left alone. -/
structure RowsAfter (targets : AssetKey → AssetScope → Prop) (db db' : Db J) : Prop where
  frame : ∀ key, (∀ scope, ¬ targets key scope) → db'.find? key = db.find? key
  kept : ∀ key, ∀ row ∈ db.find? key, ∃ row' ∈ db'.find? key, row'.scope = row.scope
  scope : ∀ key scope, targets key scope → ∀ row ∈ db.find? key, row.scope = scope

theorem RowsAfter.same (db : Db J) (h : ∀ key scope, targets key scope → db.find? key = none) :
    RowsAfter targets db db where
  frame _ _ := rfl
  kept _ row hrow := ⟨row, hrow, rfl⟩
  scope key scope ht row hrow := by
    rw [h key scope ht] at hrow
    cases hrow

theorem owned_of_active (h : (db.find? key).bind ConfigAsset.active? = none) :
    db.owned key = none := by
  simp only [Db.owned]
  cases hf : db.find? key with
  | none => rfl
  | some asset =>
    rw [hf, Option.bind_some] at h
    simp [h]

theorem RowsAfter.written {row : ConfigAsset J} {key : AssetKey}
    (hfind : ∀ k, db'.find? k = if k = key then some row else db.find? k)
    (hscope : ∀ old ∈ db.find? key, old.scope = row.scope) :
    RowsAfter (fun k s => (key, row.scope) = (k, s)) db db' where
  frame k hk := by
    rw [hfind, if_neg]
    rintro rfl
    exact hk row.scope rfl
  kept k old hold := by
    rw [hfind]
    split
    next h =>
      subst h
      exact ⟨row, rfl, (hscope old hold).symm⟩
    next => exact ⟨old, hold, rfl⟩
  scope k s hs old hold := by
    cases hs
    exact hscope old hold

theorem owned_written {row : ConfigAsset J} {key : AssetKey}
    (hfind : ∀ k, db'.find? k = if k = key then some row else db.find? k) :
    db'.owned = Function.update db.owned key (row.active?.map (row.scope, ·)) := by
  funext k
  simp only [Db.owned, hfind, Function.update_apply]
  split <;> rfl

theorem applyMutation_owned {m : ConfigAssetMutation J} (hd : db.Ok readName)
    (hm : m.Named readName) (h : applyMutation mode db m = .ok db') :
    RowsAfter (fun key scope => m.target = some (key, scope)) db db' ∧ db'.owned = m.own db.owned := by
  cases m with
  | setDefaultAgent agentName =>
    obtain rfl := Except.ok.inj h
    exact ⟨⟨fun _ _ => rfl, fun _ row hrow => ⟨row, hrow, rfl⟩, fun _ _ ht => by cases ht⟩, rfl⟩
  | delete key scope =>
    simp only [applyMutation] at h
    cases hf : db.find? key with
    | none =>
      rw [hf] at h
      obtain rfl := Except.ok.inj h
      refine ⟨.same db fun k s ht => ?_, ?_⟩
      · obtain ⟨rfl, -⟩ := Prod.mk.inj (Option.some.inj ht)
        exact hf
      · exact (Function.update_eq_self_iff.mpr (owned_of_active (by simp [hf])).symm).symm
    | some asset =>
      rw [hf] at h
      obtain ⟨hmem, rfl⟩ := hd.find?_eq_some.mp hf
      obtain ⟨_, hscope, h⟩ := bind_ok.mp h
      have hscope : scope.getD .ofInstance = asset.scope := require_ok.mp hscope
      split at h
      · rename_i hs
        obtain rfl := pure_ok.mp h
        refine ⟨⟨fun _ _ => rfl, fun _ row hrow => ⟨row, hrow, rfl⟩, fun k s ht row hrow => ?_⟩, ?_⟩
        · obtain ⟨rfl, rfl⟩ := Prod.mk.inj (Option.some.inj ht)
          obtain rfl := Option.some.inj (hf.symm.trans hrow)
          exact hscope.symm
        · refine (Function.update_eq_self_iff.mpr (owned_of_active ?_).symm).symm
          simp [hf, ConfigAsset.active?_of_deleted hs]
      · obtain ⟨a, ha, hp⟩ := bind_ok.mp h
        obtain rfl := pure_ok.mp hp
        obtain ⟨hok, hid, hkey, hac⟩ := appended_ok (hd.assets asset hmem) (by simp) (by simp) ha
        have hscope' : a.scope = asset.scope := by
          obtain ⟨r, -, rfl⟩ := appended_iff.mp ha
          rfl
        have hfind := Db.find?_update (a := { a with availability := none }) hd.ids hd.keys hmem hid hkey
        refine ⟨?_, ?_⟩
        · have hrows := RowsAfter.written hfind fun old hold =>
            (Option.some.inj (hf.symm.trans hold)) ▸ hscope'.symm
          simpa only [ConfigAssetMutation.target, hscope, hscope', Option.some.injEq] using hrows
        · have hnone : ({ a with availability := none } : ConfigAsset J).active? = none := hac
          rw [owned_written hfind, hnone]
          rfl
  | upsert key config revert scope =>
    simp only [applyMutation] at h
    cases hf : db.find? key with
    | none =>
      rw [hf] at h
      obtain rfl := Except.ok.inj h
      let row : ConfigAsset J := ⟨db.nextId, key, scope.getD .ofInstance, .active, db.nextId + 1,
        [⟨db.nextId + 1, 1, if revert then .revert else .create, some config, db.version + 1⟩],
        initialAvailability mode key.1⟩
      have hfind (k : AssetKey) : (db.insert key (scope.getD .ofInstance)
          (if revert then .revert else .create) config mode).find? k =
          if k = key then some row else db.find? k := by
        by_cases hk : k = key
        · subst hk
          simp [Db.find?, Db.insert, row]
        · have hne : ¬ key = k := fun he => hk he.symm
          simp [Db.find?, Db.insert, hk, hne]
      refine ⟨?_, ?_⟩
      · have hrows := RowsAfter.written hfind fun old hold => by
          rw [hf] at hold
          cases hold
        simpa only [ConfigAssetMutation.target, Option.some.injEq] using hrows
      · have hac : row.active? = some config := by
          simp [row, ConfigAsset.active?, ConfigAsset.activeRevision?]
        rw [owned_written hfind, hac]
        rfl
    | some asset =>
      rw [hf] at h
      obtain ⟨hmem, rfl⟩ := hd.find?_eq_some.mp hf
      obtain ⟨_, hscope, h⟩ := bind_ok.mp h
      have hscope : scope.getD .ofInstance = asset.scope := require_ok.mp hscope
      obtain ⟨a, ha, hp⟩ := bind_ok.mp h
      obtain rfl := pure_ok.mp hp
      obtain ⟨hok, hid, hkey, hac⟩ :=
        appended_ok (hd.assets asset hmem) (fun d hd => (Option.some.inj hd) ▸ hm) (by simp) ha
      have hscope' : a.scope = asset.scope := by
        obtain ⟨r, -, rfl⟩ := appended_iff.mp ha
        rfl
      -- whether the availability starts anew is no matter here
      have hwritten (row : ConfigAsset J) (hrow : row = a ∨
          row = { a with availability := initialAvailability mode asset.key.1 }) :
          RowsAfter (fun k s => (ConfigAssetMutation.upsert asset.key config revert scope).target =
            some (k, s)) db (db.update row) ∧ (db.update row).owned =
              (ConfigAssetMutation.upsert asset.key config revert scope).own db.owned := by
        have hrow : row.Ok readName (db.nextId + 1) ∧ row.id = asset.id ∧ row.key = asset.key ∧
            row.active? = some config ∧ row.scope = asset.scope := by
          rcases hrow with rfl | rfl
          · exact ⟨hok, hid, hkey, hac, hscope'⟩
          · exact ⟨hok.withAvailability _, hid, hkey, hac, hscope'⟩
        obtain ⟨hok, hid, hkey, hac, hscope'⟩ := hrow
        have hfind := Db.find?_update hd.ids hd.keys hmem hid hkey
        refine ⟨?_, ?_⟩
        · have hrows := RowsAfter.written hfind fun old hold =>
            (Option.some.inj (hf.symm.trans hold)) ▸ hscope'.symm
          simpa only [ConfigAssetMutation.target, hscope, hscope', Option.some.injEq] using hrows
        · rw [owned_written hfind, hac, hscope', ← hscope]
          rfl
      split
      · exact hwritten _ (.inr rfl)
      · exact hwritten _ (.inl rfl)

theorem applyMutations_owned {ms : List (ConfigAssetMutation J)} (hd : db.Ok readName)
    (hm : ∀ m ∈ ms, m.Named readName) (h : applyMutations mode db ms = .ok db') :
    RowsAfter (fun key scope => ∃ m ∈ ms, m.target = some (key, scope)) db db' ∧
      db'.owned = ms.foldl ConfigAssetMutation.own db.owned := by
  induction ms generalizing db with
  | nil =>
    obtain rfl := Except.ok.inj h
    exact ⟨.same db (by simp), rfl⟩
  | cons m ms ih =>
    obtain ⟨db₁, h₁, h₂⟩ := bind_ok.mp h
    obtain ⟨hrows₁, howned₁⟩ := applyMutation_owned hd (hm m List.mem_cons_self) h₁
    obtain ⟨hrows₂, howned₂⟩ := ih (applyMutation_ok hd (hm m List.mem_cons_self) h₁).1
      (fun m' hm' => hm m' (List.mem_cons_of_mem _ hm')) h₂
    refine ⟨⟨fun key hkey => ?_, fun key row hrow => ?_, ?_⟩, ?_⟩
    · refine (hrows₂.frame key fun scope ht => ?_).trans (hrows₁.frame key fun scope ht => ?_)
      · obtain ⟨m', hm', ht⟩ := ht
        exact hkey scope ⟨m', List.mem_cons_of_mem _ hm', ht⟩
      · exact hkey scope ⟨m, List.mem_cons_self, ht⟩
    · obtain ⟨row₁, hrow₁, hs₁⟩ := hrows₁.kept key row hrow
      obtain ⟨row₂, hrow₂, hs₂⟩ := hrows₂.kept key row₁ hrow₁
      exact ⟨row₂, hrow₂, hs₂.trans hs₁⟩
    · rintro key scope ⟨m', hm', ht⟩ row hrow
      rcases List.mem_cons.mp hm' with rfl | hm'
      · exact hrows₁.scope key scope ht row hrow
      · obtain ⟨row₁, hrow₁, hs₁⟩ := hrows₁.kept key row hrow
        exact hs₁ ▸ hrows₂.scope key scope ⟨m', hm', ht⟩ row₁ hrow₁
    · rw [howned₂, howned₁]
      rfl

theorem applyConfigAssetMutations_owned {input : MutationInput J} (hd : db.Ok readName)
    (hm : ∀ m ∈ input.mutations, m.Named readName)
    (h : applyConfigAssetMutations input db = .ok db') :
    RowsAfter (fun key scope => ∃ m ∈ input.mutations, m.target = some (key, scope)) db db' ∧
      db'.owned = input.mutations.foldl ConfigAssetMutation.own db.owned := by
  obtain ⟨-, -, h⟩ := bind_ok.mp h
  obtain ⟨db₁, h₁, h⟩ := bind_ok.mp h
  obtain ⟨-, -, h⟩ := bind_ok.mp h
  obtain rfl := pure_ok.mp h
  obtain ⟨hrows, howned⟩ := applyMutations_owned hd hm h₁
  exact ⟨⟨hrows.frame, hrows.kept, hrows.scope⟩, howned⟩

theorem RowsAfter.workspace {targets : AssetKey → AssetScope → Prop} {key : AssetKey}
    (h : RowsAfter targets db db') (hown : ∀ k s, targets k s → s = .ofInstance)
    (hw : db.WorkspaceOwned key) : db'.find? key = db.find? key := by
  obtain ⟨w, d, hw⟩ := hw
  obtain ⟨row, hrow, hd⟩ := Option.bind_eq_some_iff.mp hw
  obtain ⟨_, -, he⟩ := Option.map_eq_some_iff.mp hd
  refine h.frame key fun scope ht => ?_
  have hscope := (h.scope key scope ht row hrow).trans (hown key scope ht)
  rw [(Prod.mk.inj he).1] at hscope
  cases hscope

theorem foldl_own_deletes (keys : List AssetKey) (v : AssetKey → Option (AssetScope × J))
    (key : AssetKey) :
    (keys.map (.delete · none)).foldl ConfigAssetMutation.own v key =
      if key ∈ keys then none else v key := by
  induction keys generalizing v with
  | nil => simp
  | cons k keys ih =>
    rw [List.map_cons, List.foldl_cons, ih, ConfigAssetMutation.own, Function.update_apply]
    by_cases hk : key = k <;> by_cases hm : key ∈ keys <;> simp [hk, hm]

theorem foldl_own_upserts_of_not_mem {entries : List (AssetKey × J)} {key : AssetKey}
    (v : AssetKey → Option (AssetScope × J)) (h : ∀ e ∈ entries, e.1 ≠ key) :
    (entries.map fun e => .upsert e.1 e.2 false none).foldl ConfigAssetMutation.own v key =
      v key := by
  induction entries generalizing v with
  | nil => rfl
  | cons e entries ih =>
    rw [List.map_cons, List.foldl_cons, ih _ fun e he => h e (List.mem_cons_of_mem _ he)]
    exact Function.update_of_ne (h e List.mem_cons_self).symm _ _

theorem foldl_own_upserts {entries : List (AssetKey × J)} {key : AssetKey} {config : J}
    (v : AssetKey → Option (AssetScope × J)) (hall : ∀ e ∈ entries, e.1 = key → e.2 = config)
    (h : v key = some (.ofInstance, config) ∨ ∃ e ∈ entries, e.1 = key) :
    (entries.map fun e => .upsert e.1 e.2 false none).foldl ConfigAssetMutation.own v key =
      some (.ofInstance, config) := by
  induction entries generalizing v with
  | nil => exact h.resolve_right (by simp)
  | cons e entries ih =>
    rw [List.map_cons, List.foldl_cons]
    refine ih _ (fun e he => hall e (List.mem_cons_of_mem _ he)) ?_
    by_cases hk : e.1 = key
    · left
      rw [ConfigAssetMutation.own, hk, Function.update_self, hall e List.mem_cons_self hk]
      rfl
    · rcases h with h | ⟨e', he', hk'⟩
      · left
        exact (Function.update_of_ne (Ne.symm hk) _ _).trans h
      · right
        rcases List.mem_cons.mp he' with rfl | he'
        · exact absurd hk' hk
        · exact ⟨e', he', hk'⟩

theorem mem_listActive {nameLe : String → String → Bool} {r : ConfigAssetRecord J} :
    r ∈ listActiveConfigAssets nameLe db ↔
      ∃ asset ∈ db.assets, asset.status = .active ∧ asset.record? = some r := by
  rw [listActiveConfigAssets, (List.perm_insertionSort _ _).mem_iff, List.mem_filterMap]
  simp only [List.mem_filter, decide_eq_true_eq, and_assoc]

theorem record?_of_active {asset : ConfigAsset J} {r : ConfigAssetRecord J}
    (hs : asset.status = .active) (h : asset.record? = some r) :
    r.key = asset.key ∧ r.scope = asset.scope ∧ asset.active? = r.config := by
  obtain ⟨rev, hrev, rfl⟩ := Option.map_eq_some_iff.mp h
  exact ⟨rfl, rfl, by simp [ConfigAsset.active?, hs, hrev]⟩

theorem owned_iff (nameLe : String → String → Bool) {key : AssetKey} {s : AssetScope} {d : J}
    (hd : db.Ok readName) : db.owned key = some (s, d) ↔
      ∃ r ∈ listActiveConfigAssets nameLe db, r.key = key ∧ r.scope = s ∧ r.config = some d := by
  constructor
  · intro h
    obtain ⟨asset, hf, he⟩ := Option.bind_eq_some_iff.mp h
    obtain ⟨d', hd', he⟩ := Option.map_eq_some_iff.mp he
    obtain ⟨rfl, rfl⟩ := Prod.mk.inj he
    obtain ⟨hmem, rfl⟩ := hd.find?_eq_some.mp hf
    have hs := ConfigAsset.status_of_active? hd'
    obtain ⟨rev, hrev⟩ := (hd.assets asset hmem).current
    have hr : asset.record? = some ⟨asset.key, asset.scope, rev.revision, rev.config⟩ := by
      simp [ConfigAsset.record?, hrev]
    obtain ⟨-, -, hc⟩ := record?_of_active hs hr
    exact ⟨_, mem_listActive.mpr ⟨asset, hmem, hs, hr⟩, rfl, rfl, hc.symm.trans hd'⟩
  · rintro ⟨r, hr, rfl, rfl, hc⟩
    obtain ⟨asset, hmem, hs, hrec⟩ := mem_listActive.mp hr
    obtain ⟨hk, hsc, hac⟩ := record?_of_active hs hrec
    simp [Db.owned, hd.find?_eq_some.mpr ⟨hmem, hk.symm⟩, hac, hc, hsc]

theorem owned_of_record {nameLe : String → String → Bool} {r : ConfigAssetRecord J}
    (hd : db.Ok readName) (hr : r ∈ listActiveConfigAssets nameLe db) :
    ∃ d, db.owned r.key = some (r.scope, d) := by
  obtain ⟨asset, hmem, hs, hrec⟩ := mem_listActive.mp hr
  obtain ⟨-, -, hac⟩ := record?_of_active hs hrec
  obtain ⟨d, hd', -⟩ := (hd.assets asset hmem).named hs
  exact ⟨d, (owned_iff nameLe hd).mpr ⟨r, hr, rfl, rfl, hac.symm.trans hd'⟩⟩

theorem mem_stored (nameLe : String → String → Bool) {key : AssetKey} {d : J}
    (hd : db.Ok readName) : (d ∈ (db.set nameLe).definitions key.1 ∧ readName d = some key.2) ↔
      ∃ s, db.owned key = some (s, d) := by
  have hfind : (db.set nameLe).findDefinition readName key = (db.owned key).map Prod.snd := by
    rw [← Db.map_owned, ← hd.set_map nameLe]
    rfl
  rw [← find?_key_eq_some ((hd.set_wellNamed nameLe).nodup key.1)]
  refine (Iff.of_eq (congrArg (· = some d) hfind)).trans ?_
  simp [Option.map_eq_some_iff]

theorem keyOf_ok {entry : AssetKindId × J} {key : AssetKey} :
    keyOf readName entry = .ok key ↔ key.1 = entry.1 ∧ readName entry.2 = some key.2 := by
  simp only [keyOf, requireConfigName, bind_ok, need_ok, pure_ok]
  constructor
  · rintro ⟨name, hname, rfl⟩
    exact ⟨rfl, hname⟩
  · rintro ⟨hk, hname⟩
    exact ⟨key.2, hname, Prod.ext hk.symm rfl⟩

theorem mem_entries {set : AssetSet J} {entry : AssetKindId × J} :
    entry ∈ set.entries ↔ entry.2 ∈ set.definitions entry.1 := by
  obtain ⟨kind, d⟩ := entry
  simp only [AssetSet.entries, List.mem_flatMap, List.mem_map, Prod.mk.injEq]
  constructor
  · rintro ⟨_, -, _, hd, rfl, rfl⟩
    exact hd
  · intro hd
    exact ⟨kind, kind.mem_all, d, hd, rfl, rfl⟩

theorem mem_assetKeysOf {set : AssetSet J} {keys : List AssetKey} {key : AssetKey}
    (h : assetKeysOf readName set = .ok keys) :
    key ∈ keys ↔ ∃ d ∈ set.definitions key.1, readName d = some key.2 := by
  have hall := mapM_ok.mp h
  constructor
  · intro hk
    obtain ⟨entry, he, hkey⟩ := forall₂_mem_right hall hk
    obtain ⟨hkind, hname⟩ := keyOf_ok.mp hkey
    exact ⟨entry.2, hkind ▸ mem_entries.mp he, hname⟩
  · rintro ⟨d, hd, hname⟩
    have hentry : (key.1, d) ∈ set.entries := mem_entries.mpr hd
    obtain ⟨key', hk, hkey⟩ := forall₂_mem_left hall hentry
    obtain ⟨hkind, hname'⟩ := keyOf_ok.mp hkey
    have he : key' = key := Prod.ext hkind (Option.some.inj (hname'.symm.trans hname))
    exact he ▸ hk

end

end Catalyst.Assets
