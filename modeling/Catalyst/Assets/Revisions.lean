import Catalyst.Assets.Invariant

/-!
# What a batch adds to the revisions

A batch that is applied adds revisions under new ids and changes none that is
there. An upsert adds one; a delete adds one that holds no definition, or none.
-/

namespace Catalyst.Assets

open Library Library.Check

variable {J : Type}

def Db.revisions (db : Db J) : List (AssetKey × ConfigAssetRevision J) :=
  db.assets.flatMap fun asset => asset.revisions.map (asset.key, ·)

def RevisionOperation.TakesBack : RevisionOperation → Prop
  | .revert | .delete => True
  | _ => False

instance : DecidablePred RevisionOperation.TakesBack := fun operation => by
  cases operation <;> unfold RevisionOperation.TakesBack <;> infer_instance

def ConfigAssetMutation.changes : ConfigAssetMutation J → Option AssetKey
  | .upsert key _ false _ => some key
  | _ => none

structure Adds (db db' : Db J) (new : List (AssetKey × ConfigAssetRevision J)) : Prop where
  revisions : db'.revisions.Perm (db.revisions ++ new)
  nextId : db.nextId ≤ db'.nextId
  fresh : ∀ e ∈ new, db.nextId ≤ e.2.id ∧ e.2.id < db'.nextId

def changedKeys (new : List (AssetKey × ConfigAssetRevision J)) : List AssetKey :=
  (new.filter fun e => ¬ e.2.operation.TakesBack).map Prod.fst

variable {db db' db₁ : Db J} {asset a : ConfigAsset J} {new new' : List (AssetKey × ConfigAssetRevision J)}

theorem Adds.refl (db : Db J) : Adds db db [] := ⟨by simp, Nat.le_refl _, by simp⟩

theorem Adds.trans (h₁ : Adds db db₁ new) (h₂ : Adds db₁ db' new') : Adds db db' (new ++ new') where
  revisions := by
    refine h₂.revisions.trans ?_
    rw [← List.append_assoc]
    exact h₁.revisions.append_right new'
  nextId := h₁.nextId.trans h₂.nextId
  fresh e he := by
    rcases List.mem_append.mp he with he | he
    · exact ⟨(h₁.fresh e he).1, (h₁.fresh e he).2.trans_le h₂.nextId⟩
    · exact ⟨h₁.nextId.trans (h₂.fresh e he).1, (h₂.fresh e he).2⟩

theorem changedKeys_append : changedKeys (new ++ new') = changedKeys new ++ changedKeys new' := by
  simp [changedKeys]

theorem Db.RowsOk.adds_update (hd : db.RowsOk) (hm : asset ∈ db.assets) (hid : a.id = asset.id)
    (hkey : a.key = asset.key) (hrev : a.revisions = asset.revisions ++ [x]) (hx : x.id = db.nextId) :
    Adds db (db.update a) [(asset.key, x)] where
  revisions := by
    have hg : a.revisions.map (a.key, ·) = asset.revisions.map (asset.key, ·) ++ [(asset.key, x)] := by
      simp [hkey, hrev]
    simp only [Db.revisions, Db.update, hid]
    exact flatMap_updateWhere_perm (f := fun _ => a) hd.ids hm hg
  nextId := Nat.le_succ _
  fresh e he := by
    obtain rfl := List.mem_singleton.mp he
    exact ⟨Nat.le_of_eq hx.symm, hx ▸ Nat.lt_succ_self _⟩

theorem applyMutation_adds (hd : db.RowsOk) (h : applyMutation mode db m = .ok db') :
    ∃ new, Adds db db' new ∧ changedKeys new = m.changes.toList := by
  cases m with
  | setDefaultAgent agentName =>
    obtain rfl := Except.ok.inj h
    exact ⟨[], ⟨by simp [Db.revisions], Nat.le_refl _, by simp⟩, rfl⟩
  | delete key scope =>
    simp only [applyMutation] at h
    cases hf : db.find? key with
    | none =>
      rw [hf] at h
      obtain rfl := Except.ok.inj h
      exact ⟨[], .refl db, rfl⟩
    | some asset =>
      rw [hf] at h
      have hm := List.mem_of_find?_eq_some hf
      obtain ⟨-, -, h⟩ := bind_ok.mp h
      split at h
      · obtain rfl := pure_ok.mp h
        exact ⟨[], .refl db, rfl⟩
      · obtain ⟨a, ha, hp⟩ := bind_ok.mp h
        obtain rfl := pure_ok.mp hp
        obtain ⟨r, -, rfl⟩ := appended_iff.mp ha
        exact ⟨_, hd.adds_update hm rfl rfl rfl rfl, by simp [changedKeys, RevisionOperation.TakesBack,
          ConfigAssetMutation.changes]⟩
  | upsert key config revert scope =>
    simp only [applyMutation] at h
    cases hf : db.find? key with
    | none =>
      rw [hf] at h
      obtain rfl := Except.ok.inj h
      let first : AssetKey × ConfigAssetRevision J :=
        (key, ⟨db.nextId + 1, 1, if revert then .revert else .create, some config, db.version + 1⟩)
      have hperm : ([first] ++ db.revisions).Perm (db.revisions ++ [first]) := List.perm_append_comm
      refine ⟨[first], ⟨hperm, Nat.le_add_right _ 2, by simp [first, Db.insert]⟩, ?_⟩
      cases revert <;> simp [first, changedKeys, RevisionOperation.TakesBack, ConfigAssetMutation.changes]
    | some asset =>
      rw [hf] at h
      have hm := List.mem_of_find?_eq_some hf
      have hkey : asset.key = key := by simpa using List.find?_some hf
      obtain ⟨-, -, h⟩ := bind_ok.mp h
      obtain ⟨a, ha, hp⟩ := bind_ok.mp h
      obtain rfl := pure_ok.mp hp
      obtain ⟨x, hrev, hx, hop⟩ : ∃ x : ConfigAssetRevision J, a.revisions = asset.revisions ++ [x] ∧
          x.id = db.nextId ∧ (x.operation.TakesBack ↔ revert = true) := by
        obtain ⟨r, -, rfl⟩ := appended_iff.mp ha
        refine ⟨_, rfl, rfl, ?_⟩
        cases revert <;> by_cases hs : asset.status = .deleted <;> simp [hs, RevisionOperation.TakesBack]
      have hsame : a.id = asset.id ∧ a.key = asset.key := by
        obtain ⟨r, -, rfl⟩ := appended_iff.mp ha
        exact ⟨rfl, rfl⟩
      refine ⟨[(asset.key, x)], ?_, ?_⟩
      · split
        · exact hd.adds_update hm hsame.1 hsame.2 hrev hx
        · exact hd.adds_update hm hsame.1 hsame.2 hrev hx
      · cases revert <;> simp [changedKeys, ConfigAssetMutation.changes, hop, hkey]

theorem applyMutations_adds (hd : db.RowsOk) (h : applyMutations mode db ms = .ok db') :
    ∃ new, Adds db db' new ∧ changedKeys new = ms.filterMap ConfigAssetMutation.changes := by
  induction ms generalizing db with
  | nil =>
    obtain rfl := Except.ok.inj h
    exact ⟨[], .refl db, rfl⟩
  | cons m ms ih =>
    obtain ⟨db₁, h₁, h₂⟩ := bind_ok.mp h
    obtain ⟨new, hnew, hkeys⟩ := applyMutation_adds hd h₁
    obtain ⟨new', hnew', hkeys'⟩ := ih (applyMutation_rows hd h₁) h₂
    refine ⟨new ++ new', hnew.trans hnew', ?_⟩
    rw [changedKeys_append, hkeys, hkeys', List.filterMap_cons]
    cases m.changes <;> rfl

theorem applyConfigAssetMutations_adds (hd : db.RowsOk) (h : applyConfigAssetMutations input db = .ok db') :
    ∃ new, Adds db db' new ∧ changedKeys new = input.mutations.filterMap ConfigAssetMutation.changes := by
  obtain ⟨-, -, h⟩ := bind_ok.mp h
  obtain ⟨db₁, h₁, h⟩ := bind_ok.mp h
  obtain ⟨_, -, h⟩ := bind_ok.mp h
  obtain rfl := pure_ok.mp h
  obtain ⟨new, hnew, hkeys⟩ := applyMutations_adds hd h₁
  exact ⟨new, ⟨hnew.revisions, hnew.nextId, hnew.fresh⟩, hkeys⟩

theorem setAgentAvailability_revisions (h : setAgentAvailability agentName availability db = .ok (stored, db')) :
    db'.revisions = db.revisions ∧ db'.nextId = db.nextId := by
  obtain ⟨agent, -, h⟩ := bind_ok.mp h
  obtain ⟨_, -, h⟩ := bind_ok.mp h
  obtain ⟨-, rfl⟩ := Prod.mk.inj (pure_ok.mp h)
  refine ⟨?_, rfl⟩
  simp only [Db.revisions, updateWhere, List.flatMap_map]
  refine List.flatMap_congr fun asset _ => ?_
  split <;> rfl

end Catalyst.Assets
