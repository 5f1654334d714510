import Mathlib
import Catalyst.Assets.Owned
import Catalyst.Assets.Sync

/-!
# What a sync call answers, and what it stored

A row's revisions are numbered from 1 and only appended to, so its number of revisions is the
revision it is at. A batch appends one revision to the row of each of its items. The answer adds
one to the revision that was read, so it is right exactly where the row was not written since;
for an item with an expected revision the store checks that, for one without it does not.
-/

namespace Catalyst.Assets

open Library Library.Check Library.Processes

-- -----------------
-- Rows are appended to
-- -----------------

section

variable {J : Type} {db db' : Db J} {s : Instance J}

def Db.revisionOf (db : Db J) (key : AssetKey) : Nat :=
  ((db.find? key).map fun row => row.revisions.length).getD 0

structure Appended (version : Nat) (isPut : Bool) (scope : AssetScope) (old : Option (ConfigAsset J))
    (row : ConfigAsset J) : Prop where
  scope : row.scope = scope
  revisions : ∃ r, row.revisions = ((old.map (·.revisions)).getD []) ++ [r] ∧ r.globalVersion = version
  status : row.status = .active ↔ isPut = true

def ConfigAssetMutation.isUpsert : ConfigAssetMutation J → Bool
  | .upsert _ _ _ _ => true
  | _ => false

def RowWritten (version : Nat) (m : ConfigAssetMutation J) (db db' : Db J) (key : AssetKey)
    (scope : AssetScope) : Prop :=
  (m.isUpsert = false ∧ db'.find? key = db.find? key ∧
    ∀ row ∈ db.find? key, row.status = .deleted) ∨
  ∃ row ∈ db'.find? key, Appended version m.isUpsert scope (db.find? key) row

theorem appendAndActivateRevision_appended {asset a : ConfigAsset J} {status : AssetStatus}
    (ha : appendAndActivateRevision db asset operation config status = .ok a)
    (isPut : Bool) (hs : status = .active ↔ isPut = true) (v : Option AgentAvailability) :
    Appended (db.version + 1) isPut asset.scope (some asset) { a with availability := v } ∧
      a.id = asset.id ∧ a.key = asset.key ∧ a.scope = asset.scope := by
  obtain ⟨r, -, rfl⟩ := appended_iff.mp ha
  exact ⟨⟨rfl, ⟨_, rfl, rfl⟩, hs⟩, rfl, rfl, rfl⟩

theorem applyMutation_appends {m : ConfigAssetMutation J} (hd : db.RowsOk)
    (h : applyMutation mode db m = .ok db') :
    db'.version = db.version ∧
      (∀ key, (∀ scope, m.target ≠ some (key, scope)) → db'.find? key = db.find? key) ∧
      (∀ key scope, m.target = some (key, scope) → RowWritten (db.version + 1) m db db' key scope) ∧
      ∀ key, ∀ row ∈ db.find? key, ∃ row' ∈ db'.find? key, row'.scope = row.scope := by
  cases m with
  | setDefaultAgent agentName =>
    obtain rfl := Except.ok.inj h
    refine ⟨rfl, fun _ _ => rfl, fun _ _ ht => ?_, fun _ row hrow => ⟨row, hrow, rfl⟩⟩
    cases ht
  | delete key scope =>
    simp only [applyMutation] at h
    cases hf : db.find? key with
    | none =>
      rw [hf] at h
      obtain rfl := Except.ok.inj h
      refine ⟨rfl, fun _ _ => rfl, fun k s ht => .inl ⟨rfl, rfl, fun row hrow => ?_⟩,
        fun _ row hrow => ⟨row, hrow, rfl⟩⟩
      obtain ⟨rfl, -⟩ := Prod.mk.inj (Option.some.inj ht)
      rw [hf] at hrow
      cases hrow
    | some asset =>
      rw [hf] at h
      obtain ⟨hmem, rfl⟩ := (find?_key_eq_some hd.keys).mp hf
      obtain ⟨_, hscope, h⟩ := bind_ok.mp h
      have hscope : scope.getD .ofInstance = asset.scope := require_ok.mp hscope
      split at h
      · rename_i hs
        obtain rfl := pure_ok.mp h
        refine ⟨rfl, fun _ _ => rfl, fun k s ht => .inl ⟨rfl, rfl, fun row hrow => ?_⟩,
          fun _ row hrow => ⟨row, hrow, rfl⟩⟩
        obtain ⟨rfl, -⟩ := Prod.mk.inj (Option.some.inj ht)
        obtain rfl := Option.some.inj (hf.symm.trans hrow)
        exact hs
      · obtain ⟨a, ha, hp⟩ := bind_ok.mp h
        obtain rfl := pure_ok.mp hp
        obtain ⟨happ, hid, hkey, hsame⟩ :=
          appendAndActivateRevision_appended ha false (by simp) none
        have hfind := Db.find?_update (a := { a with availability := none }) hd.ids hd.keys hmem hid hkey
        refine ⟨rfl, fun k hk => ?_, fun k s ht => .inr ?_, fun k row hrow => ?_⟩
        · rw [hfind, if_neg]
          rintro rfl
          exact hk _ rfl
        · obtain ⟨rfl, rfl⟩ := Prod.mk.inj (Option.some.inj ht)
          exact ⟨_, (hfind _).trans (if_pos rfl), by rw [hf, hscope]; exact happ⟩
        · rw [hfind]
          split
          next hk =>
            subst hk
            obtain rfl := Option.some.inj (hf.symm.trans hrow)
            exact ⟨_, rfl, hsame⟩
          next => exact ⟨row, hrow, rfl⟩
  | upsert key config revert scope =>
    simp only [applyMutation] at h
    cases hf : db.find? key with
    | none =>
      rw [hf] at h
      obtain rfl := Except.ok.inj h
      have hother (k : AssetKey) (hk : k ≠ key) : (db.insert key (scope.getD .ofInstance)
          (if revert then .revert else .create) config mode).find? k = db.find? k := by
        have hne : ¬ key = k := fun he => hk he.symm
        simp [Db.find?, Db.insert, hne]
      refine ⟨rfl, fun k hk => hother k ?_, fun k s ht => .inr ?_, fun k row hrow => ?_⟩
      · rintro rfl
        exact hk _ rfl
      · obtain ⟨rfl, rfl⟩ := Prod.mk.inj (Option.some.inj ht)
        have hself : (db.insert key (scope.getD .ofInstance)
            (if revert then .revert else .create) config mode).find? key =
            (db.insert key (scope.getD .ofInstance)
              (if revert then .revert else .create) config mode).assets.head? := by
          simp [Db.find?, Db.insert]
        exact ⟨_, hself, ⟨rfl, ⟨_, by rw [hf]; rfl, rfl⟩, by simp [ConfigAssetMutation.isUpsert]⟩⟩
      · refine ⟨row, ?_, rfl⟩
        rw [hother k]
        · exact hrow
        · rintro rfl
          rw [hf] at hrow
          cases hrow
    | some asset =>
      rw [hf] at h
      obtain ⟨hmem, rfl⟩ := (find?_key_eq_some hd.keys).mp hf
      obtain ⟨_, hscope, h⟩ := bind_ok.mp h
      have hscope : scope.getD .ofInstance = asset.scope := require_ok.mp hscope
      obtain ⟨a, ha, hp⟩ := bind_ok.mp h
      obtain rfl := pure_ok.mp hp
      -- whether the availability starts anew is no matter here
      have hwritten (row : ConfigAsset J) (v : Option AgentAvailability)
          (hrow : row = { a with availability := v }) :
          (db.update row).version = db.version ∧
          (∀ k, (∀ s, (ConfigAssetMutation.upsert asset.key config revert scope).target ≠ some (k, s)) →
            (db.update row).find? k = db.find? k) ∧
          (∀ k s, (ConfigAssetMutation.upsert asset.key config revert scope).target = some (k, s) →
            RowWritten (db.version + 1) (.upsert asset.key config revert scope) db (db.update row) k s) ∧
          ∀ k, ∀ r ∈ db.find? k, ∃ r' ∈ (db.update row).find? k, r'.scope = r.scope := by
        obtain ⟨happ, hid, hkey, hsame⟩ :=
          appendAndActivateRevision_appended ha true (by simp) v
        subst hrow
        have hfind := Db.find?_update (a := { a with availability := v }) hd.ids hd.keys hmem hid hkey
        refine ⟨rfl, fun k hk => ?_, fun k s ht => .inr ?_, fun k r hr => ?_⟩
        · rw [hfind, if_neg]
          rintro rfl
          exact hk _ rfl
        · obtain ⟨rfl, rfl⟩ := Prod.mk.inj (Option.some.inj ht)
          exact ⟨_, (hfind _).trans (if_pos rfl), by rw [hf, hscope]; exact happ⟩
        · rw [hfind]
          split
          next hk =>
            subst hk
            obtain rfl := Option.some.inj (hf.symm.trans hr)
            exact ⟨_, rfl, hsame⟩
          next => exact ⟨r, hr, rfl⟩
      split
      · exact hwritten _ _ rfl
      · exact hwritten _ a.availability rfl

/-- Each key of a batch that names it once is written from the row the batch found. -/
theorem applyMutations_appends {ms : List (ConfigAssetMutation J)} (hd : db.RowsOk)
    (hkeys : ((ms.filterMap ConfigAssetMutation.target).map Prod.fst).Nodup)
    (h : applyMutations mode db ms = .ok db') :
    db'.version = db.version ∧
      (∀ key, key ∉ (ms.filterMap ConfigAssetMutation.target).map Prod.fst →
        db'.find? key = db.find? key) ∧
      ∀ m ∈ ms, ∀ key scope, m.target = some (key, scope) →
        RowWritten (db.version + 1) m db db' key scope := by
  induction ms generalizing db with
  | nil =>
    obtain rfl := Except.ok.inj h
    exact ⟨rfl, fun _ _ => rfl, by simp⟩
  | cons m ms ih =>
    obtain ⟨db₁, h₁, h₂⟩ := bind_ok.mp h
    obtain ⟨hv₁, hframe₁, hwritten₁, -⟩ := applyMutation_appends hd h₁
    cases ht : m.target with
    | none =>
      rw [List.filterMap_cons_none ht] at hkeys ⊢
      obtain ⟨hv, hframe, hwritten⟩ := ih (applyMutation_rows hd h₁) hkeys h₂
      have hsame (k : AssetKey) : db₁.find? k = db.find? k :=
        hframe₁ k fun scope he => by rw [ht] at he; cases he
      refine ⟨hv.trans hv₁, fun k hk => (hframe k hk).trans (hsame k), ?_⟩
      intro m' hm' key scope htarget
      rcases List.mem_cons.mp hm' with rfl | hm'
      · rw [ht] at htarget
        cases htarget
      · have hrow := hwritten m' hm' key scope htarget
        simpa only [RowWritten, hv₁, hsame] using hrow
    | some e =>
      rw [List.filterMap_cons_some ht, List.map_cons, List.nodup_cons] at hkeys
      obtain ⟨hfirst, hkeys⟩ := hkeys
      rw [List.filterMap_cons_some ht, List.map_cons]
      obtain ⟨hv, hframe, hwritten⟩ := ih (applyMutation_rows hd h₁) hkeys h₂
      have hsame (k : AssetKey) (hk : k ≠ e.1) : db₁.find? k = db.find? k :=
        hframe₁ k fun scope he => hk (by rw [ht] at he; exact (Prod.mk.inj (Option.some.inj he)).1.symm)
      refine ⟨hv.trans hv₁, fun k hk => ?_, ?_⟩
      · obtain ⟨hk, hrest⟩ := List.ne_and_not_mem_of_not_mem_cons hk
        exact (hframe k hrest).trans (hsame k hk)
      · intro m' hm' key scope htarget
        rcases List.mem_cons.mp hm' with rfl | hm'
        · obtain rfl := Option.some.inj (ht.symm.trans htarget)
          simpa only [RowWritten, hframe _ hfirst] using hwritten₁ _ _ ht
        · have hne : key ≠ e.1 := by
            rintro rfl
            exact hfirst (List.mem_map.mpr ⟨_, List.mem_filterMap.mpr ⟨m', hm', htarget⟩, rfl⟩)
          have hrow := hwritten m' hm' key scope htarget
          simpa only [RowWritten, hv₁, hsame key hne] using hrow

def Db.Continues (db db' : Db J) : Prop :=
  ∀ key, ∀ row ∈ db.find? key, row.scope = .ofInstance →
    ∃ row' ∈ db'.find? key, row'.scope = .ofInstance ∧ row.revisions <+: row'.revisions ∧
      (row'.revisions = row.revisions → row'.status = row.status)

theorem Db.Continues.refl (db : Db J) : db.Continues db :=
  fun _ row hrow hs => ⟨row, hrow, hs, List.prefix_rfl, fun _ => rfl⟩

theorem Db.Continues.trans {db₁ : Db J} (h₁ : db.Continues db₁) (h₂ : db₁.Continues db') :
    db.Continues db' := by
  intro key row hrow hs
  obtain ⟨row₁, hrow₁, hs₁, hp₁, he₁⟩ := h₁ key row hrow hs
  obtain ⟨row₂, hrow₂, hs₂, hp₂, he₂⟩ := h₂ key row₁ hrow₁ hs₁
  refine ⟨row₂, hrow₂, hs₂, hp₁.trans hp₂, fun he => ?_⟩
  have hsame : row₁.revisions = row.revisions :=
    (hp₁.eq_of_length_le (he ▸ hp₂.length_le)).symm
  exact (he₂ (he.trans hsame.symm)).trans (he₁ hsame)

theorem applyMutation_continues {m : ConfigAssetMutation J} (hd : db.RowsOk)
    (h : applyMutation mode db m = .ok db') : db.Continues db' := by
  obtain ⟨-, hframe, hwritten, hscope⟩ := applyMutation_appends hd h
  intro key row hrow hs
  by_cases ht : ∃ scope, m.target = some (key, scope)
  · obtain ⟨scope, ht⟩ := ht
    obtain ⟨row', hrow', hs'⟩ := hscope key row hrow
    refine ⟨row', hrow', hs'.trans hs, ?_⟩
    rcases hwritten key scope ht with ⟨-, hsame, -⟩ | ⟨row'', hrow'', happ⟩
    · obtain rfl := Option.some.inj (hrow.symm.trans (hsame.symm.trans hrow'))
      exact ⟨List.prefix_rfl, fun _ => rfl⟩
    · obtain rfl := Option.some.inj (hrow'.symm.trans hrow'')
      obtain ⟨r, hr, -⟩ := happ.revisions
      rw [Option.mem_def.mp hrow] at hr
      rw [hr]
      exact ⟨List.prefix_append _ _, fun he => absurd he (by simp)⟩
  · refine ⟨row, ?_, hs, List.prefix_rfl, fun _ => rfl⟩
    rw [hframe key fun scope he => ht ⟨scope, he⟩]
    exact hrow

theorem applyMutations_continues {ms : List (ConfigAssetMutation J)} (hd : db.RowsOk)
    (h : applyMutations mode db ms = .ok db') : db.Continues db' := by
  induction ms generalizing db with
  | nil =>
    obtain rfl := Except.ok.inj h
    exact .refl db
  | cons m ms ih =>
    obtain ⟨db₁, h₁, h₂⟩ := bind_ok.mp h
    exact (applyMutation_continues hd h₁).trans (ih (applyMutation_rows hd h₁) h₂)

theorem continues_of_sameSet (hd : db.RowsOk) (hd' : db'.RowsOk) (h : db.SameSet db') :
    db.Continues db' := by
  intro key row hrow hs
  obtain ⟨hmem, rfl⟩ := (find?_key_eq_some hd.keys).mp hrow
  have hin : row.withoutAvailability ∈ db'.assets.map ConfigAsset.withoutAvailability :=
    h.2 ▸ List.mem_map_of_mem hmem
  obtain ⟨row', hmem', he⟩ := List.mem_map.mp hin
  have hkey : row'.key = row.key := (congrArg ConfigAsset.key he :)
  have hscope : row'.scope = row.scope := (congrArg ConfigAsset.scope he :)
  have hrev : row'.revisions = row.revisions := (congrArg ConfigAsset.revisions he :)
  have hstatus : row'.status = row.status := (congrArg ConfigAsset.status he :)
  exact ⟨row', (find?_key_eq_some hd'.keys).mpr ⟨hmem', hkey⟩, hscope.trans hs,
    hrev ▸ List.prefix_rfl, fun _ => hstatus⟩

theorem transact_continues (hs : s.Ok) (call : AssetCall J) :
    s.toDb.Continues (call.transact s).2.toDb := by
  have hok := (transact_ok hs call).1
  cases hr : call.run s with
  | error e =>
    simp only [AssetCall.transact, hr]
    exact .refl _
  | ok answered =>
    obtain ⟨answer, t⟩ := answered
    simp only [AssetCall.transact, hr] at hok ⊢
    cases call with
    | applyConfigAssetMutations input =>
      obtain ⟨db, hdb, h⟩ := bind_ok.mp hr
      obtain ⟨rfl, rfl⟩ := Prod.mk.inj (pure_ok.mp h)
      obtain ⟨-, -, hdb⟩ := bind_ok.mp hdb
      obtain ⟨db₁, h₁, hdb⟩ := bind_ok.mp hdb
      obtain ⟨-, -, hdb⟩ := bind_ok.mp hdb
      obtain rfl := pure_ok.mp hdb
      have hcont := applyMutations_continues hs.toRowsOk h₁
      exact fun key row hrow hscope => hcont key row hrow hscope
    | setAgentAvailability agentName availability =>
      obtain ⟨⟨stored, db⟩, hdb, h⟩ := bind_ok.mp hr
      obtain ⟨rfl, rfl⟩ := Prod.mk.inj (pure_ok.mp h)
      obtain ⟨hrows, -, hset⟩ := setAgentAvailability_ok hs.toRowsOk hs.default hdb
      exact continues_of_sameSet hs.toRowsOk hrows hset.same
    | deleteWorkspaceOwnedAssets workspaceId =>
      obtain ⟨rfl, rfl⟩ := Prod.mk.inj (Except.ok.inj hr)
      intro key row hrow hscope
      obtain ⟨hmem, rfl⟩ := (find?_key_eq_some hs.keys).mp hrow
      refine ⟨row, (find?_key_eq_some hok.keys).mpr ⟨mem_deleteWorkspaceOwnedAssets.mpr
        ⟨hmem, fun howned => ?_⟩, rfl⟩, hscope, List.prefix_rfl, fun _ => rfl⟩
      rw [ConfigAsset.OwnedBy, hscope] at howned
      cases howned

theorem baseMatches_iff {row row' : ConfigAsset J} (hd' : db'.RowsOk) (hrow' : row' ∈ db'.find? key)
    (hp : row.revisions <+: row'.revisions) :
    baseMatches (db'.find? key) (some row.revisions.length) = true ↔
      row'.revisions = row.revisions := by
  obtain ⟨hmem', -⟩ := (find?_key_eq_some hd'.keys).mp hrow'
  have hok := hd'.assets row' hmem'
  obtain ⟨r, hr⟩ : ∃ r, row'.activeRevision? = some r := by
    rw [hok.active]
    exact Option.ne_none_iff_exists'.mp (by simpa [List.getLast?_eq_none_iff] using hok.nonempty)
  rw [Option.mem_def.mp hrow', baseMatches, Option.bind_some, hr]
  simp only [Option.any_some, decide_eq_true_eq, hok.current hr]
  constructor
  · exact fun he => (hp.eq_of_length_le he.le).symm
  · exact fun he => congrArg List.length he

theorem staleBases_ok {input : MutationInput J} {bases : OrderedMap AssetKey (Option Nat)}
    {checked : List AssetKey} {ms : List (ConfigAssetMutation J)}
    (h : staleBases input bases db checked ms = .ok false) :
    ∀ m ∈ ms, ∀ key scope, m.target = some (key, scope) → key ∉ checked →
      ∃ base, OrderedMap.get? bases key = some base ∧ baseMatches (db.find? key) base = true := by
  have hasset (k : AssetKey) (m₀ : ConfigAssetMutation J) (scope₀ : AssetScope)
      (ht₀ : m₀.target = some (k, scope₀)) (ms : List (ConfigAssetMutation J)) (checked : List AssetKey)
      (ih : ∀ checked', staleBases input bases db checked' ms = .ok false →
        ∀ m ∈ ms, ∀ key scope, m.target = some (key, scope) → key ∉ checked' →
          ∃ base, OrderedMap.get? bases key = some base ∧ baseMatches (db.find? key) base = true)
      (h : (if k ∈ checked then staleBases input bases db checked ms
        else do
          let base ← Check.need (OrderedMap.get? bases k)
            ⟨.validationFailed, s!"Missing base revision for '{k.1.text}:{k.2}'"⟩
          let stale ← staleBases input bases db (k :: checked) ms
          return !baseMatches (db.find? k) base || stale) = .ok false) :
      ∀ m ∈ m₀ :: ms, ∀ key scope, m.target = some (key, scope) → key ∉ checked →
        ∃ base, OrderedMap.get? bases key = some base ∧ baseMatches (db.find? key) base = true := by
    intro m hm key scope ht hkey
    split at h
    next hk =>
      rcases List.mem_cons.mp hm with rfl | hm
      · obtain ⟨rfl, -⟩ := Prod.mk.inj (Option.some.inj (ht₀.symm.trans ht))
        exact absurd hk hkey
      · exact ih checked h m hm key scope ht hkey
    next =>
      obtain ⟨base, hbase, h⟩ := bind_ok.mp h
      obtain ⟨stale, hstale, h⟩ := bind_ok.mp h
      have h := pure_ok.mp h
      rw [Bool.or_eq_false_iff, Bool.not_eq_false'] at h
      obtain ⟨hmatches, rfl⟩ := h
      by_cases hk : key = k
      · subst hk
        exact ⟨base, need_ok.mp hbase, hmatches⟩
      · rcases List.mem_cons.mp hm with rfl | hm
        · obtain ⟨rfl, -⟩ := Prod.mk.inj (Option.some.inj (ht₀.symm.trans ht))
          exact absurd rfl hk
        · exact ih (k :: checked) hstale m hm key scope ht (by simp [hk, hkey])
  induction ms generalizing checked with
  | nil => simp
  | cons m₀ ms ih =>
    cases m₀ with
    | setDefaultAgent agentName =>
      obtain ⟨base, -, h⟩ := bind_ok.mp h
      obtain ⟨stale, hstale, h⟩ := bind_ok.mp h
      have h := pure_ok.mp h
      rw [Bool.or_eq_false_iff] at h
      obtain ⟨-, rfl⟩ := h
      intro m hm key scope ht hkey
      rcases List.mem_cons.mp hm with rfl | hm
      · cases ht
      · exact ih hstale m hm key scope ht hkey
    | upsert key config revert scope =>
      exact hasset key _ _ rfl ms checked (fun _ h => ih h) h
    | delete key scope => exact hasset key _ _ rfl ms checked (fun _ h => ih h) h

theorem applyConfigAssetMutations_bases {input : MutationInput J}
    {bases : OrderedMap AssetKey (Option Nat)} (hb : input.baseRevisions = some bases)
    (h : applyConfigAssetMutations input db = .ok db') {m : ConfigAssetMutation J}
    (hm : m ∈ input.mutations) (ht : m.target = some (key, scope)) :
    ∃ base, OrderedMap.get? bases key = some base ∧ baseMatches (db.find? key) base = true := by
  obtain ⟨_, hbases, -⟩ := bind_ok.mp h
  simp only [assertConfigAssetBases, hb] at hbases
  obtain ⟨stale, hstale, hfresh⟩ := bind_ok.mp hbases
  have hstale : staleBases input bases db [] input.mutations = .ok false :=
    hstale.trans (congrArg _ (require_ok.mp hfresh))
  exact staleBases_ok hstale m hm key scope ht List.not_mem_nil

theorem applyConfigAssetMutations_appends {input : MutationInput J} (hd : db.RowsOk)
    (hkeys : ((input.mutations.filterMap ConfigAssetMutation.target).map Prod.fst).Nodup)
    (h : applyConfigAssetMutations input db = .ok db') :
    ∀ m ∈ input.mutations, ∀ key scope, m.target = some (key, scope) →
      RowWritten db'.version m db db' key scope := by
  obtain ⟨-, -, h⟩ := bind_ok.mp h
  obtain ⟨db₁, h₁, h⟩ := bind_ok.mp h
  obtain ⟨-, -, h⟩ := bind_ok.mp h
  obtain rfl := pure_ok.mp h
  exact (applyMutations_appends hd hkeys h₁).2.2

end

-- -----------------
-- Planned items
-- -----------------

section

variable {J : Type} {readName : J → Option String} {entry : PlannedItem J} {ready : ReadyItem J}
variable {planned done todo : List (PlannedItem J)}

theorem ready?_eq_some : entry.ready? = some ready ↔
    entry.kind = some ready.key.1 ∧ entry.name = some ready.key.2 ∧ entry.refusal = none ∧
      entry.index = ready.index ∧ entry.item = ready.item ∧ entry.asset = ready.asset := by
  obtain ⟨index, item, key, asset⟩ := ready
  simp only [PlannedItem.ready?]
  cases entry.kind with
  | none => simp
  | some k =>
    cases entry.name with
    | none => simp
    | some n =>
      cases entry.refusal with
      | some r => simp
      | none =>
        simp only [Option.some.injEq, ReadyItem.mk.injEq, Prod.ext_iff]
        constructor
        · rintro ⟨rfl, rfl, ⟨rfl, rfl⟩, rfl⟩
          exact ⟨rfl, rfl, trivial, rfl, rfl, rfl⟩
        · rintro ⟨rfl, rfl, -, rfl, rfl, rfl⟩
          exact ⟨rfl, rfl, ⟨rfl, rfl⟩, rfl⟩

theorem mem_readyOf : ready ∈ readyOf planned ↔ ∃ entry ∈ planned, entry.ready? = some ready :=
  List.mem_filterMap

theorem stopIfRefused_ok {issues : List AssetSetIssue} (h : stopIfRefused planned issues = .ok u) :
    ∀ entry ∈ planned, entry.refusal = none := by
  unfold stopIfRefused at h
  split at h
  next hc =>
    intro entry hentry
    exact Option.isNone_iff_eq_none.mp (List.all_eq_true.mp hc.1 entry hentry)
  next => cases h

theorem refuseBy_ok {rule : ReadyItem J → Option ItemRefusal}
    (h : stopIfRefused (refuseBy rule planned) [] = .ok u) :
    ∀ ready ∈ readyOf planned, rule ready = none := by
  intro ready hr
  obtain ⟨entry, hentry, hready⟩ := mem_readyOf.mp hr
  have hrefused := stopIfRefused_ok h
  have hmem : ({ entry with refusal := rule ready } : PlannedItem J) ∈ refuseBy rule planned := by
    refine List.mem_map.mpr ⟨entry, hentry, ?_⟩
    rw [hready]
  exact hrefused _ hmem

/-- The items as they came in, each planned under its name and kind, and the ready ones of
different keys. -/
structure Planned (readName : J → Option String) (items : List (AssetSyncItem J))
    (planned : List (PlannedItem J)) : Prop where
  items : planned.map (·.item) = items
  names : ∀ entry ∈ planned, entry.name = entry.item.name? readName ∧
    entry.kind = AssetKindId.ofText? entry.item.kindText
  ready : ∀ entry ∈ planned, entry.refusal = none → ∃ r, entry.ready? = some r
  keys : ((readyOf planned).map (·.key)).Nodup

theorem itemKey_ok {ns : String} {seen : List AssetKey} {item : AssetSyncItem J} {key : AssetKey}
    (h : itemKey readName ns seen item = .ok key) :
    AssetKindId.ofText? item.kindText = some key.1 ∧ item.name? readName = some key.2 ∧
      key ∉ seen := by
  unfold itemKey at h
  split at h
  · cases h
  · cases h
  · rename_i hk hn
    split at h
    · cases h
    · split at h
      · cases h
      · obtain rfl := Except.ok.inj h
        exact ⟨hk, hn, ‹_›⟩

theorem planItems_ok (readName : J → Option String) (ns : String) (seen : List AssetKey) (index : Nat)
    (items : List (AssetSyncItem J)) :
    Planned readName items (planItems readName ns seen index items) ∧
      ∀ r ∈ readyOf (planItems readName ns seen index items), r.asset = none ∧ r.key ∉ seen := by
  induction items generalizing seen index with
  | nil => exact ⟨⟨rfl, by simp [planItems], by simp [planItems], List.nodup_nil⟩, by simp [planItems, readyOf]⟩
  | cons item items ih =>
    rw [planItems]
    cases hkey : itemKey readName ns seen item with
    | error message =>
      obtain ⟨hp, hrest⟩ := ih seen (index + 1)
      have hnone : (planItem readName index item
          (some ⟨.validationFailed, message, none, none⟩)).ready? = none := by
        cases hr : (planItem readName index item
            (some ⟨.validationFailed, message, none, none⟩)).ready? with
        | none => rfl
        | some r => cases (ready?_eq_some.mp hr).2.2.1
      have hready : readyOf (planItem readName index item
          (some ⟨.validationFailed, message, none, none⟩) ::
            planItems readName ns seen (index + 1) items) =
          readyOf (planItems readName ns seen (index + 1) items) := List.filterMap_cons_none hnone
      refine ⟨⟨congrArg (item :: ·) hp.items, ?_, ?_, ?_⟩, ?_⟩
      · exact List.forall_mem_cons.mpr ⟨⟨rfl, rfl⟩, hp.names⟩
      · exact List.forall_mem_cons.mpr ⟨fun hn => (by cases hn), hp.ready⟩
      · exact hready.symm ▸ hp.keys
      · exact hready.symm ▸ hrest
    | ok key =>
      obtain ⟨hkind, hname, hseen⟩ := itemKey_ok hkey
      obtain ⟨hp, hrest⟩ := ih (key :: seen) (index + 1)
      have hitem : (planItem readName index item none).ready? = some ⟨index, item, key, none⟩ :=
        ready?_eq_some.mpr ⟨hkind, hname, rfl, rfl, rfl, rfl⟩
      have hready : readyOf (planItem readName index item none ::
          planItems readName ns (key :: seen) (index + 1) items) =
          ⟨index, item, key, none⟩ :: readyOf (planItems readName ns (key :: seen) (index + 1) items) :=
        List.filterMap_cons_some hitem
      refine ⟨⟨congrArg (item :: ·) hp.items, ?_, ?_, ?_⟩, ?_⟩
      · exact List.forall_mem_cons.mpr ⟨⟨rfl, rfl⟩, hp.names⟩
      · exact List.forall_mem_cons.mpr ⟨fun _ => ⟨_, hitem⟩, hp.ready⟩
      · simp only [hready, List.map_cons]
        refine List.nodup_cons.mpr ⟨fun hmem => ?_, hp.keys⟩
        obtain ⟨r, hr, hk⟩ := List.mem_map.mp hmem
        exact (hrest r hr).2 (hk ▸ List.mem_cons_self)
      · simp only [hready]
        refine List.forall_mem_cons.mpr ⟨⟨rfl, hseen⟩, fun r hr => ?_⟩
        exact ⟨(hrest r hr).1, fun hin => (hrest r hr).2 (List.mem_cons_of_mem _ hin)⟩

theorem authorizeItem_same (rules : SyncRules J) (row : Option ReadRow) (entry : PlannedItem J) :
    (authorizeItem rules row entry).item = entry.item ∧
      (authorizeItem rules row entry).name = entry.name ∧
      (authorizeItem rules row entry).kind = entry.kind := by
  unfold authorizeItem
  split
  · exact ⟨rfl, rfl, rfl⟩
  · simp only
    split
    · exact ⟨rfl, rfl, rfl⟩
    · split <;> exact ⟨rfl, rfl, rfl⟩

theorem authorizeItem_ready {rules : SyncRules J} {row : Option ReadRow}
    (h : (authorizeItem rules row entry).ready? = some ready) :
    ∃ r₀, entry.ready? = some r₀ ∧ ready.key = r₀.key ∧
      ready.asset = row.filter (·.scope = .ofInstance) := by
  cases hr : entry.ready? with
  | none =>
    rw [authorizeItem, hr] at h
    rw [hr] at h
    cases h
  | some r₀ =>
    refine ⟨r₀, rfl, ?_⟩
    obtain ⟨hkind, hname, hnone, -, -, -⟩ := ready?_eq_some.mp hr
    have hself := authorizeItem_same rules row entry
    obtain ⟨hkind', hname', hnone', -, -, hasset⟩ := ready?_eq_some.mp h
    refine ⟨?_, ?_⟩
    · rw [hself.2.2, hkind] at hkind'
      rw [hself.2.1, hname] at hname'
      exact Prod.ext (Option.some.inj hkind').symm (Option.some.inj hname').symm
    · rw [← hasset]
      rw [authorizeItem, hr] at hnone' ⊢
      simp only at hnone' ⊢
      split at hnone'
      · cases hnone'
      · split at hnone'
        · cases hnone'
        · rename_i hc
          simp only [if_neg hc]

theorem authorizeItem_refused {rules : SyncRules J} {row : Option ReadRow}
    (h : (authorizeItem rules row entry).refusal = none) : entry.refusal = none := by
  cases hr : entry.ready? with
  | none =>
    rw [authorizeItem, hr] at h
    exact h
  | some r₀ => exact (ready?_eq_some.mp hr).2.2.1

def ReadyItem.ReadFrom (db : Db J) (entry : ReadyItem J) : Prop :=
  ∀ read ∈ entry.asset, ∃ row ∈ db.find? entry.key, row.scope = .ofInstance ∧
    read.revision ≤ row.revisions.length ∧
    (row.revisions.length = read.revision → row.status = read.status)

theorem ReadyItem.ReadFrom.continues {db db' : Db J} {entry : ReadyItem J}
    (h : entry.ReadFrom db) (hc : db.Continues db') : entry.ReadFrom db' := by
  intro read hread
  obtain ⟨row, hrow, hs, hle, hstatus⟩ := h read hread
  obtain ⟨row', hrow', hs', hp, he⟩ := hc _ row hrow hs
  refine ⟨row', hrow', hs', hle.trans hp.length_le, fun hlen => ?_⟩
  have hsame : row'.revisions = row.revisions :=
    (hp.eq_of_length_le (hlen.le.trans hle)).symm
  exact (he hsame).trans (hstatus (hsame ▸ hlen))

theorem ReadyItem.readFrom_of_read {db : Db J} {entry : ReadyItem J} (hd : db.RowsOk)
    (h : entry.asset = (getConfigAsset db entry.key).filter (·.scope = .ofInstance)) :
    entry.ReadFrom db := by
  intro read hread
  rw [h] at hread
  obtain ⟨hread, hscope⟩ := Option.filter_eq_some_iff.mp hread
  obtain ⟨row, hrow, hr⟩ := Option.bind_eq_some_iff.mp hread
  obtain ⟨active, hactive, rfl⟩ := Option.map_eq_some_iff.mp hr
  obtain ⟨hmem, -⟩ := (find?_key_eq_some hd.keys).mp hrow
  have hnumber := (hd.assets row hmem).current hactive
  exact ⟨row, hrow, by simpa using hscope, hnumber.le, fun _ => rfl⟩

def ReadyItem.Expected (entry : ReadyItem J) : Prop := entry.current = entry.item.expectedRevision

theorem revisionRefusal_none {rules : SyncRules J} {entry : ReadyItem J}
    (h : revisionRefusal rules entry = none) : entry.Expected := by
  simp only [revisionRefusal, Option.or_eq_none_iff] at h
  unfold ReadyItem.Expected
  by_contra hne
  have hconflict := h.2
  rw [if_pos hne] at hconflict
  cases hconflict

structure ItemsOk (kinds : BundleKinds J) (db : Db J) (t : SyncCall J)
    (planned : List (PlannedItem J)) : Prop where
  plan : Planned kinds.readDefinitionName t.input.items planned
  read : ∀ entry ∈ readyOf planned, entry.ReadFrom db

structure CheckedItems (kinds : BundleKinds J) (db : Db J) (t : SyncCall J)
    (planned : List (PlannedItem J)) : Prop extends ItemsOk kinds db t planned where
  unrefused : ∀ entry ∈ planned, entry.refusal = none
  expected : ∀ entry ∈ readyOf planned, entry.Expected

def SyncCall.Relies (kinds : BundleKinds J) (db : Db J) (t : SyncCall J) : Prop :=
  match t.phase with
  | .reading done todo => ItemsOk kinds db t (done ++ todo)
  | .furtherRights planned _ => ItemsOk kinds db t planned ∧ ∀ entry ∈ planned, entry.refusal = none
  | .loading planned _ => CheckedItems kinds db t planned
  | .writing planned batch _ => CheckedItems kinds db t planned ∧
      ∃ stored, syncInput kinds t.input.rules stored planned = .ok batch
  | .validated planned batch => CheckedItems kinds db t planned ∧
      ∃ stored, syncInput kinds t.input.rules stored planned = .ok batch

theorem ItemsOk.continues {kinds : BundleKinds J} {db db' : Db J} {t : SyncCall J}
    (h : ItemsOk kinds db t planned) (hc : db.Continues db') : ItemsOk kinds db' t planned :=
  ⟨h.plan, fun entry he => (h.read entry he).continues hc⟩

theorem CheckedItems.continues {kinds : BundleKinds J} {db db' : Db J} {t : SyncCall J}
    (h : CheckedItems kinds db t planned) (hc : db.Continues db') :
    CheckedItems kinds db' t planned :=
  ⟨h.toItemsOk.continues hc, h.unrefused, h.expected⟩

theorem SyncCall.Relies.continues {kinds : BundleKinds J} {db db' : Db J} {t : SyncCall J}
    (h : t.Relies kinds db) (hc : db.Continues db') : t.Relies kinds db' := by
  unfold SyncCall.Relies at h ⊢
  cases hp : t.phase with
  | reading done todo =>
    rw [hp] at h
    exact ItemsOk.continues h hc
  | furtherRights planned read =>
    rw [hp] at h
    exact ⟨h.1.continues hc, h.2⟩
  | loading planned read =>
    rw [hp] at h
    exact CheckedItems.continues h hc
  | writing planned batch read =>
    rw [hp] at h
    exact ⟨h.1.continues hc, h.2⟩
  | validated planned batch =>
    rw [hp] at h
    exact ⟨h.1.continues hc, h.2⟩

theorem ItemsOk.read_one {kinds : BundleKinds J} {db : Db J} {t t' : SyncCall J}
    (hinput : t'.input = t.input) (hd : db.RowsOk) (h : ItemsOk kinds db t (done ++ entry :: todo)) :
    ItemsOk kinds db t' (done ++ [authorizeItem t.input.rules
      (entry.ready?.bind fun ready => getConfigAsset db ready.key) entry] ++ todo) := by
  generalize hrow : (entry.ready?.bind fun ready => getConfigAsset db ready.key) = row
  have hsame := authorizeItem_same t.input.rules row entry
  have hmem : ∀ e ∈ done ++ [authorizeItem t.input.rules row entry] ++ todo,
      e = authorizeItem t.input.rules row entry ∨ e ∈ done ++ entry :: todo := by
    intro e he
    simp only [List.mem_append, List.mem_cons, List.not_mem_nil, or_false] at he ⊢
    rcases he with (he | he) | he
    · exact .inr (.inl he)
    · exact .inl he
    · exact .inr (.inr (.inr he))
  have hentry : entry ∈ done ++ entry :: todo := by simp
  refine ⟨⟨?_, ?_, ?_, ?_⟩, ?_⟩
  · rw [hinput, ← h.plan.items]
    simp [hsame.1]
  · intro e he
    rcases hmem e he with rfl | he
    · rw [hsame.1, hsame.2.1, hsame.2.2]
      exact h.plan.names entry hentry
    · exact h.plan.names e he
  · intro e he hnone
    rcases hmem e he with rfl | he
    · obtain ⟨r, hr⟩ := h.plan.ready entry hentry (authorizeItem_refused hnone)
      obtain ⟨hkind, hname, -⟩ := ready?_eq_some.mp hr
      let after := authorizeItem t.input.rules row entry
      exact ⟨⟨after.index, after.item, r.key, after.asset⟩, ready?_eq_some.mpr
        ⟨hsame.2.2.trans hkind, hsame.2.1.trans hname, hnone, rfl, rfl, rfl⟩⟩
    · exact h.plan.ready e he hnone
  · refine h.plan.keys.sublist ?_
    simp only [readyOf, List.filterMap_append, List.map_append, List.append_assoc]
    refine (List.Sublist.refl _).append ?_
    rw [← List.map_append, ← List.filterMap_append, List.singleton_append]
    cases hr : (authorizeItem t.input.rules row entry).ready? with
    | none =>
      rw [List.filterMap_cons_none hr]
      exact ((List.sublist_cons_self entry todo).filterMap _).map _
    | some r =>
      obtain ⟨r₀, hr₀, hkey, -⟩ := authorizeItem_ready hr
      rw [List.filterMap_cons_some hr, List.filterMap_cons_some hr₀, List.map_cons, List.map_cons,
        hkey]
  · intro r hr
    obtain ⟨e, he, hready⟩ := mem_readyOf.mp hr
    rcases hmem e he with rfl | he
    · obtain ⟨r₀, hr₀, hkey, hasset⟩ := authorizeItem_ready hready
      refine ReadyItem.readFrom_of_read hd ?_
      rw [hasset, ← hrow, hr₀, hkey]
      rfl
    · exact h.read r (mem_readyOf.mpr ⟨e, he, hready⟩)

end

section

variable {J : Type} {kinds : BundleKinds J} {rules : SyncRules J} {stored : AssetSet J}
variable {planned : List (PlannedItem J)} {batch : MutationInput J}

def MutationOf (entry : ReadyItem J) (m : ConfigAssetMutation J) : Prop :=
  m.target = some (entry.key, .ofInstance) ∧ m.isUpsert = entry.item.isPut

theorem syncInput_ok (h : syncInput kinds rules stored planned = .ok batch) :
    batch.baseRevisions =
        some ((readyOf planned).map fun entry => (entry.key, entry.item.expectedRevision)) ∧
      ∃ ms, List.Forall₂ MutationOf (readyOf planned) ms ∧
        ∃ rest, batch.mutations = ms ++ rest ∧ ∀ m ∈ rest, m.target = none := by
  unfold syncInput at h
  simp only at h
  obtain ⟨-, -, h⟩ := bind_ok.mp h
  obtain ⟨-, -, h⟩ := bind_ok.mp h
  obtain ⟨-, -, h⟩ := bind_ok.mp h
  obtain ⟨issues, -, h⟩ := bind_ok.mp h
  obtain ⟨-, -, h⟩ := bind_ok.mp h
  split at h
  · cases h
  · obtain ⟨-, -, h⟩ := bind_ok.mp h
    obtain ⟨ms, hms, h⟩ := bind_ok.mp h
    obtain rfl := pure_ok.mp h
    refine ⟨rfl, ms, (mapM_ok.mp hms).imp fun entry m hm => ?_, _, rfl, fun m hm => ?_⟩
    · split at hm
      next hput =>
        split at hm
        · obtain rfl := Except.ok.inj hm
          exact ⟨rfl, hput.symm⟩
        · cases hm
      next hput =>
        obtain rfl := Except.ok.inj hm
        exact ⟨rfl, (Bool.not_eq_true _ ▸ hput).symm⟩
    · obtain ⟨change, -, rfl⟩ := Option.map_eq_some_iff.mp (Option.mem_toList.mp hm)
      rfl

theorem get?_expected {entries : List (ReadyItem J)} {entry : ReadyItem J}
    (hkeys : (entries.map (·.key)).Nodup) (he : entry ∈ entries) :
    OrderedMap.get? (entries.map fun entry => (entry.key, entry.item.expectedRevision)) entry.key =
      some entry.item.expectedRevision := by
  induction entries with
  | nil => cases he
  | cons first entries ih =>
    rw [List.map_cons, List.nodup_cons] at hkeys
    rw [List.map_cons, OrderedMap.get?]
    rcases List.mem_cons.mp he with rfl | he
    · rw [if_pos rfl]
    · have hne : first.key ≠ entry.key := fun hk => hkeys.1 (List.mem_map.mpr ⟨entry, he, hk.symm⟩)
      rw [if_neg hne]
      exact ih hkeys.2 he

/-- The row of an item of an applied batch: one revision more than the batch found, stored by
this batch, active for a put and deleted for a delete. -/
structure ItemStored (db db' : Db J) (entry : ReadyItem J) : Prop where
  base : baseMatches (db.find? entry.key) entry.item.expectedRevision = true
  stored : ∃ row ∈ db'.find? entry.key,
    Appended db'.version entry.item.isPut .ofInstance (db.find? entry.key) row

theorem targets_of_mutations {entries : List (ReadyItem J)} {ms : List (ConfigAssetMutation J)}
    (h : List.Forall₂ MutationOf entries ms) :
    (ms.filterMap ConfigAssetMutation.target).map Prod.fst = entries.map (·.key) := by
  induction h with
  | nil => rfl
  | cons hm _ ih =>
    rw [List.filterMap_cons_some hm.1, List.map_cons, List.map_cons, ih]

theorem filterMap_target_none {ms : List (ConfigAssetMutation J)}
    (h : ∀ m ∈ ms, m.target = none) : ms.filterMap ConfigAssetMutation.target = [] :=
  List.filterMap_eq_nil_iff.mpr h

theorem batch_stores {db db' : Db J} {t : SyncCall J} (hd : db.RowsOk)
    (hc : CheckedItems kinds db t planned) (hb : syncInput kinds rules stored planned = .ok batch)
    (h : applyConfigAssetMutations batch db = .ok db') :
    ∀ entry ∈ readyOf planned, ItemStored db db' entry := by
  intro entry he
  obtain ⟨hbases, ms, hms, rest, hmutations, hrest⟩ := syncInput_ok hb
  obtain ⟨m, hm, htarget, hput⟩ := forall₂_mem_left hms he
  have hin : m ∈ batch.mutations := hmutations ▸ List.mem_append_left _ hm
  obtain ⟨base, hget, hmatches⟩ := applyConfigAssetMutations_bases hbases h hin htarget
  rw [get?_expected hc.plan.keys he, Option.some.injEq] at hget
  subst hget
  refine ⟨hmatches, ?_⟩
  have hkeys : ((batch.mutations.filterMap ConfigAssetMutation.target).map Prod.fst).Nodup := by
    rw [hmutations, List.filterMap_append, filterMap_target_none hrest, List.append_nil,
      targets_of_mutations hms]
    exact hc.plan.keys
  rcases applyConfigAssetMutations_appends hd hkeys h m hin _ _ htarget with hkept | hwritten
  · -- a delete names the revision of an active row, which its row is at still
    exfalso
    obtain ⟨hnot, -, hdeleted⟩ := hkept
    rw [hput] at hnot
    obtain ⟨n, hn⟩ : ∃ n, entry.item.expectedRevision = some n := by
      cases hitem : entry.item with
      | put kind config expected =>
        rw [hitem] at hnot
        cases hnot
      | delete kind name expected => exact ⟨expected, rfl⟩
    have hexpected := hc.expected entry he
    rw [ReadyItem.Expected, hn] at hexpected
    obtain ⟨read, hread, rfl⟩ := Option.map_eq_some_iff.mp hexpected
    obtain ⟨hread, hactive⟩ := Option.filter_eq_some_iff.mp hread
    obtain ⟨row, hrow, -, -, hstatus⟩ := hc.read entry he read hread
    rw [hn, Option.mem_def.mp hrow, baseMatches, Option.bind_some] at hmatches
    obtain ⟨r, hr, hrev⟩ := (Option.any_eq_true _ _).mp hmatches
    have hnumber := (hd.assets row ((find?_key_eq_some hd.keys).mp hrow).1).current hr
    have hsame := hstatus (hnumber.symm.trans (of_decide_eq_true hrev))
    rw [hdeleted row hrow, of_decide_eq_true hactive] at hsame
    cases hsame
  · rwa [hput] at hwritten

end

end Catalyst.Assets
