import Mathlib
import Catalyst.Assets.Owned

/-!
# What a bundle leaves of the stored set

The batch of a replacement is read as its effect on the map from keys to owners and definitions,
and the candidate as the same map. Both come to one formula: nothing where the delete list names
the asset, the bundle's definition where it carries one, and else what is stored, as far as the
mode keeps it.
-/

namespace Catalyst.Assets

open Library Library.Check

-- -----------------
-- The candidate
-- -----------------

namespace BundleKinds

variable {J : Type} {kinds : BundleKinds J} {command : ReplaceCommand J} {db : Db J}
variable {nameLe : String → String → Bool} {key : AssetKey} {d : J} {set : AssetSet J}

def sent (kinds : BundleKinds J) (command : ReplaceCommand J) (key : AssetKey) : Option J :=
  (kinds.carried command.bundle key.1).find? (kinds.readDefinitionName · = some key.2)

def Keeps (kinds : BundleKinds J) (command : ReplaceCommand J) (db : Db J) (key : AssetKey) :
    Prop :=
  command.merge = true ∨ kinds.slot key.1 = none ∨ db.WorkspaceOwned key

theorem sent_none : kinds.sent command key = none ↔
    some key.2 ∉ (kinds.carried command.bundle key.1).map kinds.readDefinitionName := by
  simp only [sent, List.find?_eq_none, decide_eq_true_eq, List.mem_map]
  constructor
  · rintro h ⟨d, hd, hname⟩
    exact h d hd hname
  · exact fun h d hd hname => h ⟨d, hd, hname⟩

theorem sent_some (h : kinds.sent command key = some d) :
    d ∈ kinds.carried command.bundle key.1 ∧ kinds.readDefinitionName d = some key.2 :=
  ⟨List.mem_of_find?_eq_some h, by simpa using List.find?_some h⟩

theorem mem_withoutDefinitions (keys : List AssetKey) (set : AssetSet J) (kind : AssetKindId) :
    d ∈ (keys.foldl (withoutDefinition kinds.readDefinitionName) set).definitions kind ↔
      d ∈ set.definitions kind ∧
        ∀ key ∈ keys, key.1 = kind → kinds.readDefinitionName d ≠ some key.2 := by
  induction keys generalizing set with
  | nil => simp
  | cons key keys ih =>
    rw [List.foldl_cons, ih]
    simp only [withoutDefinition, Function.update_apply, List.forall_mem_cons]
    by_cases hk : kind = key.1
    · subst hk
      simp [and_assoc]
    · have hk' : ¬ key.1 = kind := fun h => hk h.symm
      simp [hk, hk']

theorem withoutDefinitions_default (keys : List AssetKey) (set : AssetSet J) :
    (keys.foldl (withoutDefinition kinds.readDefinitionName) set).defaultAgentName =
      set.defaultAgentName := by
  induction keys generalizing set with
  | nil => rfl
  | cons key keys ih => exact ih _

theorem mem_mergeIntoSet {stored : AssetSet J} {bundle : ConfigAssetBundle J} {kind : AssetKindId} :
    d ∈ (kinds.mergeIntoSet stored bundle).definitions kind ↔
      d ∈ kinds.carried bundle kind ∨ d ∈ stored.definitions kind ∧
        kinds.readDefinitionName d ∉ (kinds.carried bundle kind).map kinds.readDefinitionName := by
  simp only [mergeIntoSet]
  split
  next => simp [or_comm]
  next h =>
    have hnone : kinds.carried bundle kind = [] := by
      rw [carried]
      cases hs : kinds.slot kind with
      | none => rfl
      | some f => exact absurd (by rw [hs]; rfl) h
    simp [hnone]

theorem withWorkspaceOwned_ok {set base : AssetSet J} {assets : List (ConfigAssetRecord J)}
    (h : withWorkspaceOwned kinds.readDefinitionName set assets = .ok base) :
    base.defaultAgentName = set.defaultAgentName ∧ ∀ kind d, d ∈ base.definitions kind ↔
      d ∈ set.definitions kind ∨ ∃ r ∈ assets, r.workspaceOwned = true ∧ r.config = some d ∧
        r.key.1 = kind ∧
        ¬ ∃ d' ∈ set.definitions kind, kinds.readDefinitionName d' = some r.key.2 := by
  simp only [withWorkspaceOwned] at h
  split at h
  next hempty =>
    obtain rfl := pure_ok.mp h
    refine ⟨rfl, fun kind d => (or_iff_left ?_).symm⟩
    rintro ⟨r, hr, hw, hc, -⟩
    have hmem : r ∈ assets.filter fun asset => asset.workspaceOwned && asset.config.isSome :=
      List.mem_filter.mpr ⟨hr, by simp [hw, hc]⟩
    rw [List.isEmpty_iff.mp hempty] at hmem
    cases hmem
  next =>
    obtain ⟨keys, hkeys, h⟩ := bind_ok.mp h
    obtain rfl := pure_ok.mp h
    refine ⟨rfl, fun kind d => ?_⟩
    simp only [List.mem_append, List.mem_filterMap, List.mem_filter, Bool.and_eq_true]
    refine or_congr_right (exists_congr fun r => ?_)
    constructor
    · rintro ⟨⟨hr, hw, -⟩, hc⟩
      split at hc
      next hkind =>
        obtain ⟨rfl, hk⟩ := hkind
        exact ⟨hr, hw, hc, rfl, fun hd => hk ((mem_assetKeysOf hkeys).mpr hd)⟩
      next => cases hc
    · rintro ⟨hr, hw, hc, rfl, hk⟩
      refine ⟨⟨hr, hw, by simp [hc]⟩, ?_⟩
      rw [if_pos ⟨rfl, fun hd => hk ((mem_assetKeysOf hkeys).mp hd)⟩, hc]

theorem candidateOf_ok {stored cand : AssetSet J} {assets : List (ConfigAssetRecord J)}
    (h : kinds.candidateOf command stored assets = .ok cand) :
    ∃ base : AssetSet J,
      (command.merge = true ∧ base = kinds.mergeIntoSet stored command.bundle ∨
        command.merge = false ∧ withWorkspaceOwned kinds.readDefinitionName
          (kinds.assetSetOfBundle command.bundle stored) assets = .ok base) ∧
      cand.definitions =
        (command.deleteAssets.foldl (withoutDefinition kinds.readDefinitionName) base).definitions ∧
      cand.defaultAgentName = if command.baseDefaultAgentName.isSome then
        command.bundle.defaultAgentName else base.defaultAgentName := by
  obtain ⟨base, hbase, h⟩ := bind_ok.mp h
  refine ⟨base, ?_, ?_⟩
  · rw [bundleOver] at hbase
    cases hm : command.merge with
    | true =>
      rw [hm, if_pos rfl] at hbase
      exact .inl ⟨rfl, (Except.ok.inj hbase).symm⟩
    | false =>
      rw [hm, if_neg Bool.false_ne_true] at hbase
      exact .inr ⟨rfl, hbase⟩
  · have h := pure_ok.mp h
    split at h
    next hb =>
      subst h
      exact ⟨rfl, (if_pos hb).symm⟩
    next hb =>
      subst h
      exact ⟨rfl, (withoutDefinitions_default _ _).trans (if_neg hb).symm⟩

section

variable {cand : AssetSet J} (hd : db.Ok kinds.readDefinitionName)
variable (h : kinds.candidateOf command (db.set nameLe) (listActiveConfigAssets nameLe db) = .ok cand)

include h in
theorem candidate_deleted (hkey : key ∈ command.deleteAssets)
    (hname : kinds.readDefinitionName d = some key.2) : d ∉ cand.definitions key.1 := by
  obtain ⟨base, -, hdefs, -⟩ := candidateOf_ok h
  rw [hdefs, mem_withoutDefinitions]
  exact fun hmem => hmem.2 key hkey rfl hname

include hd in
theorem mirrored_mem {base : AssetSet J} (hmirror : command.merge = false)
    (hbase : withWorkspaceOwned kinds.readDefinitionName
      (kinds.assetSetOfBundle command.bundle (db.set nameLe)) (listActiveConfigAssets nameLe db) =
        .ok base)
    (hname : kinds.readDefinitionName d = some key.2) :
    d ∈ base.definitions key.1 ↔ d ∈ kinds.carried command.bundle key.1 ∨
      kinds.sent command key = none ∧ kinds.Keeps command db key ∧
        d ∈ (db.set nameLe).definitions key.1 := by
  rw [(withWorkspaceOwned_ok hbase).2]
  -- a workspace's record of this definition is the one under its key
  have hrecord (r : ConfigAssetRecord J) (hr : r ∈ listActiveConfigAssets nameLe db)
      (hc : r.config = some d) (hkind : r.key.1 = key.1) :
      r.key = key ∧ db.owned key = some (r.scope, d) := by
    have howned := (owned_iff _ hd).mpr ⟨r, hr, rfl, rfl, hc⟩
    have hname' := ((mem_stored nameLe hd).mpr ⟨_, howned⟩).2
    have hkey : r.key = key := Prod.ext hkind (Option.some.inj (hname'.symm.trans hname))
    exact ⟨hkey, hkey ▸ howned⟩
  cases hslot : kinds.slot key.1 with
  | none =>
    have hcarried : kinds.carried command.bundle key.1 = [] := by rw [carried, hslot]
    have hset : (kinds.assetSetOfBundle command.bundle (db.set nameLe)).definitions key.1 =
        (db.set nameLe).definitions key.1 := by
      simp [assetSetOfBundle, hslot]
    have hsent : kinds.sent command key = none := sent_none.mpr (by simp [hcarried])
    rw [hset, hcarried]
    constructor
    · rintro (hmem | ⟨r, hr, -, hc, hkind, -⟩)
      · exact .inr ⟨hsent, .inr (.inl hslot), hmem⟩
      · exact .inr ⟨hsent, .inr (.inl hslot),
          ((mem_stored _ hd).mpr ⟨_, (hrecord r hr hc hkind).2⟩).1⟩
    · rintro (hmem | ⟨-, -, hmem⟩)
      · cases hmem
      · exact .inl hmem
  | some f =>
    have hset : (kinds.assetSetOfBundle command.bundle (db.set nameLe)).definitions key.1 =
        kinds.carried command.bundle key.1 := by
      simp [assetSetOfBundle, hslot]
    rw [hset]
    refine or_congr_right ?_
    constructor
    · rintro ⟨r, hr, hw, hc, hkind, hnone⟩
      obtain ⟨hkey, howned⟩ := hrecord r hr hc hkind
      rw [hkey] at hnone
      refine ⟨sent_none.mpr fun hmem => hnone (List.mem_map.mp hmem), .inr (.inr ?_),
        ((mem_stored _ hd).mpr ⟨_, howned⟩).1⟩
      cases hs : r.scope with
      | ofInstance => simp [ConfigAssetRecord.workspaceOwned, hs] at hw
      | ofWorkspace w => exact ⟨w, d, hs ▸ howned⟩
    · rintro ⟨hsent, hkeeps, hmem⟩
      obtain ⟨w, d', hw⟩ : db.WorkspaceOwned key := by
        rcases hkeeps with hk | hk | hk
        · rw [hmirror] at hk
          cases hk
        · rw [hslot] at hk
          cases hk
        · exact hk
      obtain ⟨s, howned⟩ := (mem_stored _ hd).mp ⟨hmem, hname⟩
      obtain ⟨rfl, rfl⟩ := Prod.mk.inj (Option.some.inj (hw.symm.trans howned))
      obtain ⟨r, hr, rfl, hs, hc⟩ := (owned_iff _ hd).mp hw
      exact ⟨r, hr, by simp [ConfigAssetRecord.workspaceOwned, hs], hc, rfl,
        fun hex => sent_none.mp hsent (List.mem_map.mpr hex)⟩

include hd h in
/-- The candidate holds what the bundle carries, and what is kept of the stored set. -/
theorem candidate_mem (hkey : key ∉ command.deleteAssets)
    (hname : kinds.readDefinitionName d = some key.2) :
    d ∈ cand.definitions key.1 ↔ d ∈ kinds.carried command.bundle key.1 ∨
      kinds.sent command key = none ∧ kinds.Keeps command db key ∧
        d ∈ (db.set nameLe).definitions key.1 := by
  obtain ⟨base, hbase, hdefs, -⟩ := candidateOf_ok h
  have hkept : ∀ key' ∈ command.deleteAssets, key'.1 = key.1 →
      kinds.readDefinitionName d ≠ some key'.2 := by
    intro key' hk' hkind hn
    have hk : key' = key := Prod.ext hkind (Option.some.inj (hn.symm.trans hname))
    exact hkey (hk ▸ hk')
  rw [hdefs, mem_withoutDefinitions, and_iff_left hkept]
  rcases hbase with ⟨hm, rfl⟩ | ⟨hm, hbase⟩
  · rw [mem_mergeIntoSet, hname, ← sent_none]
    have hkeeps : kinds.Keeps command db key := .inl hm
    refine or_congr_right ?_
    rw [and_iff_right hkeeps, and_comm]
  · exact mirrored_mem hd hm hbase hname

include h in
theorem candidate_default : cand.defaultAgentName =
    if command.setsDefault then command.bundle.defaultAgentName
    else (db.set nameLe).defaultAgentName := by
  obtain ⟨base, hbase, -, hdefault⟩ := candidateOf_ok h
  rw [hdefault, ReplaceCommand.setsDefault]
  rcases hbase with ⟨hm, rfl⟩ | ⟨hm, hbase⟩
  · rw [mergeIntoSet]
    cases command.baseDefaultAgentName <;> cases command.bundle.defaultAgentName <;> simp [hm]
  · rw [(withWorkspaceOwned_ok hbase).1]
    cases command.baseDefaultAgentName <;> simp [hm, assetSetOfBundle]

end

theorem reads_of_accepts {kind : AssetKindId} (h : kinds.Accepts d kind) :
    kinds.reads kind d = some (kinds.asRead kind d) := by
  cases kind with
  | agent =>
    obtain ⟨a, ha⟩ := h
    simp [reads, ha, Except.toOption]
  | skill =>
    obtain ⟨a, ha⟩ := h
    simp [reads, ha, Except.toOption]

theorem mem_accepted {cand : AssetSet J} {kind : AssetKindId} (hs : kinds.Sound cand) :
    d ∈ (kinds.accepted cand).definitions kind ↔
      ∃ d' ∈ cand.definitions kind, kinds.asRead kind d' = d := by
  simp only [accepted, List.mem_filterMap]
  refine exists_congr fun d' => and_congr_right fun hd' => ?_
  rw [reads_of_accepts (hs.accepts kind d' hd'), Option.some.injEq]

theorem mem_desired {cand : AssetSet J} {desired : List AssetKey} (hs : kinds.Sound cand)
    (h : assetKeysOf kinds.readDefinitionName (kinds.accepted cand) = .ok desired) :
    key ∈ desired ↔ ∃ d ∈ cand.definitions key.1, kinds.readDefinitionName d = some key.2 := by
  rw [mem_assetKeysOf h]
  constructor
  · rintro ⟨d, hd, hname⟩
    obtain ⟨d', hd', rfl⟩ := (mem_accepted hs).mp hd
    exact ⟨d', hd', kinds.asRead_name ▸ hname⟩
  · rintro ⟨d, hd, hname⟩
    exact ⟨_, (mem_accepted hs).mpr ⟨d, hd, rfl⟩, kinds.asRead_name.trans hname⟩

theorem mem_providedDefinitions {validated : AssetSet J} {kind : AssetKindId}
    {e : String × J} : e ∈ kinds.providedDefinitions command validated kind ↔
      e.2 ∈ validated.definitions kind ∧ kinds.readDefinitionName e.2 = some e.1 ∧
        kinds.sent command (kind, e.1) ≠ none := by
  simp only [providedDefinitions, List.mem_filterMap, ne_eq, sent_none, not_not]
  constructor
  · rintro ⟨d, hd, he⟩
    cases hn : kinds.readDefinitionName d with
    | none => simp [hn] at he
    | some name =>
      simp only [hn] at he
      split at he
      next hmem =>
        obtain rfl := Option.some.inj he
        exact ⟨hd, hn, hmem⟩
      next => cases he
  · rintro ⟨hd, hn, hmem⟩
    refine ⟨e.2, hd, ?_⟩
    simp only [hn]
    rw [if_pos hmem]

theorem mem_upserts {cand : AssetSet J} {e : AssetKey × J} (hs : kinds.Sound cand) :
    e ∈ kinds.upserts command (kinds.accepted cand) ↔
      ∃ d ∈ cand.definitions e.1.1, kinds.asRead e.1.1 d = e.2 ∧
        kinds.readDefinitionName d = some e.1.2 ∧ kinds.sent command e.1 ≠ none := by
  obtain ⟨⟨kind, name⟩, c⟩ := e
  simp only [upserts, List.mem_flatMap, List.mem_map, mem_providedDefinitions, mem_accepted hs]
  constructor
  · rintro ⟨k, -, ⟨n, c'⟩, ⟨⟨d, hd, hread⟩, hname, hsent⟩, he⟩
    cases he
    exact ⟨d, hd, hread, kinds.asRead_name.symm.trans (hread ▸ hname), hsent⟩
  · rintro ⟨d, hd, rfl, hname, hsent⟩
    exact ⟨kind, kind.mem_all, (name, _), ⟨⟨d, hd, rfl⟩, kinds.asRead_name.trans hname, hsent⟩, rfl⟩

theorem mutationsOf_named (command : ReplaceCommand J) {cand : AssetSet J} (hs : kinds.Sound cand)
    (desired : List AssetKey) (assets : List (ConfigAssetRecord J)) :
    ∀ m ∈ kinds.mutationsOf command (kinds.accepted cand) desired assets,
      m.Named kinds.readDefinitionName ∧
        ∀ k s, m.target = some (k, s) → s = .ofInstance := by
  have hdelete (keys : List AssetKey) : ∀ m ∈ keys.map (ConfigAssetMutation.delete (J := J) · none),
      m.Named kinds.readDefinitionName ∧ ∀ k s, m.target = some (k, s) → s = .ofInstance := by
    intro m hm
    obtain ⟨k, -, rfl⟩ := List.mem_map.mp hm
    refine ⟨trivial, fun k' s ht => ?_⟩
    cases ht
    rfl
  intro m hm
  simp only [mutationsOf, List.mem_append] at hm
  rcases hm with ((hm | hm) | hm) | hm
  · split at hm
    next => cases hm
    next => exact hdelete _ m hm
  · exact hdelete _ m hm
  · obtain ⟨e, he, rfl⟩ := List.mem_map.mp hm
    obtain ⟨d, -, hread, hname, -⟩ := (mem_upserts hs).mp he
    refine ⟨hread ▸ kinds.asRead_name.trans hname, fun k s ht => ?_⟩
    cases ht
    rfl
  · rw [ReplaceCommand.defaultMutations] at hm
    split at hm
    next =>
      obtain rfl := List.mem_singleton.mp hm
      exact ⟨trivial, fun k s ht => by cases ht⟩
    next => cases hm

theorem replaceAssets_ok {out : Replaced J} (h : kinds.replaceAssets nameLe command db = .ok out) :
    ∃ cand desired,
      kinds.candidateOf command (db.set nameLe) (listActiveConfigAssets nameLe db) = .ok cand ∧
      kinds.validateAssetSet cand (db.set nameLe) = .ok () ∧
      assetKeysOf kinds.readDefinitionName (kinds.accepted cand) = .ok desired ∧
      kinds.validateAssetSet (candidate kinds.readDefinitionName (db.set nameLe)
        (kinds.mutationsOf command (kinds.accepted cand) desired
          (listActiveConfigAssets nameLe db))) (db.set nameLe) = .ok () ∧
      applyConfigAssetMutations
        { baseVersion := command.baseVersion
          baseRevisions := command.baseRevisions
          baseDefaultAgentName := command.baseDefaultAgentName
          initialAgentAvailability := some .selectedWhenReplacingSelected
          mutations := kinds.mutationsOf command (kinds.accepted cand) desired
            (listActiveConfigAssets nameLe db) } db = .ok out.db := by
  obtain ⟨cand, hcand, h⟩ := bind_ok.mp h
  obtain ⟨-, -, h⟩ := bind_ok.mp h
  obtain ⟨_, hvalid, h⟩ := bind_ok.mp h
  obtain ⟨-, -, h⟩ := bind_ok.mp h
  obtain ⟨desired, hdesired, h⟩ := bind_ok.mp h
  obtain ⟨written, hwritten, h⟩ := bind_ok.mp h
  obtain rfl := pure_ok.mp h
  obtain ⟨-, -, hwritten⟩ := bind_ok.mp hwritten
  obtain ⟨_, hvalid', hwritten⟩ := bind_ok.mp hwritten
  exact ⟨cand, desired, hcand, hvalid, hdesired, hvalid', hwritten⟩

theorem foldl_own_default (v : AssetKey → Option (AssetScope × J)) :
    command.defaultMutations.foldl ConfigAssetMutation.own v = v := by
  rw [ReplaceCommand.defaultMutations]
  split <;> rfl

theorem foldl_default_name (ms : List (ConfigAssetMutation J)) (v : AssetMap J)
    (h : ∀ m ∈ ms, ∀ name, m ≠ .setDefaultAgent name) :
    (ms.foldl ConfigAssetMutation.on v).default = v.default := by
  induction ms generalizing v with
  | nil => rfl
  | cons m ms ih =>
    rw [List.foldl_cons, ih _ fun m' hm' => h m' (List.mem_cons_of_mem _ hm')]
    cases m with
    | setDefaultAgent name => exact absurd rfl (h _ List.mem_cons_self name)
    | upsert => rfl
    | delete => rfl

section

variable {cand : AssetSet J} {desired : List AssetKey} (hd : db.Ok kinds.readDefinitionName)
variable (h : kinds.candidateOf command (db.set nameLe) (listActiveConfigAssets nameLe db) = .ok cand)
variable (hs : kinds.Sound cand)

def dropped (command : ReplaceCommand J) (desired : List AssetKey)
    (assets : List (ConfigAssetRecord J)) : List AssetKey :=
  if command.merge then [] else (assets.map (·.key)).filter (· ∉ desired)

theorem mutationsOf_eq (assets : List (ConfigAssetRecord J)) :
    kinds.mutationsOf command (kinds.accepted cand) desired assets =
      (dropped command desired assets).map (.delete · none) ++
      command.deleteAssets.map (.delete · none) ++
      (kinds.upserts command (kinds.accepted cand)).map (fun e => .upsert e.1 e.2 false none) ++
      command.defaultMutations := by
  rw [mutationsOf, dropped]
  split <;> rfl

include h hs in
theorem not_upserted (hkey : key ∈ command.deleteAssets ∨ kinds.sent command key = none) :
    ∀ e ∈ kinds.upserts command (kinds.accepted cand), e.1 ≠ key := by
  rintro e he rfl
  obtain ⟨d, hmem, -, hname, hsent⟩ := (mem_upserts hs).mp he
  rcases hkey with hkey | hkey
  · exact candidate_deleted h hkey hname hmem
  · exact hsent hkey

include hd h hs in
theorem not_dropped
    (hdesired : assetKeysOf kinds.readDefinitionName (kinds.accepted cand) = .ok desired)
    (hkey : key ∉ command.deleteAssets) (hsent : kinds.sent command key = none)
    (hkeeps : kinds.Keeps command db key) :
    key ∉ dropped command desired (listActiveConfigAssets nameLe db) := by
  rw [dropped]
  split
  next => exact List.not_mem_nil
  next =>
    simp only [List.mem_filter, List.mem_map, decide_eq_true_eq, not_and, not_not]
    rintro ⟨r, hr, rfl⟩
    obtain ⟨d, howned⟩ := owned_of_record hd hr
    obtain ⟨hmem, hname⟩ := (mem_stored nameLe hd).mpr ⟨_, howned⟩
    exact (mem_desired hs hdesired).mpr
      ⟨d, (candidate_mem hd h hkey hname).mpr (.inr ⟨hsent, hkeeps, hmem⟩), hname⟩

include hd h hs in
theorem dropped_or_none
    (hdesired : assetKeysOf kinds.readDefinitionName (kinds.accepted cand) = .ok desired)
    (hkey : key ∉ command.deleteAssets) (hsent : kinds.sent command key = none)
    (hkeeps : ¬ kinds.Keeps command db key) :
    key ∈ dropped command desired (listActiveConfigAssets nameLe db) ∨ db.owned key = none := by
  cases howned : db.owned key with
  | none => exact .inr rfl
  | some e =>
    left
    obtain ⟨r, hr, rfl, -, -⟩ := (owned_iff nameLe hd).mp howned
    rw [dropped, if_neg fun hm => hkeeps (.inl hm)]
    refine List.mem_filter.mpr ⟨List.mem_map_of_mem hr, decide_eq_true fun hmem => ?_⟩
    obtain ⟨d, hmem, hname⟩ := (mem_desired hs hdesired).mp hmem
    rcases (candidate_mem hd h hkey hname).mp hmem with hc | ⟨-, hk, -⟩
    · exact sent_none.mp hsent (List.mem_map.mpr ⟨d, hc, hname⟩)
    · exact hkeeps hk

theorem foldl_own_mutations (v : AssetKey → Option (AssetScope × J))
    (assets : List (ConfigAssetRecord J)) :
    (kinds.mutationsOf command (kinds.accepted cand) desired assets).foldl
        ConfigAssetMutation.own v =
      ((kinds.upserts command (kinds.accepted cand)).map fun e =>
        .upsert e.1 e.2 false none).foldl ConfigAssetMutation.own
        fun key => if key ∈ command.deleteAssets then none
          else if key ∈ dropped command desired assets then none else v key := by
  rw [mutationsOf_eq, List.foldl_append, List.foldl_append, List.foldl_append, foldl_own_default]
  refine congrArg (fun v => List.foldl ConfigAssetMutation.own v _) (funext fun key => ?_)
  rw [foldl_own_deletes, foldl_own_deletes]

end

-- -----------------
-- What is stored afterwards
-- -----------------

/-- Key by key what a replacement leaves. -/
structure Leaves (kinds : BundleKinds J) (command : ReplaceCommand J) (db db' : Db J) : Prop where
  deleted : ∀ key ∈ command.deleteAssets, db'.owned key = none
  carried : ∀ key ∉ command.deleteAssets, ∀ d, kinds.sent command key = some d →
    db'.owned key = some (.ofInstance, kinds.asRead key.1 d)
  kept : ∀ key ∉ command.deleteAssets, kinds.sent command key = none →
    kinds.Keeps command db key → db'.find? key = db.find? key
  dropped : ∀ key ∉ command.deleteAssets, kinds.sent command key = none →
    ¬ kinds.Keeps command db key → db'.owned key = none
  workspace : ∀ key, db.WorkspaceOwned key → db'.find? key = db.find? key

theorem Leaves.owned_of_find? {db' : Db J} (h : db'.find? key = db.find? key) :
    db'.owned key = db.owned key := by
  rw [Db.owned, Db.owned, h]

theorem replaceAssets_leaves {out : Replaced J} {cand : AssetSet J} {desired : List AssetKey}
    {input : MutationInput J} (hd : db.Ok kinds.readDefinitionName)
    (h : kinds.candidateOf command (db.set nameLe) (listActiveConfigAssets nameLe db) = .ok cand)
    (hs : kinds.Sound cand)
    (hdesired : assetKeysOf kinds.readDefinitionName (kinds.accepted cand) = .ok desired)
    (hinput : input.mutations = kinds.mutationsOf command (kinds.accepted cand) desired
      (listActiveConfigAssets nameLe db))
    (happly : applyConfigAssetMutations input db = .ok out.db) :
    kinds.Leaves command db out.db := by
  have hnamed := mutationsOf_named command hs desired (listActiveConfigAssets nameLe db)
  rw [← hinput] at hnamed
  obtain ⟨hrows, howned⟩ :=
    applyConfigAssetMutations_owned hd (fun m hm => (hnamed m hm).1) happly
  rw [hinput, foldl_own_mutations] at howned
  refine ⟨?deleted, ?carried, ?kept, ?dropped, ?workspace⟩
  case deleted =>
    intro key hkey
    rw [howned, foldl_own_upserts_of_not_mem _ (not_upserted h hs (.inl hkey)), if_pos hkey]
  case carried =>
    intro key hkey d hsent
    obtain ⟨hcarried, hname⟩ := sent_some hsent
    have hmem := (candidate_mem hd h hkey hname).mpr (.inl hcarried)
    rw [howned]
    refine foldl_own_upserts _ ?_ (.inr ⟨(key, kinds.asRead key.1 d), ?_, rfl⟩)
    · rintro e he rfl
      obtain ⟨d', hmem', hread, hname', -⟩ := (mem_upserts hs).mp he
      rw [← hread, eq_of_key (hs.names _) hmem' hmem (hname'.trans hname.symm)]
    · exact (mem_upserts hs).mpr ⟨d, hmem, rfl, hname, by simp [hsent]⟩
  case kept =>
    intro key hkey hsent hkeeps
    refine hrows.frame key fun scope ht => ?_
    obtain ⟨m, hm, ht⟩ := ht
    simp only [hinput, mutationsOf_eq, List.mem_append] at hm
    rcases hm with ((hm | hm) | hm) | hm
    · obtain ⟨k, hk, rfl⟩ := List.mem_map.mp hm
      obtain ⟨rfl, -⟩ := Prod.mk.inj (Option.some.inj ht)
      exact not_dropped hd h hs hdesired hkey hsent hkeeps hk
    · obtain ⟨k, hk, rfl⟩ := List.mem_map.mp hm
      obtain ⟨rfl, -⟩ := Prod.mk.inj (Option.some.inj ht)
      exact hkey hk
    · obtain ⟨e, he, rfl⟩ := List.mem_map.mp hm
      exact not_upserted h hs (.inr hsent) e he (Prod.mk.inj (Option.some.inj ht)).1
    · rw [ReplaceCommand.defaultMutations] at hm
      split at hm
      next =>
        obtain rfl := List.mem_singleton.mp hm
        cases ht
      next => cases hm
  case dropped =>
    intro key hkey hsent hkeeps
    rw [howned, foldl_own_upserts_of_not_mem _ (not_upserted h hs (.inr hsent)), if_neg hkey]
    rcases dropped_or_none hd h hs hdesired hkey hsent hkeeps with hk | hk
    · rw [if_pos hk]
    · rw [hk]
      split <;> rfl
  case workspace =>
    intro key hw
    refine hrows.workspace (fun k s ht => ?_) hw
    obtain ⟨m, hm, ht⟩ := ht
    exact (hnamed m hm).2 k s ht

theorem Leaves.candidate {cand : AssetSet J} {db' : Db J} (hl : kinds.Leaves command db db')
    (hd : db.Ok kinds.readDefinitionName)
    (h : kinds.candidateOf command (db.set nameLe) (listActiveConfigAssets nameLe db) = .ok cand)
    (hs : kinds.Sound cand) (key : AssetKey) :
    db'.map.definition key = (cand.findDefinition kinds.readDefinitionName key).map fun d =>
      if (kinds.sent command key).isSome then kinds.asRead key.1 d else d := by
  have hfind (d : J) : cand.findDefinition kinds.readDefinitionName key = some d ↔
      d ∈ cand.definitions key.1 ∧ kinds.readDefinitionName d = some key.2 :=
    find?_key_eq_some (hs.names key.1)
  have hnone (hno : ∀ d ∈ cand.definitions key.1, kinds.readDefinitionName d ≠ some key.2) :
      cand.findDefinition kinds.readDefinitionName key = none :=
    Option.eq_none_iff_forall_not_mem.mpr fun d he =>
      hno d ((hfind d).mp he).1 ((hfind d).mp he).2
  rw [Db.map_owned]
  by_cases hkey : key ∈ command.deleteAssets
  · rw [hl.deleted key hkey, hnone fun d hmem hname => candidate_deleted h hkey hname hmem]
    rfl
  · cases hsent : kinds.sent command key with
    | some d =>
      obtain ⟨hcarried, hname⟩ := sent_some hsent
      have hmem := (candidate_mem hd h hkey hname).mpr (.inl hcarried)
      rw [hl.carried key hkey d hsent, (hfind d).mpr ⟨hmem, hname⟩]
      rfl
    | none =>
      by_cases hkeeps : kinds.Keeps command db key
      · rw [Leaves.owned_of_find? (hl.kept key hkey hsent hkeeps)]
        cases howned : db.owned key with
        | none =>
          rw [hnone fun d hmem hname => ?_]
          · rfl
          · rcases (candidate_mem hd h hkey hname).mp hmem with hc | ⟨-, -, hst⟩
            · exact sent_none.mp hsent (List.mem_map.mpr ⟨d, hc, hname⟩)
            · obtain ⟨s, hst⟩ := (mem_stored _ hd).mp ⟨hst, hname⟩
              rw [howned] at hst
              cases hst
        | some e =>
          obtain ⟨hst, hname⟩ := (mem_stored nameLe hd).mpr ⟨e.1, howned⟩
          have hmem := (candidate_mem hd h hkey hname).mpr (.inr ⟨hsent, hkeeps, hst⟩)
          rw [(hfind e.2).mpr ⟨hmem, hname⟩]
          rfl
      · rw [hl.dropped key hkey hsent hkeeps, hnone fun d hmem hname => ?_]
        · rfl
        · rcases (candidate_mem hd h hkey hname).mp hmem with hc | ⟨-, hk, -⟩
          · exact sent_none.mp hsent (List.mem_map.mpr ⟨d, hc, hname⟩)
          · exact hkeeps hk

theorem replaced_default {cand : AssetSet J} {desired : List AssetKey} {db' : Db J}
    {assets : List (ConfigAssetRecord J)} {input : MutationInput J}
    (hd : db.Ok kinds.readDefinitionName) (hs : kinds.Sound cand)
    (hinput : input.mutations = kinds.mutationsOf command (kinds.accepted cand) desired assets)
    (happly : applyConfigAssetMutations input db = .ok db') :
    db'.defaultAgentName = if command.setsDefault then command.bundle.defaultAgentName
      else db.defaultAgentName := by
  have hnamed := mutationsOf_named command hs desired assets
  rw [← hinput] at hnamed
  have hmap := (applyConfigAssetMutations_ok hd (fun m hm => (hnamed m hm).1) happly).2
  have hdefault : db'.defaultAgentName =
      (input.mutations.foldl ConfigAssetMutation.on db.map).default :=
    congrArg AssetMap.default hmap
  rw [hdefault, hinput, mutationsOf_eq, List.foldl_append, ReplaceCommand.defaultMutations]
  split
  next => rfl
  next =>
    rw [List.foldl_nil]
    refine foldl_default_name _ _ fun m hm name => ?_
    simp only [List.mem_append, List.mem_map] at hm
    rintro rfl
    rcases hm with (⟨k, -, he⟩ | ⟨k, -, he⟩) | ⟨e, -, he⟩
    · cases he
    · cases he
    · cases he

/-- A replacement that is accepted leaves the bundle's definitions as their kinds read them, and
of the stored set what its mode keeps; and what it leaves is the candidate that was validated. -/
theorem replaceAssets_replaces {out : Replaced J} (hd : db.Ok kinds.readDefinitionName)
    (h : kinds.replaceAssets nameLe command db = .ok out) :
    (command.merge = false →
      (∀ key d, (kinds.slot key.1).isSome = true → (out.db.owned key = some (.ofInstance, d) ↔
        key ∉ command.deleteAssets ∧
          ∃ d', kinds.sent command key = some d' ∧ kinds.asRead key.1 d' = d)) ∧
      (∀ key, db.WorkspaceOwned key → out.db.find? key = db.find? key) ∧
      ∀ key ∉ command.deleteAssets, kinds.slot key.1 = none →
        out.db.find? key = db.find? key) ∧
    (command.merge = true → ∀ key, out.db.owned key =
      if key ∈ command.deleteAssets then none
      else ((kinds.sent command key).map fun d => (.ofInstance, kinds.asRead key.1 d)).or
        (db.owned key)) ∧
    (out.db.defaultAgentName =
      if command.setsDefault then command.bundle.defaultAgentName else db.defaultAgentName) ∧
    (∃ cand,
      kinds.candidateOf command (db.set nameLe) (listActiveConfigAssets nameLe db) = .ok cand ∧
      kinds.validateAssetSet cand (db.set nameLe) = .ok () ∧
      out.db.defaultAgentName = cand.defaultAgentName ∧
      ∀ key, out.db.map.definition key =
        (cand.findDefinition kinds.readDefinitionName key).map fun d =>
          if (kinds.sent command key).isSome then kinds.asRead key.1 d else d) ∧
    kinds.findAssetSetIssues (out.db.set nameLe) = [] := by
  obtain ⟨cand, desired, hcand, hvalid, hdesired, hvalid', happly⟩ := replaceAssets_ok h
  have hs := validateAssetSet_ok hvalid
  have hl := replaceAssets_leaves hd hcand hs hdesired rfl happly
  have hdefault := replaced_default hd hs rfl happly
  refine ⟨fun hm => ⟨fun key d hslot => ⟨fun howned => ?_, ?_⟩, hl.workspace, ?_⟩, fun hm key => ?_,
    hdefault, ⟨cand, hcand, hvalid, hdefault.trans (candidate_default hcand).symm,
      hl.candidate hd hcand hs⟩, ?_⟩
  · by_cases hkey : key ∈ command.deleteAssets
    · rw [hl.deleted key hkey] at howned
      cases howned
    · refine ⟨hkey, ?_⟩
      cases hsent : kinds.sent command key with
      | some d' =>
        rw [hl.carried key hkey d' hsent] at howned
        exact ⟨d', rfl, (Prod.mk.inj (Option.some.inj howned)).2⟩
      | none =>
        by_cases hkeeps : kinds.Keeps command db key
        · -- only a workspace's asset is kept of a kind the bundle carries
          rcases hkeeps with hk | hk | ⟨w, d', hw⟩
          · rw [hm] at hk
            cases hk
          · rw [hk] at hslot
            cases hslot
          · rw [Leaves.owned_of_find? (hl.workspace key ⟨w, d', hw⟩), hw] at howned
            cases howned
        · rw [hl.dropped key hkey hsent hkeeps] at howned
          cases howned
  · rintro ⟨hkey, d', hsent, rfl⟩
    exact hl.carried key hkey d' hsent
  · intro key hkey hslot
    have hcarried : kinds.carried command.bundle key.1 = [] := by rw [carried, hslot]
    exact hl.kept key hkey (sent_none.mpr (by simp [hcarried])) (.inr (.inl hslot))
  · split
    next hkey => exact hl.deleted key hkey
    next hkey =>
      cases hsent : kinds.sent command key with
      | some d => exact hl.carried key hkey d hsent
      | none => exact Leaves.owned_of_find? (hl.kept key hkey hsent (.inl hm))
  · have hnamed := mutationsOf_named command hs desired (listActiveConfigAssets nameLe db)
    have hsame := candidate_same hd (fun m hm => (hnamed m hm).1) happly nameLe
    exact AssetKindRegistry.findAssetSetIssues_eq_nil.mpr
      (hsame.sound (validateAssetSet_ok hvalid'))

end BundleKinds

namespace Example

def bundleKinds : BundleKinds Definition where
  toAssetKindRegistry := kinds
  asRead _ d := d
  asRead_name := rfl
  slot
    | .agent => some ConfigAssetBundle.agents
    | .skill => some ConfigAssetBundle.skills
  hasWorkspaceAvailability kind := kind = .agent
  assertChangedAgentsAllowed _ _ := .ok ()

/-- A mirror of an agent and a skill whose delete list names the skill. -/
def mirrorDeleting : ReplaceCommand Definition where
  bundle := ⟨some "a", [agent []], [skill]⟩
  baseVersion := none
  merge := false
  baseRevisions := none
  baseDefaultAgentName := none
  deleteAssets := [skillKey]

def merging : ReplaceCommand Definition :=
  { mirrorDeleting with merge := true, deleteAssets := [] }

end Example

/-- The skill is in the bundle, and is not stored. -/
theorem mirror_deletes_what_it_carries :
    Example.mirrorDeleting.merge = false ∧
    Example.bundleKinds.sent Example.mirrorDeleting Example.skillKey = some Example.skill ∧
    ((Example.bundleKinds.replaceAssets Example.nameLe Example.mirrorDeleting
        Example.start.store).toOption.map fun out =>
          (out.db.owned Example.agentKey, out.db.owned Example.skillKey)) =
      some (some (.ofInstance, Example.agent []), none) := by
  decide

theorem replaceAssets_replaces_merging :
    ∃ out, Example.bundleKinds.replaceAssets Example.nameLe Example.merging Example.start.store =
        .ok out ∧
      out.db.owned Example.skillKey = some (.ofInstance, Example.skill) := by
  have hok : ∃ out, Example.bundleKinds.replaceAssets Example.nameLe Example.merging
      Example.start.store = .ok out := by
    cases h : Example.bundleKinds.replaceAssets Example.nameLe Example.merging
        Example.start.store with
    | ok out => exact ⟨out, rfl⟩
    | error e =>
      have hsome : ((Example.bundleKinds.replaceAssets Example.nameLe Example.merging
          Example.start.store).toOption).isSome = true := by decide
      rw [h] at hsome
      cases hsome
  obtain ⟨out, hout⟩ := hok
  have hmerged := (BundleKinds.replaceAssets_replaces Example.start_ok.1.1 hout).2.1 rfl
  exact ⟨out, hout, (hmerged Example.skillKey).trans (by decide)⟩

end Catalyst.Assets
