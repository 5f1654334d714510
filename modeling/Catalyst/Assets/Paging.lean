import Catalyst.Assets.Invariant
import Catalyst.Library.Keyset
import Mathlib

/-!
# Pages of config assets

One page of a kind's assets is read in batches of keys, by name in byte order. What the caller may
not read is left out, and the batches go on until the page is full or the keys are at an end. A
list is answered page by page, each with a cursor to the next.
-/

namespace Catalyst.Assets

open Library Keyset

variable {J : Type}

structure ConfigAssetKey where
  id : Nat
  kind : AssetKindId
  name : String
  scope : AssetScope
  deriving DecidableEq

structure AssetPageInput where
  kind : AssetKindId
  scope : AssetScope
  namePrefix : Option String
  nameContains : Option String
  afterName : Option String
  limit : Nat
  readable : ConfigAssetKey → Bool

abbrev ConfigAsset.name (asset : ConfigAsset J) : String := asset.key.2

def ConfigAsset.pageKey (asset : ConfigAsset J) : ConfigAssetKey := ⟨asset.id, asset.key.1, asset.name, asset.scope⟩

def assetListScanBatch : Nat := 1000

section
variable (ilikeContains : String → String → Bool)

/-- The rows that the filters of the page let through; `ilikeContains` is the database's. -/
def matching (db : Db J) (input : AssetPageInput) : List (ConfigAsset J) :=
  db.assets.filter fun asset =>
    asset.key.1 = input.kind ∧ asset.status = .active ∧ asset.scope = input.scope ∧
      (∀ text ∈ input.namePrefix, text.toList <+: asset.name.toList) ∧
      (∀ text ∈ input.nameContains, ilikeContains asset.name text)

def readKeys (db : Db J) (input : AssetPageInput) (afterName : Option String) : List (ConfigAsset J) :=
  (ordered ConfigAsset.name (behind ConfigAsset.name afterName (matching ilikeContains db input))).take assetListScanBatch

def collect (input : AssetPageInput) (ids : List Nat) (keys : List (ConfigAsset J)) : List Nat :=
  keys.foldl (fun ids asset =>
    if ids.length < input.limit ∧ input.readable asset.pageKey then ids ++ [asset.id] else ids) ids

theorem mem_of_readKeys {db : Db J} {input : AssetPageInput} {last : ConfigAsset J}
    (h : (readKeys ilikeContains db input afterName).getLast? = some last) :
    last ∈ behind ConfigAsset.name afterName (matching ilikeContains db input) :=
  (ordered_perm _).mem_iff.mp (List.mem_of_mem_take (List.mem_of_getLast? h))

/-- The loop over the batches: the ids of the page, and how many reads it took. -/
def scanKeys (db : Db J) (input : AssetPageInput) (afterName : Option String) (ids : List Nat) (reads : Nat) : List Nat × Nat :=
  if ids.length < input.limit then
    let keys := readKeys ilikeContains db input afterName
    let ids := collect input ids keys
    match h : keys.getLast? with
    | none => (ids, reads + 1)
    | some last =>
      if keys.length < assetListScanBatch then (ids, reads + 1)
      else scanKeys db input (some last.name) ids (reads + 1)
  else (ids, reads)
  termination_by (behind ConfigAsset.name afterName (matching ilikeContains db input)).length
  decreasing_by exact length_behind_lt (mem_of_readKeys _ h)

def readRows (db : Db J) (ids : List Nat) : List (ConfigAssetRecord J) :=
  let rows := db.assets.filter fun asset => asset.id ∈ ids ∧ asset.status = .active
  ids.filterMap fun id => (rows.find? (·.id = id)).bind ConfigAsset.record?

def listConfigAssetPage (db : Db J) (input : AssetPageInput) : List (ConfigAssetRecord J) :=
  let ids := (scanKeys ilikeContains db input input.afterName [] 0).1
  if ids = [] then [] else readRows db ids

structure AssetPage (J : Type) where
  items : List (ConfigAssetRecord J)
  nextCursor : Option String

def paginate (rows : List (ConfigAssetRecord J)) (limit : Nat) (after : Option String) : AssetPage J :=
  let sorted := ordered (·.key.2) rows
  let eligible := behind (·.key.2) after sorted
  let page := eligible.take limit
  ⟨page, if limit < eligible.length then page.getLast?.map (·.key.2) else none⟩

/-- `assets.list`, whose store page is one row longer than the page it answers. -/
def assetsList (db : Db J) (input : AssetPageInput) (after : Option String) : AssetPage J :=
  paginate (listConfigAssetPage ilikeContains db { input with afterName := after, limit := input.limit + 1 }) input.limit after

inductive Pages (db : Db J) (input : AssetPageInput) : Option String → List (List (ConfigAssetRecord J)) → Prop
  | last (h : (assetsList ilikeContains db input after).nextCursor = none) :
    Pages db input after [(assetsList ilikeContains db input after).items]
  | next (h : (assetsList ilikeContains db input after).nextCursor = some cursor) (hrest : Pages db input (some cursor) pages) :
    Pages db input after ((assetsList ilikeContains db input after).items :: pages)

def readableAssets (db : Db J) (input : AssetPageInput) (after : Option String) : List (ConfigAsset J) :=
  ordered ConfigAsset.name (behind ConfigAsset.name after
    ((matching ilikeContains db input).filter fun asset => input.readable asset.pageKey))

end

section
variable {ilikeContains : String → String → Bool} {db : Db J} {input : AssetPageInput} {after : Option String} {ids : List Nat}

theorem matching_names (hd : db.RowsOk) : ((matching ilikeContains db input).map ConfigAsset.name).Nodup := by
  have hkeys : ((matching ilikeContains db input).map ConfigAsset.key).Nodup :=
    hd.keys.sublist (List.filter_sublist.map ConfigAsset.key)
  refine List.pairwise_map.mpr ((List.pairwise_map.mp hkeys).imp_of_mem ?_)
  intro a b ha hb hne heq
  have hkind : a.key.1 = b.key.1 := by
    simp only [matching, List.mem_filter, decide_eq_true_eq] at ha hb
    exact ha.2.1.trans hb.2.1.symm
  exact hne (Prod.ext hkind heq)

theorem behind_names (hd : db.RowsOk) :
    ((behind ConfigAsset.name after (matching ilikeContains db input)).map ConfigAsset.name).Nodup :=
  (matching_names hd).sublist (List.filter_sublist.map ConfigAsset.name)

def rowsBehind (ilikeContains : String → String → Bool) (db : Db J) (input : AssetPageInput) (after : Option String) :
    List (ConfigAsset J) :=
  ordered ConfigAsset.name (behind ConfigAsset.name after (matching ilikeContains db input))

theorem readableAssets_eq (hd : db.RowsOk) : readableAssets ilikeContains db input after =
    (rowsBehind ilikeContains db input after).filter fun asset => input.readable asset.pageKey := by
  rw [readableAssets, rowsBehind, ← ordered_filter (behind_names hd), behind, behind, List.filter_filter, List.filter_filter]
  congr 1
  exact List.filter_congr fun asset _ => Bool.and_comm _ _

theorem rowsBehind_last (hd : db.RowsOk)
    (hlast : ((rowsBehind ilikeContains db input after).take n).getLast? = some last) :
    rowsBehind ilikeContains db input (some last.name) = (rowsBehind ilikeContains db input after).drop n :=
  ordered_behind_last (matching_names hd) hlast

theorem rowsBehind_of_short (h : (readKeys ilikeContains db input after).length < assetListScanBatch) :
    rowsBehind ilikeContains db input after = readKeys ilikeContains db input after := by
  rw [readKeys, List.length_take] at h
  exact (List.take_of_length_le (by rw [rowsBehind]; omega)).symm

theorem collect_eq (hids : ids.length ≤ input.limit) (keys : List (ConfigAsset J)) : collect input ids keys =
    (ids ++ (keys.filter fun asset => input.readable asset.pageKey).map ConfigAsset.id).take input.limit := by
  induction keys generalizing ids with
  | nil => simp [collect, List.take_of_length_le hids]
  | cons asset keys ih =>
    rw [collect, List.foldl_cons, ← collect]
    by_cases hreadable : input.readable asset.pageKey = true
    · rw [List.filter_cons, if_pos hreadable, List.map_cons]
      by_cases hfull : ids.length < input.limit
      · rw [if_pos ⟨hfull, hreadable⟩, ih (by simpa using hfull), List.append_assoc, List.singleton_append]
      · have hlength : ids.length = input.limit := Nat.le_antisymm hids (Nat.not_lt.mp hfull)
        rw [if_neg fun h => hfull h.1, ih hids, List.take_left' hlength, List.take_left' hlength]
    · rw [List.filter_cons, if_neg hreadable, if_neg fun h => hreadable h.2, ih hids]

theorem take_take_append (a b : List α) (n : Nat) : (a.take n ++ b).take n = (a ++ b).take n := by
  rw [List.take_append, List.take_append, List.take_take, Nat.min_self, List.length_take]
  congr 2
  omega

theorem scanKeys_ids (hd : db.RowsOk) (hids : ids.length ≤ input.limit) (reads : Nat) :
    (scanKeys ilikeContains db input after ids reads).1 =
      (ids ++ (readableAssets ilikeContains db input after).map ConfigAsset.id).take input.limit := by
  rw [readableAssets_eq hd]
  fun_induction scanKeys ilikeContains db input after ids reads with
  | case1 after ids reads hlt keys collected hlast =>
    have hkeys : keys = [] := List.getLast?_eq_none_iff.mp hlast
    have hshort : keys.length < assetListScanBatch := by simp [hkeys, assetListScanBatch]
    have hrows : rowsBehind ilikeContains db input after = keys := rowsBehind_of_short hshort
    rw [hrows]
    exact collect_eq hids keys
  | case2 after ids reads hlt keys collected last hlast hshort =>
    have hrows : rowsBehind ilikeContains db input after = keys := rowsBehind_of_short hshort
    rw [hrows]
    exact collect_eq hids keys
  | case3 after ids reads hlt keys collected last hlast hfull ih =>
    have hcollected : collected = _ := collect_eq hids keys
    have hbatch : rowsBehind ilikeContains db input after = keys ++ rowsBehind ilikeContains db input (some last.name) := by
      rw [rowsBehind_last hd hlast]
      exact (List.take_append_drop _ _).symm
    rw [ih (by rw [hcollected]; exact List.length_take_le _ _), hcollected, take_take_append, hbatch, List.filter_append,
      List.map_append, List.append_assoc]
  | case4 after ids reads hfull =>
    rw [List.take_left' (Nat.le_antisymm hids (Nat.not_lt.mp hfull))]

theorem scanKeys_reads (hd : db.RowsOk) (reads : Nat) : (scanKeys ilikeContains db input after ids reads).2 ≤
    reads + (rowsBehind ilikeContains db input after).length / assetListScanBatch + 1 := by
  fun_induction scanKeys ilikeContains db input after ids reads with
  | case1 after ids reads hlt keys collected hlast =>
    simp only [assetListScanBatch]
    omega
  | case2 after ids reads hlt keys collected last hlast hshort =>
    simp only [assetListScanBatch]
    omega
  | case3 after ids reads hlt keys collected last hlast hfull ih =>
    have hlength : (rowsBehind ilikeContains db input after).length =
        keys.length + (rowsBehind ilikeContains db input (some last.name)).length := by
      rw [rowsBehind_last hd hlast, ← List.length_append]
      exact congrArg List.length (List.take_append_drop _ _).symm
    simp only [assetListScanBatch] at hfull ih ⊢
    omega
  | case4 after ids reads hfull =>
    simp only [assetListScanBatch]
    omega

theorem mem_readableAssets (h : asset ∈ readableAssets ilikeContains db input after) :
    asset ∈ db.assets ∧ asset.status = .active ∧ ∀ name ∈ after, name < asset.name := by
  obtain ⟨hmatches, hafter⟩ := mem_behind.mp ((ordered_perm _).mem_iff.mp h)
  have hmem := List.mem_filter.mp (List.mem_filter.mp hmatches).1
  exact ⟨hmem.1, (of_decide_eq_true hmem.2).2.1, hafter⟩

theorem readRows_eq (hd : db.RowsOk) {assets : List (ConfigAsset J)} (h : ∀ asset ∈ assets, asset ∈ db.assets ∧ asset.status = .active) :
    readRows db (assets.map ConfigAsset.id) = assets.filterMap ConfigAsset.record? := by
  rw [readRows, List.filterMap_map]
  refine List.filterMap_congr fun asset hasset => ?_
  obtain ⟨hmem, hactive⟩ := h asset hasset
  have hids := hd.ids.sublist ((List.filter_sublist (l := db.assets)
    (p := fun a => decide (a.id ∈ assets.map ConfigAsset.id ∧ a.status = .active))).map ConfigAsset.id)
  have hfound := (find?_key_eq_some hids (x := asset) (k := asset.id)).mpr
    ⟨List.mem_filter.mpr ⟨hmem, decide_eq_true ⟨List.mem_map_of_mem hasset, hactive⟩⟩, rfl⟩
  simp only [Function.comp_apply, hfound, Option.bind_some]

theorem record?_isSome (hd : db.RowsOk) (h : asset ∈ db.assets) : ∃ record, asset.record? = some record ∧ record.key = asset.key := by
  have hok := (hd.assets asset h).toRevisionsOk
  have hactive : asset.activeRevision?.isSome := by
    simpa [hok.active] using hok.nonempty
  obtain ⟨revision, hrevision⟩ := Option.isSome_iff_exists.mp hactive
  exact ⟨_, by rw [ConfigAsset.record?, hrevision]; rfl, rfl⟩

def records (assets : List (ConfigAsset J)) : List (ConfigAssetRecord J) := assets.filterMap ConfigAsset.record?

theorem listConfigAssetPage_eq (hd : db.RowsOk) : listConfigAssetPage ilikeContains db input =
    records ((readableAssets ilikeContains db input input.afterName).take input.limit) := by
  have hids : (scanKeys ilikeContains db input input.afterName [] 0).1 = _ := scanKeys_ids hd (Nat.zero_le _) 0
  rw [List.nil_append, ← List.map_take] at hids
  rw [listConfigAssetPage, hids]
  split_ifs with hnil
  · rw [List.map_eq_nil_iff.mp hnil]
    rfl
  · refine readRows_eq hd fun asset hasset => ?_
    obtain ⟨hmem, hactive, -⟩ := mem_readableAssets (List.mem_of_mem_take hasset)
    exact ⟨hmem, hactive⟩

theorem records_key (hd : db.RowsOk) {assets : List (ConfigAsset J)} (h : ∀ asset ∈ assets, asset ∈ db.assets) :
    (records assets).map (·.key) = assets.map (·.key) := by
  induction assets with
  | nil => rfl
  | cons asset assets ih =>
    obtain ⟨hasset, hassets⟩ := List.forall_mem_cons.mp h
    obtain ⟨record, hrecord, hkey⟩ := record?_isSome hd hasset
    rw [records, List.filterMap_cons_some hrecord, List.map_cons, List.map_cons, hkey, ← records, ih hassets]

theorem records_take (hd : db.RowsOk) {assets : List (ConfigAsset J)} (h : ∀ asset ∈ assets, asset ∈ db.assets) (n : Nat) :
    (records assets).take n = records (assets.take n) := by
  induction assets generalizing n with
  | nil => simp [records]
  | cons asset assets ih =>
    obtain ⟨hasset, hassets⟩ := List.forall_mem_cons.mp h
    obtain ⟨record, hrecord, -⟩ := record?_isSome hd hasset
    cases n with
    | zero => rfl
    | succ n =>
      rw [records, List.filterMap_cons_some hrecord, List.take_succ_cons, List.take_succ_cons, records,
        List.filterMap_cons_some hrecord, ← records, ← records, ih hassets]

theorem readableAssets_last (hd : db.RowsOk)
    (hlast : ((readableAssets ilikeContains db input after).take n).getLast? = some last) :
    readableAssets ilikeContains db input (some last.name) = (readableAssets ilikeContains db input after).drop n :=
  ordered_behind_last ((matching_names hd).sublist (List.filter_sublist.map ConfigAsset.name)) hlast

theorem readableAssets_sorted (hd : db.RowsOk) :
    (readableAssets ilikeContains db input after).Pairwise (ConfigAsset.name · < ConfigAsset.name ·) :=
  pairwise_lt_ordered ((matching_names hd).sublist ((List.filter_sublist.trans List.filter_sublist).map ConfigAsset.name))

theorem assetsList_eq (hd : db.RowsOk) : assetsList ilikeContains db input after =
    ⟨records ((readableAssets ilikeContains db input after).take input.limit),
      if input.limit < (readableAssets ilikeContains db input after).length then
        ((readableAssets ilikeContains db input after).take input.limit).getLast?.map (·.name) else none⟩ := by
  have hmem (n : Nat) : ∀ asset ∈ (readableAssets ilikeContains db input after).take n, asset ∈ db.assets :=
    fun asset hasset => (mem_readableAssets (List.mem_of_mem_take hasset)).1
  have hrows : listConfigAssetPage ilikeContains db { input with afterName := after, limit := input.limit + 1 } =
      records ((readableAssets ilikeContains db input after).take (input.limit + 1)) := listConfigAssetPage_eq hd
  have hkeys := records_key hd (hmem (input.limit + 1))
  have hbehind : (readableAssets ilikeContains db input after).Pairwise (·.name < ·.name) := readableAssets_sorted hd
  have hassets := hbehind.sublist (List.take_sublist (input.limit + 1) _)
  set page := (readableAssets ilikeContains db input after).take (input.limit + 1) with hpage
  have hsorted : (records page).Pairwise (·.key.2 < ·.key.2) := by
    have hpairs : (page.map (·.key)).Pairwise (·.2 < ·.2) := List.pairwise_map.mpr hassets
    rw [← hkeys] at hpairs
    exact (List.pairwise_map (f := ConfigAssetRecord.key) (R := fun k l : AssetKey => k.2 < l.2)).mp hpairs
  have hbehind : behind (·.key.2) after (records page) = records page := by
    rw [behind, List.filter_eq_self]
    intro record hrecord
    have hkey : record.key ∈ page.map (·.key) := hkeys ▸ List.mem_map_of_mem hrecord
    obtain ⟨asset, hasset, heq⟩ := List.mem_map.mp hkey
    have hafter := (mem_readableAssets (List.mem_of_mem_take hasset)).2.2
    rw [← heq]
    simpa using hafter
  have hlength : (records page).length = page.length := by
    rw [← List.length_map (f := (·.key)), hkeys, List.length_map]
  have htake : (records page).take input.limit = records ((readableAssets ilikeContains db input after).take input.limit) := by
    rw [records_take hd (hmem _), List.take_take, Nat.min_eq_left (Nat.le_succ _)]
  have hlast : (records ((readableAssets ilikeContains db input after).take input.limit)).getLast?.map (·.key.2) =
      ((readableAssets ilikeContains db input after).take input.limit).getLast?.map (·.name) := by
    have hnames := congrArg (fun keys => keys.getLast?.map (·.2)) (records_key hd (hmem input.limit))
    simp only [List.getLast?_map, Option.map_map] at hnames
    exact hnames
  have hmore : input.limit < page.length ↔ input.limit < (readableAssets ilikeContains db input after).length := by
    rw [hpage, List.length_take]
    omega
  rw [assetsList, hrows, paginate]
  simp only [ordered_eq_self hsorted, hbehind, hlength, hlast, htake, hmore]

theorem assetsList_next (hd : db.RowsOk) (h : (assetsList ilikeContains db input after).nextCursor = some cursor) :
    readableAssets ilikeContains db input (some cursor) = (readableAssets ilikeContains db input after).drop input.limit ∧
      input.limit < (readableAssets ilikeContains db input after).length := by
  rw [assetsList_eq hd] at h
  simp only at h
  split_ifs at h with hmore
  obtain ⟨last, hlast, rfl⟩ := Option.map_eq_some_iff.mp h
  exact ⟨readableAssets_last hd hlast, hmore⟩

theorem assetsList_end (hd : db.RowsOk) (hlimit : 0 < input.limit)
    (h : (assetsList ilikeContains db input after).nextCursor = none) :
    (readableAssets ilikeContains db input after).length ≤ input.limit := by
  rw [assetsList_eq hd] at h
  simp only at h
  split_ifs at h with hmore
  · have hnil := List.getLast?_eq_none_iff.mp (Option.map_eq_none_iff.mp h)
    have hlength := congrArg List.length hnil
    rw [List.length_take, List.length_nil] at hlength
    omega
  · omega

theorem Pages.flatten (hd : db.RowsOk) (hlimit : 0 < input.limit) (h : Pages ilikeContains db input after pages) :
    pages.flatten = records (readableAssets ilikeContains db input after) := by
  induction h with
  | last h =>
    rw [assetsList_eq hd, List.flatten_cons, List.flatten_nil, List.append_nil]
    simp only [List.take_of_length_le (assetsList_end hd hlimit h)]
  | next h hrest ih =>
    obtain ⟨hbehind, -⟩ := assetsList_next hd h
    rw [List.flatten_cons, ih, hbehind, assetsList_eq hd]
    simp only [records]
    rw [← List.filterMap_append, List.take_append_drop]

theorem exists_pages (hd : db.RowsOk) (hlimit : 0 < input.limit) (after : Option String) :
    ∃ pages, Pages ilikeContains db input after pages := by
  induction hlength : (readableAssets ilikeContains db input after).length using Nat.strongRecOn generalizing after with
  | ind n ih =>
    cases hnext : (assetsList ilikeContains db input after).nextCursor with
    | none => exact ⟨_, .last hnext⟩
    | some cursor =>
      obtain ⟨hbehind, hmore⟩ := assetsList_next hd hnext
      have hlt : (readableAssets ilikeContains db input (some cursor)).length < n := by
        rw [hbehind, List.length_drop]
        omega
      obtain ⟨pages, hpages⟩ := ih _ hlt (some cursor) rfl
      exact ⟨_, .next hnext hpages⟩

/-- A page holds the first readable assets behind its cursor, each with its record; the loop over the batches
takes one read more than there are full batches; and the pages of a list, followed from the start,
end and hold every readable asset once, in order. -/
theorem config_asset_pages (hd : db.RowsOk) :
    (listConfigAssetPage ilikeContains db input).map some =
        ((readableAssets ilikeContains db input input.afterName).take input.limit).map ConfigAsset.record? ∧
      (scanKeys ilikeContains db input input.afterName [] 0).2 ≤
        (matching ilikeContains db input).length / assetListScanBatch + 1 ∧
      (0 < input.limit → (∃ pages, Pages ilikeContains db input none pages) ∧
        ∀ pages, Pages ilikeContains db input none pages →
          pages.flatten.map some = (readableAssets ilikeContains db input none).map ConfigAsset.record?) := by
  have hsome {assets : List (ConfigAsset J)} (h : ∀ asset ∈ assets, asset ∈ db.assets) :
      (records assets).map some = assets.map ConfigAsset.record? := by
    induction assets with
    | nil => rfl
    | cons asset assets ih =>
      obtain ⟨hasset, hassets⟩ := List.forall_mem_cons.mp h
      obtain ⟨record, hrecord, -⟩ := record?_isSome hd hasset
      rw [records, List.filterMap_cons_some hrecord, List.map_cons, List.map_cons, hrecord, ← records, ih hassets]
  refine ⟨?_, ?_, fun hlimit => ⟨exists_pages hd hlimit none, fun pages hpages => ?_⟩⟩
  · rw [listConfigAssetPage_eq hd, hsome fun asset hasset => (mem_readableAssets (List.mem_of_mem_take hasset)).1]
  · have hreads : (scanKeys ilikeContains db input input.afterName [] 0).2 ≤ _ := scanKeys_reads hd 0
    have hrows : (rowsBehind ilikeContains db input input.afterName).length ≤ (matching ilikeContains db input).length :=
      (ordered_perm _).length_eq.le.trans (List.length_filter_le _ _)
    have hbatches := Nat.div_le_div_right (c := assetListScanBatch) hrows
    omega
  · rw [hpages.flatten hd hlimit, hsome fun asset hasset => (mem_readableAssets hasset).1]

end

namespace Example

def threeSkills : AssetCall String := .applyConfigAssetMutations
  { baseVersion := some 0
    mutations := [.setDefaultAgent (some "main"), .upsert (.agent, "main") "definition" false none,
      .upsert (.skill, "c") "third" false none, .upsert (.skill, "a") "first" false none,
      .upsert (.skill, "b") "second" false none] }

def withSkills : Instance String := (assetCalls String).after .empty [threeSkills]

def skillPages : AssetPageInput := ⟨.skill, .ofInstance, none, none, none, 1, fun asset => asset.name ≠ "b"⟩

theorem withSkills_rows : withSkills.toDb.RowsOk := by
  have hallows : (assetCalls String).Allows .empty [threeSkills] := by decide
  have hinit : ∀ s, (assetCalls String).init s → s.Ok := by
    rintro s rfl
    exact Instance.empty_ok
  have hreachable : (assetCalls String).Reachable withSkills := ⟨.empty, _, rfl, hallows.run⟩
  exact (hreachable.invariant hinit assetCalls_preserves).toRowsOk

end Example

theorem config_asset_pages_skills :
    (readableAssets (fun _ _ => true) Example.withSkills.toDb Example.skillPages none).length = 2 ∧
      (∃ pages, Pages (fun _ _ => true) Example.withSkills.toDb Example.skillPages none pages) ∧
      ∀ pages, Pages (fun _ _ => true) Example.withSkills.toDb Example.skillPages none pages → pages.flatten.map some =
        (readableAssets (fun _ _ => true) Example.withSkills.toDb Example.skillPages none).map ConfigAsset.record? :=
  ⟨(ordered_perm _).length_eq.trans (by rw [behind_none]; decide), (config_asset_pages Example.withSkills_rows).2.2 (by decide)⟩

end Catalyst.Assets
