import Catalyst.Assets.Effect
import Catalyst.Library.Processes
import Mathlib.Data.Char
import Mathlib.Data.List.Lex

/-!
# Writers of config assets

Every write reads the active set, validates the set its batch would leave, and
hands the batch to the store. The set is read and validated before the store's
lock is taken, and under the lock only the bases the batch sends are compared.

A batch applied to the set it was validated on leaves a set without issues. One
applied to another set may not: a batch that adds a reference and one that
deletes its target touch different assets, and both pass.
-/

namespace Catalyst.Assets

open Library Library.Check Library.Processes

section

variable {J : Type}

-- -----------------
-- Candidates
-- -----------------

structure Draft (J : Type) where
  defaultAgentName : Option String
  definitions : AssetKindId → OrderedMap (Option String) J

namespace Draft

def ofSet (readName : J → Option String) (set : AssetSet J) : Draft J where
  defaultAgentName := set.defaultAgentName
  definitions kind := OrderedMap.setAll (fun d => some (readName d)) id (set.definitions kind) []

def edit (draft : Draft J) : ConfigAssetMutation J → Draft J
  | .upsert key config _ _ => { draft with
      definitions := Function.update draft.definitions key.1
        ((draft.definitions key.1).set (some key.2) config) }
  | .delete key _ => { draft with
      definitions := Function.update draft.definitions key.1
        ((draft.definitions key.1).erase (some key.2)) }
  | .setDefaultAgent agentName => { draft with defaultAgentName := agentName }

def set (draft : Draft J) : AssetSet J := ⟨draft.defaultAgentName, fun kind => (draft.definitions kind).values⟩

end Draft

def candidate (readName : J → Option String) (stored : AssetSet J)
    (mutations : List (ConfigAssetMutation J)) : AssetSet J :=
  (mutations.foldl Draft.edit (.ofSet readName stored)).set

structure Draft.Ok (readName : J → Option String) (draft : Draft J) : Prop where
  indexed : ∀ kind, OrderedMap.Indexed readName (draft.definitions kind)
  named : ∀ kind, ∀ d ∈ (draft.definitions kind).values, ∃ name, readName d = some name

def Draft.map (draft : Draft J) : AssetMap J :=
  ⟨draft.defaultAgentName, fun key => OrderedMap.get? (draft.definitions key.1) (some key.2)⟩

variable {readName : J → Option String} {draft : Draft J} {set : AssetSet J}

theorem Draft.ofSet_ok (h : set.WellNamed readName) :
    (Draft.ofSet readName set).Ok readName ∧ (Draft.ofSet readName set).map = set.map readName := by
  have hindexed : ∀ kind, OrderedMap.Indexed readName ((Draft.ofSet readName set).definitions kind) :=
    fun kind => OrderedMap.Indexed.nil.setAll _
  have hget : ∀ kind name d, OrderedMap.get? ((Draft.ofSet readName set).definitions kind) name = some d ↔
      d ∈ set.definitions kind ∧ readName d = name := by
    intro kind name d
    simp only [Draft.ofSet, OrderedMap.get?_setAll, OrderedMap.get?_nil, Option.or_none, Option.map_id, id,
      Option.some.injEq]
    constructor
    · intro hd
      simpa using List.mem_filter.mp (List.mem_of_getLast? hd)
    · rintro ⟨hd, rfl⟩
      rw [filter_eq_singleton (h.nodup kind) (fun x _ hx => hx) hd rfl]
      rfl
  refine ⟨⟨hindexed, fun kind d hd => ?_⟩, AssetMap.ext rfl (funext fun key => Option.ext fun d => ?_)⟩
  · exact h.named kind d ((hget kind _ d).mp ((hindexed kind).mem_values.mp hd)).1
  · exact (hget key.1 _ d).trans (find?_key_eq_some (h.nodup key.1)).symm

theorem Draft.Ok.update_ok {m : OrderedMap (Option String) J} (h : draft.Ok readName)
    (hi : OrderedMap.Indexed readName m) (hn : ∀ d ∈ m.values, ∃ name, readName d = some name)
    (hself : OrderedMap.get? m (some key.2) = v)
    (hother : ∀ name, some key.2 ≠ name →
      OrderedMap.get? m name = OrderedMap.get? (draft.definitions key.1) name) :
    ({ draft with definitions := Function.update draft.definitions key.1 m } : Draft J).Ok readName ∧
      ({ draft with definitions := Function.update draft.definitions key.1 m } : Draft J).map =
        { draft.map with definition := Function.update draft.map.definition key v } := by
  refine ⟨⟨fun kind => ?_, fun kind d hd => ?_⟩, AssetMap.ext rfl (funext fun k => ?_)⟩
  · by_cases hk : kind = key.1
    · subst hk
      simpa using hi
    · simpa [hk] using h.indexed kind
  · by_cases hk : kind = key.1
    · subst hk
      exact hn d (by simpa using hd)
    · exact h.named kind d (by simpa [hk] using hd)
  · by_cases hk : k = key
    · subst hk
      simpa [map] using hself
    · simp only [map, Function.update_of_ne hk]
      by_cases hk₁ : k.1 = key.1
      · have hk₂ : some key.2 ≠ some k.2 := fun he => hk (Prod.ext hk₁ (Option.some.inj he).symm)
        simpa [hk₁] using hother _ hk₂
      · simp [hk₁]

theorem Draft.edit_ok {m : ConfigAssetMutation J} (h : draft.Ok readName) (hm : m.Named readName) :
    (draft.edit m).Ok readName ∧ (draft.edit m).map = m.on draft.map := by
  cases m with
  | setDefaultAgent agentName => exact ⟨⟨h.indexed, h.named⟩, rfl⟩
  | upsert key config revert scope =>
    refine h.update_ok ((h.indexed key.1).set hm) ?_ (OrderedMap.get?_set_self _)
      fun _ hne => OrderedMap.get?_set_of_ne hne
    intro d hd
    obtain ⟨e, he, rfl⟩ := List.mem_map.mp hd
    rcases OrderedMap.mem_set he with rfl | he
    · exact ⟨_, hm⟩
    · exact h.named _ _ (List.mem_map_of_mem he)
  | delete key scope =>
    refine h.update_ok (h.indexed key.1).erase ?_ (OrderedMap.get?_erase_self _)
      fun _ hne => OrderedMap.get?_erase_of_ne hne
    intro d hd
    obtain ⟨e, he, rfl⟩ := List.mem_map.mp hd
    exact h.named _ _ (List.mem_map_of_mem (List.mem_of_mem_filter he))

theorem Draft.edits_ok {ms : List (ConfigAssetMutation J)} (h : draft.Ok readName)
    (hm : ∀ m ∈ ms, m.Named readName) :
    (ms.foldl Draft.edit draft).Ok readName ∧
      (ms.foldl Draft.edit draft).map = ms.foldl ConfigAssetMutation.on draft.map := by
  induction ms generalizing draft with
  | nil => exact ⟨h, rfl⟩
  | cons m ms ih =>
    obtain ⟨h₁, hmap₁⟩ := Draft.edit_ok h (hm m List.mem_cons_self)
    rw [List.foldl_cons, List.foldl_cons, ← hmap₁]
    exact ih h₁ fun m hm' => hm m (List.mem_cons_of_mem _ hm')

theorem Draft.Ok.set_wellNamed (h : draft.Ok readName) : draft.set.WellNamed readName where
  named := h.named
  nodup kind := (h.indexed kind).map_values ▸ (h.indexed kind).nodup

theorem Draft.Ok.set_map (h : draft.Ok readName) : draft.set.map readName = draft.map := by
  refine AssetMap.ext rfl (funext fun key => Option.ext fun d => ?_)
  refine (find?_key_eq_some (h.set_wellNamed.nodup key.1)).trans ?_
  constructor
  · rintro ⟨hd, hn⟩
    have hg := (h.indexed key.1).mem_values.mp hd
    rwa [hn] at hg
  · intro hg
    have hn : readName d = some key.2 := (h.indexed key.1).named _ (OrderedMap.mem_of_get? hg)
    exact ⟨(h.indexed key.1).mem_values.mpr (hn ▸ hg), hn⟩

theorem candidate_same {db db' : Db J} (hd : db.Ok readName)
    (hm : ∀ m ∈ input.mutations, m.Named readName)
    (h : applyConfigAssetMutations input db = .ok db') (nameLe : String → String → Bool) :
    (candidate readName (db.set nameLe) input.mutations).Same (db'.set nameLe) := by
  obtain ⟨hof, hofmap⟩ := Draft.ofSet_ok (hd.set_wellNamed nameLe)
  obtain ⟨hdraft, hmap⟩ := Draft.edits_ok hof hm
  obtain ⟨hd', hmap'⟩ := applyConfigAssetMutations_ok hd hm h
  refine hdraft.set_wellNamed.same (hd'.set_wellNamed nameLe) ?_
  rw [hdraft.set_map, hmap, hofmap, hd.set_map, hd'.set_map, hmap']

-- -----------------
-- Writers
-- -----------------

def assertScopeCanOwn (key : AssetKey) : Option AssetScope → Except AppError Unit
  | some (.ofWorkspace _) =>
    .error ⟨.validationFailed, s!"A {key.1.text} cannot be owned by a workspace"⟩
  | _ => .ok ()

def assertScopesCanOwn (mutations : List (ConfigAssetMutation J)) : Except AppError Unit :=
  mutations.forM fun
    | .upsert key _ _ scope => assertScopeCanOwn key scope
    | _ => .ok ()

/-- A batch as a caller builds it: each definition carries the name it is written under. -/
structure Batch (kinds : AssetKindRegistry J) where
  input : MutationInput J
  named : ∀ m ∈ input.mutations, m.Named kinds.readDefinitionName
  /-- Which of the two reads that go at once comes first. -/
  stateFirst : Bool

def setsInitialDefault (stored : AssetSet J) (kind : AssetKindId) : Bool :=
  kind = .agent && (stored.definitions kind).isEmpty && stored.defaultAgentName.isNone

def clearsLastDefault (stored : AssetSet J) (key : AssetKey) : Bool :=
  key.1 = .agent && (stored.definitions key.1).length = 1 && stored.defaultAgentName = some key.2

/-- The batch of a put, or of a revert to an earlier definition, of one asset. -/
def putBatch (kinds : AssetKindRegistry J) (stored : AssetSet J) (key : AssetKey) (config : J)
    (hname : kinds.readDefinitionName config = some key.2) (expectedRevision : Option Nat)
    (revert stateFirst : Bool) : Batch kinds where
  input :=
    { baseRevisions := some [(key, expectedRevision)]
      baseDefaultAgentName := if setsInitialDefault stored key.1 then some none else none
      mutations := .upsert key config revert (some .ofInstance) ::
        if setsInitialDefault stored key.1 then [.setDefaultAgent (some key.2)] else [] }
  named m hm := by
    rcases List.mem_cons.mp hm with rfl | hm
    · exact hname
    · split at hm <;> simp at hm
      subst hm
      exact trivial
  stateFirst := stateFirst

def deleteBatch (kinds : AssetKindRegistry J) (stored : AssetSet J) (key : AssetKey)
    (expectedRevision : Nat) (stateFirst : Bool) : Batch kinds where
  input :=
    { baseRevisions := some [(key, some expectedRevision)]
      baseDefaultAgentName := if clearsLastDefault stored key then some (some key.2) else none
      mutations := .delete key (some .ofInstance) ::
        if clearsLastDefault stored key then [.setDefaultAgent none] else [] }
  named m hm := by
    rcases List.mem_cons.mp hm with rfl | hm
    · exact trivial
    · split at hm <;> simp at hm
      subst hm
      exact trivial
  stateFirst := stateFirst

inductive WritePhase (J : Type)
  | begun
  | stateRead (defaultAgentName : Option String)
  | assetsRead (assets : List (ConfigAssetRecord J))
  | read (stored : AssetSet J)
  | validated (stored : AssetSet J)

structure Write (kinds : AssetKindRegistry J) where
  batch : Batch kinds
  phase : WritePhase J

inductive WriteAnswer (kinds : AssetKindRegistry J)
  | applied (batch : Batch kinds)
  | refused (error : AppError)

namespace Write

variable {kinds : AssetKindRegistry J} (nameLe : String → String → Bool)

def goTo (t : Write kinds) (phase : WritePhase J) : Write kinds := { t with phase := phase }

/-- One statement of `applyValidatedConfigAssetMutations`, or the check between them. -/
def step (db : Db J) (t : Write kinds) :
    Option (WriteAnswer kinds) × Option (Write kinds) × Db J :=
  match t.phase with
  | .begun =>
    match assertScopesCanOwn t.batch.input.mutations with
    | .error e => (some (.refused e), none, db)
    | .ok _ =>
      let first : WritePhase J := if t.batch.stateFirst then .stateRead db.defaultAgentName
        else .assetsRead (listActiveConfigAssets nameLe db)
      (none, some (t.goTo first), db)
  | .stateRead name => (none, some (t.goTo (.read (assetSetOf (listActiveConfigAssets nameLe db) name))), db)
  | .assetsRead assets => (none, some (t.goTo (.read (assetSetOf assets db.defaultAgentName))), db)
  | .read stored =>
    match kinds.validateAssetSet
        (candidate kinds.readDefinitionName stored t.batch.input.mutations) stored with
    | .error e => (some (.refused e), none, db)
    | .ok _ => (none, some (t.goTo (.validated stored)), db)
  | .validated _ =>
    match applyConfigAssetMutations t.batch.input db with
    | .error e => (some (.refused e), none, db)
    | .ok written => (some (.applied t.batch), none, written)

end Write

/-- Any number of writers, each holding no lock between its statements. -/
def writers (kinds : AssetKindRegistry J) (nameLe : String → String → Bool) :
    Processes (Db J) (Batch kinds) (Write kinds) Empty
      (WriteAnswer kinds) where
  start batch := ⟨batch, .begun⟩
  blocks _ _ := False
  step := Write.step nameLe
  env _ e := e.elim

abbrev WriterPool (kinds : AssetKindRegistry J) := Pool (Db J) (Write kinds)

abbrev WriterMove (kinds : AssetKindRegistry J) := Move (Batch kinds) Empty

def assetSystem (kinds : AssetKindRegistry J) (nameLe : String → String → Bool) :
    Machine (WriterPool kinds) (WriterMove kinds) (Option (WriteAnswer kinds)) :=
  (writers kinds nameLe).machine
    (fun db => db.Ok kinds.readDefinitionName ∧ kinds.findAssetSetIssues (db.set nameLe) = [])
    fun _ _ => True

variable {kinds : AssetKindRegistry J} {nameLe : String → String → Bool}

def Write.FindsSetRead (nameLe : String → String → Bool) (db : Db J) (t : Write kinds) : Prop :=
  match t.phase with
  | .validated stored => db.set nameLe = stored
  | _ => True

instance [DecidableEq J] {t : Write kinds} : Decidable (t.FindsSetRead nameLe db) := by
  unfold Write.FindsSetRead
  split <;> infer_instance

def AppliesToSetRead (kinds : AssetKindRegistry J) (nameLe : String → String → Bool)
    (s : WriterPool kinds) : WriterMove kinds → Prop
  | .advance pid => ∀ t ∈ s.at? pid, t.FindsSetRead nameLe s.store
  | _ => True

instance [DecidableEq J] : DecidablePred (AppliesToSetRead kinds nameLe s)
  | .advance pid => inferInstanceAs (Decidable (∀ t ∈ s.at? pid, t.FindsSetRead nameLe s.store))
  | .start _ | .abort _ | .env _ => .isTrue trivial

def Write.Validated (t : Write kinds) : Prop :=
  match t.phase with
  | .validated stored =>
    kinds.Sound (candidate kinds.readDefinitionName stored t.batch.input.mutations)
  | _ => True

def soundness (kinds : AssetKindRegistry J) (nameLe : String → String → Bool) :
    Assertions (Db J) (Write kinds) (WriteAnswer kinds) where
  holds _ db := db.Ok kinds.readDefinitionName ∧ kinds.Sound (db.set nameLe)
  relies _ _ t := t.Validated
  apart _ _ := True

theorem validateAssetSet_ok {set : AssetSet J} (h : kinds.validateAssetSet set stored = .ok u) : kinds.Sound set := by
  obtain ⟨_, hi, -⟩ := bind_ok.mp h
  exact AssetKindRegistry.findAssetSetIssues_eq_nil.mp (require_ok.mp hi)

theorem Write.step_ok {db : Db J} {t : Write kinds}
    (hd : db.Ok kinds.readDefinitionName ∧ kinds.Sound (db.set nameLe))
    (ht : t.Validated) (hread : t.FindsSetRead nameLe db) :
    ((Write.step nameLe db t).2.2.Ok kinds.readDefinitionName ∧
      kinds.Sound ((Write.step nameLe db t).2.2.set nameLe)) ∧
    ∀ t' ∈ (Write.step nameLe db t).2.1, t'.Validated := by
  unfold Write.step
  cases hp : t.phase with
  | begun =>
    simp only
    split
    · exact ⟨hd, by simp⟩
    · refine ⟨hd, fun t' ht' => ?_⟩
      obtain rfl := Option.some.inj ht'
      cases t.batch.stateFirst <;> exact trivial
  | stateRead | assetsRead =>
    refine ⟨hd, fun t' ht' => ?_⟩
    obtain rfl := Option.some.inj ht'
    exact trivial
  | read stored =>
    simp only
    split
    · exact ⟨hd, by simp⟩
    · rename_i hv
      refine ⟨hd, fun t' ht' => ?_⟩
      obtain rfl := Option.some.inj ht'
      exact validateAssetSet_ok hv
  | validated stored =>
    simp only
    split
    · exact ⟨hd, by simp⟩
    · rename_i written hw
      obtain rfl : db.set nameLe = stored := by simpa [Write.FindsSetRead, hp] using hread
      have hs : kinds.Sound (candidate kinds.readDefinitionName (db.set nameLe)
          t.batch.input.mutations) := by
        simpa [Write.Validated, hp] using ht
      refine ⟨⟨(applyConfigAssetMutations_ok hd.1 t.batch.named hw).1, ?_⟩, by simp⟩
      exact (candidate_same hd.1 t.batch.named hw nameLe).sound hs

theorem soundness_inductive (kinds : AssetKindRegistry J) (nameLe : String → String → Bool) :
    (writers kinds nameLe).Inductive (soundness kinds nameLe) (AppliesToSetRead kinds nameLe) where
  symm _ _ h := h
  start _ _ _ _ _ := ⟨trivial, fun _ => trivial⟩
  step log s pid t hs ha hat ht _ := by
    obtain ⟨hstore, hnext⟩ := Write.step_ok hs.holds ht (ha t hat)
    exact ⟨⟨hstore, fun _ _ hq => hq⟩, fun t' ht' => ⟨hnext t' ht', fun _ _ _ _ => trivial⟩⟩
  env _ _ e := e.elim

/-- Where every batch is applied to the set that was read for it, the active set never has an
issue, and an active agent uses only active skills and enabled tools. -/
theorem stored_set_stays_valid {s : WriterPool kinds}
    (hs : ((assetSystem kinds nameLe).when (AppliesToSetRead kinds nameLe)).Reachable s) :
    kinds.findAssetSetIssues (s.store.set nameLe) = [] ∧
      ∀ agent ∈ kinds.agents (s.store.set nameLe),
        (∀ name ∈ agent.skillNames, ∃ asset ∈ s.store.assets,
          asset.key = (.skill, name) ∧ asset.status = .active) ∧
        ∀ name ∈ agent.toolNames, name ∈ kinds.validationRefs.enabledToolNames := by
  obtain ⟨s₀, h, ⟨⟨hok, hissues⟩, hidle, -⟩, hr⟩ := hs
  have hstart : (soundness kinds nameLe).Ok [] s₀ :=
    .of_idle hidle ⟨hok, AssetKindRegistry.findAssetSetIssues_eq_nil.mp hissues⟩
  obtain ⟨hd, hsound⟩ :=
    ((soundness_inductive kinds nameLe).run_ok (run_of_when _ hr) hstart).holds
  refine ⟨AssetKindRegistry.findAssetSetIssues_eq_nil.mpr hsound, fun agent ha => ⟨?_, ?_⟩⟩
  · intro name hn
    obtain ⟨d, hm, hname⟩ := hsound.skill_mem ha hn
    obtain ⟨asset, hasset, hkind, hac⟩ := mem_set_definitions.mp hm
    have hname' := (hd.assets asset hasset).active_name hac
    refine ⟨asset, hasset, Prod.ext hkind (Option.some.inj (hname'.symm.trans hname)), ?_⟩
    exact ConfigAsset.status_of_active? hac
  · exact (hsound.agents agent ha).tools

end

namespace Example

abbrev Definition := AgentConfig ⊕ SkillConfig

def kinds : AssetKindRegistry Definition where
  readDefinitionName := Sum.elim (some ·.name) (some ·.name)
  agent :=
    { safeParse := Sum.elim .ok fun _ => .error [⟨"Invalid input", []⟩]
      keeps_name := by rintro (a | a) b h <;> cases h; rfl
      says_why := by rintro (a | a) b h <;> cases h; simp }
  skill :=
    { safeParse := Sum.elim (fun _ => .error [⟨"Invalid input", []⟩]) .ok
      keeps_name := by rintro (a | a) b h <;> cases h; rfl
      says_why := by rintro (a | a) b h <;> cases h; simp }
  validationRefs := ⟨[], [], [], ["read_skill"]⟩
  validateWrite _ _ := .ok []

def nameLe (p q : String) : Bool := decide (p.toList ≤ q.toList)

def agent (skillNames : List String) : Definition :=
  .inl ⟨"a", none, none, false, [], [], ["read_skill"], skillNames⟩

def skill : Definition := .inr ⟨"s"⟩

def agentKey : AssetKey := (.agent, "a")
def skillKey : AssetKey := (.skill, "s")

def start : WriterPool kinds := ⟨⟨[], 0, none, 0⟩, [], 0⟩

def both : AssetSet Definition where
  defaultAgentName := some "a"
  definitions | .agent => [agent []] | .skill => [skill]

abbrev Moves := List (WriterMove kinds)

def steps (pid n : Nat) : Moves := List.replicate n (.advance pid)

def created : Moves :=
  .start (putBatch kinds ⟨none, fun _ => []⟩ agentKey (agent []) rfl none false true) :: steps 0 4 ++
    .start (putBatch kinds both skillKey skill rfl none false true) :: steps 1 4

def putReference : Batch kinds := putBatch kinds both agentKey (agent ["s"]) rfl (some 1) false true

def deleteSkill : Batch kinds := deleteBatch kinds both skillKey 1 true

def inTurn : Moves := created ++ .start putReference :: steps 2 4 ++ .start deleteSkill :: steps 3 4

def crossed : Moves :=
  created ++ .start putReference :: .start deleteSkill :: steps 2 3 ++ steps 3 3 ++ steps 2 1 ++ steps 3 1

instance : Decidable ((writers kinds nameLe).blocks q t) := inferInstanceAs (Decidable False)

instance : Decidable ((assetSystem kinds nameLe).enabled s a) :=
  inferInstanceAs (Decidable (((writers kinds nameLe).machine _ fun _ _ => True).enabled s a))

instance : Decidable (((assetSystem kinds nameLe).when (AppliesToSetRead kinds nameLe)).enabled s a) :=
  inferInstanceAs (Decidable ((assetSystem kinds nameLe).enabled s a ∧ AppliesToSetRead kinds nameLe s a))

theorem start_ok : (assetSystem kinds nameLe).init start :=
  ⟨⟨⟨by simp [start], by simp [start], by simp [start]⟩, rfl⟩, rfl, rfl⟩

end Example

/-- Two batches that touch different assets both pass, and the agent is left without its skill. -/
theorem crossed_writes_lose_a_skill :
    (assetSystem Example.kinds Example.nameLe).Reachable
        ((assetSystem Example.kinds Example.nameLe).after Example.start Example.crossed) ∧
      Example.kinds.findAssetSetIssues
          (((assetSystem Example.kinds Example.nameLe).after Example.start Example.crossed).store.set
            Example.nameLe) =
        [{ message := "Agent 'a' references missing skill 's'" }] := by
  have hrun : (assetSystem Example.kinds Example.nameLe).Allows Example.start Example.crossed := by
    decide
  refine ⟨⟨_, _, Example.start_ok, hrun.run⟩, ?_⟩
  decide

/-- The same two writes in turn: the delete is refused, and the set has no issue. -/
theorem stored_set_stays_valid_in_turn :
    (((assetSystem Example.kinds Example.nameLe).after Example.start Example.inTurn).store.find?
        Example.skillKey).isSome ∧
      Example.kinds.findAssetSetIssues
        (((assetSystem Example.kinds Example.nameLe).after Example.start Example.inTurn).store.set
          Example.nameLe) = [] := by
  have hrun : ((assetSystem Example.kinds Example.nameLe).when
      (AppliesToSetRead Example.kinds Example.nameLe)).Allows Example.start Example.inTurn := by
    decide
  refine ⟨?_, (stored_set_stays_valid ⟨_, _, Example.start_ok, hrun.run⟩).1⟩
  decide

end Catalyst.Assets
