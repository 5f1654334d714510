import Catalyst.Core
import Catalyst.Library.Keyset
import Catalyst.Library.Processes
import Mathlib

/-!
# The attribution backfill

A pass goes through the usage events in the order of their creation, a batch to a transaction, and
stores with each batch where it ended. A tick of any process goes on from there. The transactions
of a tick are those of its job: each finds the lease of the tick or fails.
-/

namespace Catalyst.Usage.Backfill

open Library Keyset Processes

-- -----------------
-- Events
-- -----------------

structure Attribution where
  purpose : Option String
  region : Option String
  bindingId : Option String
  userId : Option String
  collaborationWorkspaceId : Option String
  deriving DecidableEq

/-- An event of the instance; ids compare as the database orders them. -/
structure ModelUsageEvent (ι : Type) where
  createdAt : Time
  id : ι
  agentName : String
  agentRunId : Option String
  conversationId : Option String
  providerId : String
  model : String
  attribution : Attribution

/-- `ModelUsageBackfillPosition` -/
abbrev Position (ι : Type) := Lex (Time × ι)

def ModelUsageEvent.position (event : ModelUsageEvent ι) : Position ι := toLex (event.createdAt, event.id)

structure ModelUsageBackfillTarget where
  providerId : String
  model : String
  region : Option String
  bindingId : Option String

structure ConversationRow where
  createdByUserId : String
  collaborationWorkspaceId : Option String

/-- The rows that events are attributed to: the owners of runs, conversations, and which users and
workspaces are there without a request for their deletion. -/
structure Attributed where
  runOwner : String → Option String
  conversation : String → Option ConversationRow
  user : String → Bool
  workspace : String → Bool

/-- What the name of an agent and the missing run say of an event without a purpose. -/
def namedPurpose (event : ModelUsageEvent ι) : Option String :=
  if event.agentName = "approval_check" then some "guardrail_judge"
  else if event.agentName = "conversation_title" then some event.agentName
  else if event.agentRunId = none ∧ (event.agentName = "guardrail_judge" ∨ event.agentName = "document_extraction") then
    some event.agentName
  else none

/-- `filled`: each value that is missing, where there is one. -/
def filled (targets : List ModelUsageBackfillTarget) (rows : Attributed) (event : ModelUsageEvent ι) : Attribution :=
  let target := targets.find? fun target => target.providerId = event.providerId ∧ target.model = event.model
  let conversation := event.conversationId.bind rows.conversation
  let user := (event.agentRunId.bind rows.runOwner).or (conversation.map (·.createdByUserId))
  { purpose := event.attribution.purpose.or (namedPurpose event)
    region := event.attribution.region.or (target.bind (·.region))
    bindingId := event.attribution.bindingId.or (target.bind (·.bindingId))
    userId := event.attribution.userId.or (user.filter rows.user)
    collaborationWorkspaceId := event.attribution.collaborationWorkspaceId.or
      ((conversation.bind (·.collaborationWorkspaceId)).filter rows.workspace) }

structure UsageBackfillState (ι : Type) where
  after : Option (Position ι)
  changedInPass : Nat
  verifiedAt : Option Time
  repairNeeded : Bool

/-- `readState` of what was stored, or of nothing. -/
def readState (stored : Option (UsageBackfillState ι)) : UsageBackfillState ι := stored.getD ⟨none, 0, none, false⟩

/-- A pass as it went: the events that were there when it began, those it has read, and how many it
changed. -/
structure Pass (ι : Type) where
  present : List (Position ι)
  visited : List (Position ι)
  changed : Nat

structure Store (ι : Type) where
  events : List (ModelUsageEvent ι)
  rows : Attributed
  now : Time
  stored : Option (UsageBackfillState ι)
  /-- The lease of the job, and the next token. -/
  holder : Option Nat
  nextToken : Nat
  /-- Kept for the statements, and read by no transaction: whether an event was changed since all
  events were compared with the sums, the pass under way and the passes that ended. -/
  owed : Bool
  pass : Pass ι
  ended : List (Pass ι)

section

variable {ι : Type} [LinearOrder ι]

def batch (events : List (ModelUsageEvent ι)) (after : Option (Position ι)) (limit : Nat) : List (ModelUsageEvent ι) :=
  (ordered ModelUsageEvent.position (behind ModelUsageEvent.position after events)).take limit

def Store.passFrom (s : Store ι) (after : Option (Position ι)) : Pass ι :=
  if after = none then ⟨s.events.map (·.position), [], 0⟩ else s.pass

def gaining (s : Store ι) (targets : List ModelUsageBackfillTarget) (read : List (ModelUsageEvent ι)) : List (ModelUsageEvent ι) :=
  read.filter fun event => filled targets s.rows event ≠ event.attribution

def UsageBackfillState.next (state : UsageBackfillState ι) (last : Option (Position ι)) (changed : Nat) (now : Time) :
    UsageBackfillState ι where
  after := last
  changedInPass := if last = none then 0 else state.changedInPass + changed
  verifiedAt := if last = none ∧ state.changedInPass + changed = 0 then some now else none
  repairNeeded := state.repairNeeded || 0 < changed

def Pass.with (pass : Pass ι) (read : List (Position ι)) (changed : Nat) : Pass ι :=
  ⟨pass.present, pass.visited ++ read, pass.changed + changed⟩

/-- What a batch commits: the events with their values, and the state in which it leaves the pass. -/
def Store.commit (s : Store ι) (events : List (ModelUsageEvent ι)) (state : UsageBackfillState ι) (read : List (Position ι))
    (changed : Nat) : Store ι :=
  let pass := (s.passFrom state.after).with read changed
  { s with
    events := events
    stored := some (state.next read.getLast? changed s.now)
    owed := s.owed || 0 < changed
    pass := pass
    ended := if read.getLast? = none then s.ended ++ [pass] else s.ended }

/-- One transaction of a pass, from the state in memory: what is committed, the next state, and
whether the pass has ended. -/
def backfillBatch (s : Store ι) (targets : List ModelUsageBackfillTarget) (limit : Nat) (state : UsageBackfillState ι) :
    Store ι × UsageBackfillState ι × Bool :=
  let read := batch s.events state.after limit
  let changes := gaining s targets read
  let events := s.events.map fun event =>
    if event.position ∈ changes.map (·.position) then { event with attribution := filled targets s.rows event } else event
  let positions := read.map (·.position)
  (s.commit events state positions changes.length, state.next positions.getLast? changes.length s.now, positions = [])

def reconcile (s : Store ι) (state : UsageBackfillState ι) : Store ι :=
  { s with stored := some { state with repairNeeded := false }, owed := false }

structure TickInput where
  targets : List ModelUsageBackfillTarget
  limit : Nat
  limit_pos : 0 < limit

inductive Tick (ι : Type)
  | claiming (input : TickInput)
  | reading (input : TickInput) (token : Nat)
  | passing (input : TickInput) (token : Nat) (state : UsageBackfillState ι)
  | repairing (token : Nat) (state : UsageBackfillState ι)

/-- `USAGE_BACKFILL_VERIFY_EVERY_MS` -/
def verifyEveryMs : Nat := 24 * 60 * 60 * 1000

def afterPass (token : Nat) (state : UsageBackfillState ι) : Option (Tick ι) :=
  if state.repairNeeded then some (.repairing token state) else none

def tickStep (s : Store ι) : Tick ι → Option Unit × Option (Tick ι) × Store ι
  | .claiming input => (none, some (.reading input s.nextToken), { s with holder := some s.nextToken, nextToken := s.nextToken + 1 })
  | .reading input token =>
    let found := readState s.stored
    let verified := ∃ at' ∈ found.verifiedAt, s.now < at' + verifyEveryMs
    (none, if verified then afterPass token found else some (.passing input token found), s)
  | .passing input token state =>
    if s.holder = some token then
      let (s', next, ended) := backfillBatch s input.targets input.limit state
      (none, if ended then afterPass token next else some (.passing input token next), s')
    else (none, none, s)
  | .repairing token state => (none, none, if s.holder = some token then reconcile s state else s)

/-- What others do: events are written and their attributions cleared or set, the rows they are
attributed to change, a full reconciliation of the other job commits, a lease runs out or ends, and
time passes. -/
inductive Other (ι : Type)
  | write (event : ModelUsageEvent ι)
  | rewrite (id : ι) (attribution : Attribution)
  | change (rows : Attributed)
  | reconcile
  | expire
  | clock (now : Time)

def other (s : Store ι) : Other ι → Store ι
  | .write event => if ∃ e ∈ s.events, e.id = event.id then s else { s with events := s.events ++ [event] }
  | .rewrite id attribution =>
    { s with events := s.events.map fun event => if event.id = id then { event with attribution := attribution } else event }
  | .change rows => { s with rows := rows }
  | .reconcile => { s with owed := false }
  | .expire => { s with holder := none }
  | .clock now => { s with now := now }

def ticks : Processes (Store ι) TickInput (Tick ι) (Other ι) Unit where
  start := .claiming
  blocks _ _ := False
  step := tickStep
  env s o := (none, other s o)

def Store.initial (s : Store ι) : Prop :=
  (s.events.map (·.id)).Nodup ∧ s.stored = none ∧ s.owed = false ∧ s.ended = []

def machine : Machine (Pool (Store ι) (Tick ι)) (Move TickInput (Other ι)) (Option Unit) :=
  ticks.machine Store.initial fun _ _ => True

structure Pass.Complete (pass : Pass ι) : Prop where
  ordered : pass.visited.Pairwise (· < ·)
  all : ∀ position ∈ pass.present, position ∈ pass.visited

/-- The state says what is owed, the passes that ended were complete, and a time of verification
stands behind a pass that changed nothing. -/
structure Store.Owes (s : Store ι) : Prop where
  repair : s.owed = true → (readState s.stored).repairNeeded = true
  ended : ∀ pass ∈ s.ended, pass.Complete
  verified : (readState s.stored).verifiedAt.isSome = true → ∃ pass ∈ s.ended.getLast?, pass.changed = 0

variable {s s' : Store ι} {events events' : List (ModelUsageEvent ι)} {after : Option (Position ι)} {pass : Pass ι}
  {limit : Nat}

structure Pass.Reads (events : List (ModelUsageEvent ι)) (after : Option (Position ι)) (pass : Pass ι) : Prop where
  ordered : pass.visited.Pairwise (· < ·)
  behind : ∀ position ∈ pass.visited, ∃ last ∈ after, position ≤ last
  left : ∀ position ∈ pass.present, position ∈ pass.visited ∨ ∀ last ∈ after, last < position
  present : ∀ position ∈ pass.present, ∃ event ∈ events, event.position = position

omit [LinearOrder ι] in
theorem positions_nodup (h : (events.map (·.id)).Nodup) : (events.map ModelUsageEvent.position).Nodup :=
  List.pairwise_map.mpr ((List.pairwise_map.mp h).imp fun hne he =>
    hne (congrArg (fun position => (ofLex position).2) he))

theorem Pass.Reads.fresh (events : List (ModelUsageEvent ι)) :
    Pass.Reads events none ⟨events.map (·.position), [], 0⟩ where
  ordered := .nil
  behind _ h := absurd h List.not_mem_nil
  left _ _ := .inr fun _ h => absurd h (Option.not_mem_none _)
  present _ h := List.mem_map.mp h

theorem Pass.Reads.mono (h : pass.Reads events after)
    (hpresent : ∀ event ∈ events, ∃ event' ∈ events', event'.position = event.position) : pass.Reads events' after := by
  refine ⟨h.ordered, h.behind, h.left, fun position hposition => ?_⟩
  obtain ⟨event, hevent, rfl⟩ := h.present position hposition
  exact hpresent event hevent

theorem batch_behind {event : ModelUsageEvent ι} (h : event ∈ batch events after limit) :
    ∀ position ∈ after, position < event.position :=
  (mem_behind.mp ((ordered_perm _).mem_iff.mp (List.mem_of_mem_take h))).2

theorem batch_ordered (hnodup : (events.map ModelUsageEvent.position).Nodup) :
    ((batch events after limit).map ModelUsageEvent.position).Pairwise (· < ·) := by
  have hbehind : ((behind ModelUsageEvent.position after events).map ModelUsageEvent.position).Nodup :=
    hnodup.sublist (List.filter_sublist.map _)
  exact List.pairwise_map.mpr ((pairwise_lt_ordered hbehind).sublist (List.take_sublist _ _))

theorem mem_batch_or_lt {event last : ModelUsageEvent ι} (hnodup : (events.map ModelUsageEvent.position).Nodup)
    (hevent : event ∈ events) (hbehind : ∀ position ∈ after, position < event.position)
    (hlast : last ∈ batch events after limit) : event ∈ batch events after limit ∨ last.position < event.position := by
  have hmem : event ∈ ordered ModelUsageEvent.position (behind ModelUsageEvent.position after events) :=
    (ordered_perm _).mem_iff.mpr (mem_behind.mpr ⟨hevent, hbehind⟩)
  have hkeys : ((behind ModelUsageEvent.position after events).map ModelUsageEvent.position).Nodup :=
    hnodup.sublist (List.filter_sublist.map _)
  have hpairwise := pairwise_lt_ordered hkeys
  rw [← List.take_append_drop limit (ordered _ _)] at hmem hpairwise
  obtain hmem | hmem := List.mem_append.mp hmem
  · exact .inl hmem
  · exact .inr ((List.pairwise_append.mp hpairwise).2.2 last hlast event hmem)

theorem batch_ne_nil {event : ModelUsageEvent ι} (hlimit : 0 < limit) (hevent : event ∈ events)
    (hbehind : ∀ position ∈ after, position < event.position) : batch events after limit ≠ [] := by
  have hmem : event ∈ ordered ModelUsageEvent.position (behind ModelUsageEvent.position after events) :=
    (ordered_perm _).mem_iff.mpr (mem_behind.mpr ⟨hevent, hbehind⟩)
  rw [batch, Ne, List.take_eq_nil_iff, not_or]
  exact ⟨hlimit.ne', List.ne_nil_of_mem hmem⟩

theorem Pass.Reads.ordered_append (h : pass.Reads events after) (hnodup : (events.map ModelUsageEvent.position).Nodup) :
    (pass.visited ++ (batch events after limit).map (·.position)).Pairwise (· < ·) := by
  refine List.pairwise_append.mpr ⟨h.ordered, batch_ordered hnodup, fun position hposition position' hposition' => ?_⟩
  obtain ⟨last, hlast, hle⟩ := h.behind position hposition
  obtain ⟨event, hevent, rfl⟩ := List.mem_map.mp hposition'
  exact hle.trans_lt (batch_behind hevent last hlast)

theorem Pass.Reads.goes_on (h : pass.Reads events after) (hnodup : (events.map ModelUsageEvent.position).Nodup)
    (changed : Nat) {last : Position ι} (hlast : ((batch events after limit).map (·.position)).getLast? = some last) :
    Pass.Reads events (some last)
      ⟨pass.present, pass.visited ++ (batch events after limit).map (·.position), changed⟩ := by
  have hordered : (pass.visited ++ (batch events after limit).map (·.position)).Pairwise (· < ·) := h.ordered_append hnodup
  obtain ⟨front, hfront⟩ := List.getLast?_eq_some_iff.mp hlast
  obtain ⟨lastEvent, hlastEvent, hposition⟩ : ∃ event ∈ batch events after limit, event.position = last :=
    List.mem_map.mp (hfront ▸ List.mem_append_right front (List.mem_singleton_self last))
  refine ⟨hordered, fun position hmem => ⟨last, rfl, ?_⟩, fun position hpresent => ?_, h.present⟩
  · rw [hfront, ← List.append_assoc] at hordered hmem
    obtain hmem | hmem := List.mem_append.mp hmem
    · exact ((List.pairwise_append.mp hordered).2.2 position hmem last (List.mem_singleton_self last)).le
    · exact (List.mem_singleton.mp hmem).le
  · obtain hvisited | hleft := h.left position hpresent
    · exact .inl (List.mem_append_left _ hvisited)
    · obtain ⟨event, hevent, rfl⟩ := h.present position hpresent
      obtain hmem | hlt := mem_batch_or_lt hnodup hevent hleft hlastEvent
      · exact .inl (List.mem_append_right _ (List.mem_map_of_mem hmem))
      · refine .inr fun last' hlast' => ?_
        obtain rfl := Option.some.inj hlast'
        exact hposition ▸ hlt

theorem Pass.Reads.complete (h : pass.Reads events after) (hlimit : 0 < limit) (changed : Nat)
    (hnone : ((batch events after limit).map (·.position)).getLast? = none) :
    Pass.Complete (⟨pass.present, pass.visited ++ (batch events after limit).map (·.position), changed⟩ : Pass ι) := by
  have hempty : batch events after limit = [] := by simpa using hnone
  rw [hempty, List.map_nil, List.append_nil]
  refine ⟨h.ordered, fun position hpresent => (h.left position hpresent).resolve_right fun hleft => ?_⟩
  obtain ⟨event, hevent, rfl⟩ := h.present position hpresent
  exact batch_ne_nil hlimit hevent hleft hempty

-- -----------------
-- The store
-- -----------------

def Store.state (s : Store ι) : UsageBackfillState ι := readState s.stored

structure Store.Ok (s : Store ι) : Prop where
  ids : (s.events.map (·.id)).Nodup
  owes : s.Owes
  reads : (s.passFrom s.state.after).Reads s.events s.state.after
  counted : s.state.changedInPass = (s.passFrom s.state.after).changed
  between : s.state.verifiedAt.isSome = true → s.state.after = none

def Tick.token? : Tick ι → Option Nat
  | claiming _ => none
  | reading _ token | passing _ token _ | repairing token _ => some token

def relies (s : Store ι) : Tick ι → Prop
  | .claiming _ => True
  | .reading _ token => token < s.nextToken
  | .passing _ token state | .repairing token state =>
    token < s.nextToken ∧ (s.holder = some token → state = s.state)

def assertions : Assertions (Store ι) (Tick ι) Unit where
  holds _ s := s.Ok
  relies _ s t := relies s t
  apart p q := ∀ token ∈ p.token?, token ∉ q.token?

theorem Store.initial.ok (h : s.initial) : s.Ok := by
  obtain ⟨hids, hstored, howed, hended⟩ := h
  have hstate : s.state = ⟨none, 0, none, false⟩ := by rw [Store.state, hstored]; rfl
  refine ⟨hids, ⟨fun h => ?_, fun pass hpass => ?_, fun h => ?_⟩, ?_, ?_, fun h => ?_⟩
  · rw [howed] at h
    cases h
  · rw [hended] at hpass
    cases hpass
  · rw [Store.state] at hstate
    rw [hstate] at h
    cases h
  · rw [hstate]
    exact Pass.Reads.fresh s.events
  · rw [hstate]
    rfl
  · rw [hstate] at h
    cases h

omit [LinearOrder ι] in
theorem passFrom_none (s : Store ι) : s.passFrom none = ⟨s.events.map (·.position), [], 0⟩ := if_pos rfl

omit [LinearOrder ι] in
theorem passFrom_some (s : Store ι) (last : Position ι) : s.passFrom (some last) = s.pass := if_neg (Option.some_ne_none last)

theorem Store.Ok.events_change (h : s.Ok) (hids : (events'.map (·.id)).Nodup)
    (hpresent : ∀ event ∈ s.events, ∃ event' ∈ events', event'.position = event.position) (rows : Attributed) :
    Store.Ok { s with events := events', rows := rows } := by
  have hreads := h.reads
  have hcounted := h.counted
  refine ⟨hids, ⟨h.owes.repair, h.owes.ended, h.owes.verified⟩, ?_, ?_, h.between⟩
  · change (Store.passFrom _ s.state.after).Reads events' s.state.after
    cases hafter : s.state.after with
    | none =>
      rw [passFrom_none]
      exact Pass.Reads.fresh events'
    | some last =>
      rw [hafter, passFrom_some] at hreads
      rw [passFrom_some]
      exact hreads.mono hpresent
  · change s.state.changedInPass = (Store.passFrom _ s.state.after).changed
    cases hafter : s.state.after with
    | none =>
      rw [hafter, passFrom_none] at hcounted
      rwa [passFrom_none]
    | some last =>
      rw [hafter, passFrom_some] at hcounted
      rwa [passFrom_some]

omit [LinearOrder ι] in
theorem attributed_events (events : List (ModelUsageEvent ι)) (p : ModelUsageEvent ι → Bool)
    (attribution : ModelUsageEvent ι → Attribution) :
    let set (event : ModelUsageEvent ι) := if p event then { event with attribution := attribution event } else event
    (events.map set).map (·.id) = events.map (·.id) ∧
      ∀ event ∈ events, ∃ event' ∈ events.map set, event'.position = event.position := by
  intro set
  have hset (event : ModelUsageEvent ι) : (set event).id = event.id ∧ (set event).position = event.position := by
    by_cases hp : p event = true <;> simp [set, hp, ModelUsageEvent.position]
  constructor
  · rw [List.map_map]
    exact List.map_congr_left fun event _ => (hset event).1
  · exact fun event hevent => ⟨set event, List.mem_map_of_mem hevent, (hset event).2⟩

theorem Store.Ok.commit (h : s.Ok) (hids : (events'.map (·.id)).Nodup)
    (hpresent : ∀ event ∈ s.events, ∃ event' ∈ events', event'.position = event.position) (hlimit : 0 < limit)
    (changed : Nat) :
    (s.commit events' s.state ((batch s.events s.state.after limit).map (·.position)) changed).Ok := by
  have hnodup := positions_nodup h.ids
  have hrepair : (s.owed || decide (0 < changed)) = true → (s.state.repairNeeded || decide (0 < changed)) = true := by
    intro howed
    obtain howed | hchanged := Bool.or_eq_true_iff.mp howed
    · exact Bool.or_eq_true_iff.mpr (.inl (h.owes.repair howed))
    · exact Bool.or_eq_true_iff.mpr (.inr hchanged)
  unfold Store.commit
  cases hlast : ((batch s.events s.state.after limit).map (·.position)).getLast? with
  | some last =>
    refine ⟨hids, ⟨hrepair, h.owes.ended, fun h => by cases h⟩, ?_, ?_, fun h => by cases h⟩
    · exact (h.reads.goes_on hnodup _ hlast).mono hpresent
    · exact congrArg (· + changed) h.counted
  | none =>
    have hcomplete := h.reads.complete hlimit ((s.passFrom s.state.after).changed + changed) hlast
    refine ⟨hids, ⟨hrepair, fun pass hpass => ?_, fun hverified => ?_⟩, Pass.Reads.fresh events', rfl, fun _ => rfl⟩
    · obtain hpass | hpass := List.mem_append.mp hpass
      · exact h.owes.ended pass hpass
      · exact List.mem_singleton.mp hpass ▸ hcomplete
    · refine ⟨_, List.getLast?_concat, ?_⟩
      by_contra hchanged
      have hcounted : s.state.changedInPass + changed ≠ 0 := fun he => hchanged ((h.counted ▸ he :))
      have hunverified : (s.state.next none changed s.now).verifiedAt = none := if_neg fun h => hcounted h.2
      change (s.state.next none changed s.now).verifiedAt.isSome = true at hverified
      rw [hunverified] at hverified
      cases hverified

theorem Store.Ok.backfillBatch (h : s.Ok) (targets : List ModelUsageBackfillTarget) (hlimit : 0 < limit) :
    (backfillBatch s targets limit s.state).1.Ok ∧
      (backfillBatch s targets limit s.state).2.1 = (backfillBatch s targets limit s.state).1.state := by
  obtain ⟨hids, hpresent⟩ := attributed_events s.events
    (fun event => event.position ∈ (gaining s targets (batch s.events s.state.after limit)).map (·.position))
    (filled targets s.rows)
  simp only [decide_eq_true_eq] at hids hpresent
  exact ⟨h.commit (hids ▸ h.ids) hpresent hlimit _, rfl⟩

theorem Store.Ok.reconcile (h : s.Ok) : (reconcile s s.state).Ok :=
  ⟨h.ids, ⟨fun h => (by cases h), h.owes.ended, h.owes.verified⟩, h.reads, h.counted, h.between⟩

theorem Store.Ok.other (h : s.Ok) (o : Other ι) : (other s o).Ok := by
  cases o with
  | write event =>
    rw [Backfill.other]
    split_ifs with hsame
    · exact h
    · refine h.events_change ?_ (fun e he => ⟨e, List.mem_append_left _ he, rfl⟩) s.rows
      rw [List.map_append, List.nodup_append]
      refine ⟨h.ids, List.nodup_singleton _, fun id hid id' hid' he => ?_⟩
      obtain ⟨e, hmem, rfl⟩ := List.mem_map.mp hid
      exact hsame ⟨e, hmem, he.trans (List.mem_singleton.mp hid')⟩
  | rewrite id attribution =>
    obtain ⟨hids, hpresent⟩ := attributed_events s.events (fun event => event.id = id) fun _ => attribution
    simp only [decide_eq_true_eq] at hids hpresent
    exact h.events_change (hids ▸ h.ids) hpresent s.rows
  | change rows => exact h.events_change h.ids (fun e he => ⟨e, he, rfl⟩) rows
  | reconcile => exact ⟨h.ids, ⟨fun h => (by cases h), h.owes.ended, h.owes.verified⟩, h.reads, h.counted, h.between⟩
  | expire => exact ⟨h.ids, ⟨h.owes.repair, h.owes.ended, h.owes.verified⟩, h.reads, h.counted, h.between⟩
  | clock now => exact ⟨h.ids, ⟨h.owes.repair, h.owes.ended, h.owes.verified⟩, h.reads, h.counted, h.between⟩

omit [LinearOrder ι] in
theorem relies.mono {t : Tick ι} (h : relies s t) (hnext : s.nextToken ≤ s'.nextToken)
    (hkept : ∀ token ∈ t.token?, s'.holder = some token → s.holder = some token ∧ s'.state = s.state) : relies s' t := by
  cases t with
  | claiming input => trivial
  | reading input token => exact Nat.lt_of_lt_of_le h hnext
  | passing input token state =>
    refine ⟨Nat.lt_of_lt_of_le h.1 hnext, fun hholder => ?_⟩
    obtain ⟨hheld, hstate⟩ := hkept token rfl hholder
    exact (h.2 hheld).trans hstate.symm
  | repairing token state =>
    refine ⟨Nat.lt_of_lt_of_le h.1 hnext, fun hholder => ?_⟩
    obtain ⟨hheld, hstate⟩ := hkept token rfl hholder
    exact (h.2 hheld).trans hstate.symm

omit [LinearOrder ι] in
theorem relies.token_lt {t : Tick ι} (h : relies s t) : ∀ token ∈ t.token?, token < s.nextToken := by
  rintro token ht
  cases t with
  | claiming input => cases ht
  | reading input token' => exact Option.some.inj ht ▸ h
  | passing input token' state => exact Option.some.inj ht ▸ h.1
  | repairing token' state => exact Option.some.inj ht ▸ h.1

omit [LinearOrder ι] in
theorem afterPass_relies {token : Nat} {state : UsageBackfillState ι} (h : token < s.nextToken ∧ (s.holder = some token → state = s.state))
    {t : Tick ι} (ht : afterPass token state = some t) : relies s t ∧ t.token? = some token := by
  unfold afterPass at ht
  split_ifs at ht
  obtain rfl := Option.some.inj ht
  exact ⟨h, rfl⟩

theorem ticks_ok : (ticks (ι := ι)).Inductive assertions fun _ _ => True where
  symm p q h token hq hp := h token hp hq
  start log s input hok _ := ⟨trivial, fun q token h => by cases h⟩
  step log s pid t hok _ hat hrelies hothers := by
    cases t with
    | claiming input =>
      refine ⟨⟨⟨hok.holds.ids, ⟨hok.holds.owes.repair, hok.holds.owes.ended, hok.holds.owes.verified⟩, hok.holds.reads,
        hok.holds.counted, hok.holds.between⟩, fun q _ hq => ?_⟩, ?_⟩
      · refine hq.mono (Nat.le_succ _) fun token htoken hholder => ?_
        exact absurd (Option.some.inj hholder) (hq.token_lt token htoken).ne'
      · rintro t' ⟨⟩
        refine ⟨Nat.lt_succ_self _, fun q hq _ _ token htoken hother => ?_⟩
        exact absurd (Option.some.inj htoken) (hq.token_lt token hother).ne'
    | reading input token =>
      refine ⟨⟨hok.holds, fun q _ hq => hq⟩, fun t' ht' => ?_⟩
      have hfound : token < s.store.nextToken ∧ (s.store.holder = some token → s.store.state = s.store.state) :=
        ⟨hrelies, fun _ => rfl⟩
      have hnext : relies s.store t' ∧ t'.token? = some token := by
        simp only [ticks, tickStep, Option.mem_def] at ht'
        split_ifs at ht'
        · exact afterPass_relies hfound ht'
        · obtain rfl := Option.some.inj ht'
          exact ⟨hfound, rfl⟩
      refine ⟨hnext.1, fun q _ hapart _ token' htoken => hapart token' ?_⟩
      rwa [hnext.2] at htoken
    | passing input token state =>
      by_cases hheld : s.store.holder = some token
      · obtain rfl : state = s.store.state := hrelies.2 hheld
        obtain ⟨hcommitted, hstate⟩ := hok.holds.backfillBatch input.targets input.limit_pos
        have hlease : (backfillBatch s.store input.targets input.limit s.store.state).1.holder = s.store.holder ∧
          (backfillBatch s.store input.targets input.limit s.store.state).1.nextToken = s.store.nextToken := ⟨rfl, rfl⟩
        simp only [ticks, tickStep, if_pos hheld]
        generalize backfillBatch s.store input.targets input.limit s.store.state = r at hcommitted hstate hlease
        obtain ⟨s', next, ended⟩ := r
        refine ⟨⟨hcommitted, fun q hq hrelies => ?_⟩, fun t' ht' => ?_⟩
        · refine hrelies.mono hlease.2.ge fun token' htoken hholder => ?_
          obtain rfl : token = token' := Option.some.inj (hheld.symm.trans (hlease.1.symm.trans hholder))
          exact absurd htoken (hq.1 token rfl)
        · have hnext : token < s'.nextToken ∧ (s'.holder = some token → next = s'.state) :=
            ⟨hlease.2 ▸ hrelies.1, fun _ => hstate⟩
          have ht : relies s' t' ∧ t'.token? = some token := by
            simp only [Option.mem_def] at ht'
            split_ifs at ht'
            · exact afterPass_relies hnext ht'
            · obtain rfl := Option.some.inj ht'
              exact ⟨hnext, rfl⟩
          refine ⟨ht.1, fun q _ hapart _ token' htoken => hapart token' ?_⟩
          rwa [ht.2] at htoken
      · have hstep : ticks.step s.store (.passing input token state) = (none, none, s.store) := if_neg hheld
        rw [hstep]
        exact ⟨⟨hok.holds, fun q _ hq => hq⟩, fun t' ht' => by cases ht'⟩
    | repairing token state =>
      by_cases hheld : s.store.holder = some token
      · obtain rfl : state = s.store.state := hrelies.2 hheld
        have hstep : ticks.step s.store (.repairing token s.store.state) = (none, none, reconcile s.store s.store.state) := by
          simp [ticks, tickStep, hheld]
        rw [hstep]
        refine ⟨⟨hok.holds.reconcile, fun q hq hrelies => ?_⟩, fun t' ht' => by cases ht'⟩
        refine hrelies.mono (Nat.le_refl _) fun token' htoken hholder => ?_
        obtain rfl : token = token' := Option.some.inj (hheld.symm.trans hholder)
        exact absurd htoken (hq.1 token rfl)
      · have hstep : ticks.step s.store (.repairing token state) = (none, none, s.store) := by
          simp [ticks, tickStep, hheld]
        rw [hstep]
        exact ⟨⟨hok.holds, fun q _ hq => hq⟩, fun t' ht' => by cases ht'⟩
  env log s o hok _ := by
    refine ⟨Store.Ok.other hok.holds o, fun q _ hq => ?_⟩
    cases o with
    | write event =>
      have hsame : (other s.store (.write event)).nextToken = s.store.nextToken ∧
          (other s.store (.write event)).holder = s.store.holder ∧ (other s.store (.write event)).state = s.store.state := by
        rw [other]
        split_ifs <;> exact ⟨rfl, rfl, rfl⟩
      exact hq.mono hsame.1.ge fun token _ hholder => ⟨hsame.2.1 ▸ hholder, hsame.2.2⟩
    | rewrite | change | reconcile | clock => exact hq.mono (Nat.le_refl _) fun token _ hholder => ⟨hholder, rfl⟩
    | expire => exact hq.mono (Nat.le_refl _) fun token _ hholder => by cases hholder

end

theorem allows_all {ι : Type} [LinearOrder ι] (s : Pool (Store ι) (Tick ι)) (moves : List (Move TickInput (Other ι))) :
    machine.Allows s moves := by
  induction moves generalizing s with
  | nil => trivial
  | cons move moves ih =>
    refine ⟨⟨?_, trivial⟩, ih _⟩
    cases move with
    | advance pid => exact fun _ _ _ _ h => h
    | start | abort | env => trivial

def titleEvent : ModelUsageEvent Nat where
  createdAt := 1700000000000
  id := 1
  agentName := "conversation_title"
  agentRunId := none
  conversationId := none
  providerId := "openai"
  model := "gpt-5"
  attribution := ⟨none, none, none, none, none⟩

def upgraded : Pool (Store Nat) (Tick Nat) where
  store :=
    { events := [titleEvent]
      rows := ⟨fun _ => none, fun _ => none, fun _ => false, fun _ => false⟩
      now := 1700000100000
      stored := none
      holder := none
      nextToken := 0
      owed := false
      pass := ⟨[], [], 0⟩
      ended := [] }
  running := []
  started := 0

def tickInput : TickInput := ⟨[], 5000, by decide⟩

end Catalyst.Usage.Backfill
