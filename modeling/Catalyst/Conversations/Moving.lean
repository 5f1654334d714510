import Catalyst.Library.Processes
import Mathlib

/-!
# Moves between workspaces

A move reads the conversation, what its user may access, the destination and whether background work goes on,
one after the other and under no lock. Then one statement moves the row, if it is still in the workspace that
was read. Runs are accepted and the conversation is deleted under the lock of the row.
-/

namespace Catalyst.Conversations.Moving

open Library Processes

variable {U W : Type}

inductive ConversationVisibility where
  | workspace | private_
  deriving DecidableEq

structure Conversation (U W : Type) where
  workspace : W
  visibility : ConversationVisibility
  createdBy : U
  active : Bool
  deriving DecidableEq

structure CollaborationWorkspace where
  personal : Bool
  defaultConversationVisibility : ConversationVisibility
  deriving DecidableEq

inductive BusyState where
  | activeAgentRun | attachmentProcessing | executionWorkspaceCommand | artifactPreview
  deriving DecidableEq

/-- A move that has committed, with what was there at its commit. No query reads it. -/
structure Moved (U W : Type) where
  user : U
  source : W
  before : Conversation U W
  after : Conversation U W
  activeRun : Bool
  access : U → W → Bool
  /-- The workspaces that the conversation was moved from since this move read it. -/
  since : List W

structure Store (U W : Type) where
  conversation : Conversation U W
  /-- Who has access to a workspace: its members, and a superadmin where it is shared. -/
  access : U → W → Bool
  workspaces : W → Option CollaborationWorkspace
  /-- A run of the conversation is in progress. -/
  activeRun : Bool
  /-- The other background work. -/
  busy : BusyState → Bool
  /-- How many runs were accepted. No query reads it. -/
  accepted : Nat
  moves : List (Moved U W)

def Store.isBusy (s : Store U W) : BusyState → Bool
  | .activeAgentRun => s.activeRun
  | state => s.busy state

structure MoveCommand (U W : Type) where
  user : U
  collaborationWorkspaceId : W
  visibility : Option ConversationVisibility
  /-- In which order the queries for background work are answered. -/
  order : List BusyState
  complete : ∀ state, state ∈ order

structure Reading (U W : Type) where
  command : MoveCommand U W
  conversation : Conversation U W
  readAt : Nat

/-- Where a request stands: a move, the acceptance of a run, or a deletion. -/
inductive Going (U W : Type) where
  | reading (command : MoveCommand U W)
  | access (read : Reading U W)
  | destination (read : Reading U W)
  | loading (read : Reading U W)
  /-- The queries that are left, and how many runs were accepted when it was asked for one in progress. -/
  | idle (read : Reading U W) (visibility : ConversationVisibility) (checkedAt : Option Nat) (left : List BusyState)
  | starting
  | startLocked
  | closing
  | closeLocked

inductive Request (U W : Type) where
  | move (command : MoveCommand U W)
  | startRun
  | delete

def Going.holdsLock : Going U W → Bool
  | .startLocked | .closeLocked => true
  | _ => false

def Going.wantsLock : Going U W → Bool
  | .starting | .closing | .idle _ _ _ [] => true
  | _ => false

def moveVisibility (command : MoveCommand U W) (conversation : Conversation U W) (destination : CollaborationWorkspace) :
    ConversationVisibility :=
  if destination.personal then .workspace
  else command.visibility.getD
    (if conversation.visibility = .private_ then .private_ else destination.defaultConversationVisibility)

def Reading.moved (read : Reading U W) (visibility : ConversationVisibility) (s : Store U W) : Store U W :=
  let after := { s.conversation with workspace := read.command.collaborationWorkspaceId, visibility := visibility }
  { s with
    conversation := after
    moves := s.moves ++ [⟨read.command.user, read.conversation.workspace, s.conversation, after, s.activeRun, s.access,
      (s.moves.drop read.readAt).map Moved.source⟩] }

section

variable [DecidableEq U] [DecidableEq W]

def step (s : Store U W) : Going U W → Option Unit × Option (Going U W) × Store U W
  | .reading command =>
    if s.conversation.active then (none, some (.access ⟨command, s.conversation, s.moves.length⟩), s) else (none, none, s)
  | .access read =>
    if s.access read.command.user read.conversation.workspace = true ∧
        ¬(read.conversation.visibility = .private_ ∧ read.conversation.createdBy ≠ read.command.user) then
      (none, some (.destination read), s)
    else (none, none, s)
  | .destination read =>
    if s.access read.command.user read.command.collaborationWorkspaceId = true then (none, some (.loading read), s)
    else (none, none, s)
  | .loading read =>
    match s.workspaces read.command.collaborationWorkspaceId with
    | none => (none, none, s)
    | some destination =>
      if read.conversation.workspace = read.command.collaborationWorkspaceId ∨
          moveVisibility read.command read.conversation destination = .private_ ∧
            read.conversation.createdBy ≠ read.command.user then (none, none, s)
      else (none, some (.idle read (moveVisibility read.command read.conversation destination) none read.command.order), s)
  | .idle read visibility checkedAt (state :: left) =>
    if s.isBusy state then (none, none, s)
    else (none, some (.idle read visibility (if state = .activeAgentRun then some s.accepted else checkedAt) left), s)
  | .idle read visibility _ [] =>
    if s.conversation.active = true ∧ s.conversation.workspace = read.conversation.workspace then
      (none, none, read.moved visibility s)
    else (none, none, s)
  | .starting => if s.conversation.active then (none, some .startLocked, s) else (none, none, s)
  | .startLocked =>
    if s.activeRun then (none, none, s) else (none, none, { s with activeRun := true, accepted := s.accepted + 1 })
  | .closing => if s.conversation.active then (none, some .closeLocked, s) else (none, none, s)
  | .closeLocked => (none, none, { s with conversation := { s.conversation with active := false } })

inductive Change (U W : Type) where
  | runEnds
  | work (state : BusyState) (busy : Bool)
  | member (user : U) (workspace : W) (access : Bool)
  | workspace (id : W) (workspace : Option CollaborationWorkspace)

def change (s : Store U W) : Change U W → Store U W
  | .runEnds => { s with activeRun := false }
  | .work state busy => { s with busy := Function.update s.busy state busy }
  | .member user workspace access =>
    { s with access := Function.update s.access user (Function.update (s.access user) workspace access) }
  | .workspace id workspace => { s with workspaces := Function.update s.workspaces id workspace }

def requests : Processes (Store U W) (Request U W) (Going U W) (Change U W) Unit where
  start
    | .move command => .reading command
    | .startRun => .starting
    | .delete => .closing
  blocks p q := p.holdsLock = true ∧ q.wantsLock = true
  step := step
  env s c := (none, change s c)

instance (p q : Going U W) : Decidable ((requests (U := U) (W := W)).blocks p q) := inferInstanceAs (Decidable (_ ∧ _))

def machine : Machine (Pool (Store U W) (Going U W)) (Move (Request U W) (Change U W)) (Option Unit) :=
  requests.machine (fun s => s.moves = []) fun _ _ => True

instance (s : Pool (Store U W) (Going U W)) (move : Move (Request U W) (Change U W)) : Decidable (machine.enabled s move) :=
  inferInstanceAs (Decidable (requests.Unblocked s move ∧ True))

end

def Moved.SeenBy (m : Moved U W) (user : U) : Prop := m.after.visibility = .workspace ∧ m.access user m.after.workspace = true

instance (m : Moved U W) (user : U) : Decidable (m.SeenBy user) := inferInstanceAs (Decidable (_ ∧ _))

structure Moved.Safe (m : Moved U W) : Prop where
  idle : m.activeRun = false
  byCreator : m.before.visibility = .private_ → (∃ user, user ≠ m.before.createdBy ∧ m.SeenBy user) → m.user = m.before.createdBy
  once : m.source ∉ m.since

/-- Where a move finds the row, no other move has committed since it read the conversation, and no run was accepted
since it asked for one in progress. -/
def UndisturbedAt (s : Store U W) : Going U W → Prop
  | .idle read _ checkedAt [] => s.conversation.workspace = read.conversation.workspace →
      s.moves.length = read.readAt ∧ checkedAt = some s.accepted
  | _ => True

instance [DecidableEq W] (s : Store U W) : DecidablePred (UndisturbedAt s)
  | .idle _ _ _ [] => inferInstanceAs (Decidable (_ → _))
  | .idle _ _ _ (_ :: _) | .reading _ | .access _ | .destination _ | .loading _ | .starting | .startLocked | .closing
  | .closeLocked => .isTrue trivial

def Undisturbed (s : Pool (Store U W) (Going U W)) : Move (Request U W) (Change U W) → Prop
  | .advance pid => ∀ t ∈ s.at? pid, UndisturbedAt s.store t
  | _ => True

instance [DecidableEq W] (s : Pool (Store U W) (Going U W)) : DecidablePred (Undisturbed s)
  | .advance pid => inferInstanceAs (Decidable (∀ t ∈ s.at? pid, UndisturbedAt s.store t))
  | .start _ | .abort _ | .env _ => .isTrue trivial

variable {s s' : Store U W} {read : Reading U W} {checkedAt : Option Nat} {left : List BusyState}

structure Reading.Stands (read : Reading U W) (s : Store U W) : Prop where
  behind : read.readAt ≤ s.moves.length
  createdBy : s.conversation.createdBy = read.conversation.createdBy
  same : s.moves.length = read.readAt → s.conversation.visibility = read.conversation.visibility

def Reading.Admitted (read : Reading U W) : Prop :=
  read.conversation.visibility = .private_ → read.conversation.createdBy = read.command.user

def RunsChecked (s : Store U W) (checkedAt : Option Nat) (left : List BusyState) : Prop :=
  match checkedAt with
  | none => .activeAgentRun ∈ left
  | some n => n ≤ s.accepted ∧ (s.accepted = n → s.activeRun = false)

def relies (s : Store U W) : Going U W → Prop
  | .access read => read.Stands s
  | .destination read | .loading read => read.Stands s ∧ read.Admitted
  | .idle read _ checkedAt left => read.Stands s ∧ read.Admitted ∧ RunsChecked s checkedAt left
  | _ => True

def assertions : Assertions (Store U W) (Going U W) Unit where
  holds _ s := ∀ m ∈ s.moves, m.Safe
  relies _ s t := relies s t
  apart _ _ := True

/-- Where the row is as it was but for its end, and runs are at most accepted or ended, a move relies on what it did. -/
theorem relies.mono {t : Going U W} (h : relies s t) (hmoves : s'.moves = s.moves)
    (hvisibility : s'.conversation.visibility = s.conversation.visibility)
    (hcreatedBy : s'.conversation.createdBy = s.conversation.createdBy) (haccepted : s.accepted ≤ s'.accepted)
    (hruns : s'.accepted = s.accepted → s.activeRun = false → s'.activeRun = false) : relies s' t := by
  have hstands {read : Reading U W} (h : read.Stands s) : read.Stands s' :=
    ⟨hmoves ▸ h.behind, hcreatedBy.trans h.createdBy, fun hlength => hvisibility.trans (h.same (hmoves ▸ hlength))⟩
  have hchecked {checkedAt : Option Nat} {left : List BusyState} (h : RunsChecked s checkedAt left) :
      RunsChecked s' checkedAt left := by
    cases checkedAt with
    | none => exact h
    | some n =>
      refine ⟨h.1.trans haccepted, fun hn => ?_⟩
      have hsame : s.accepted = n := le_antisymm (hn ▸ haccepted) h.1
      exact hruns (hn.trans hsame.symm) (h.2 hsame)
  cases t with
  | access read => exact hstands h
  | destination read | loading read => exact ⟨hstands h.1, h.2⟩
  | idle read visibility checkedAt left => exact ⟨hstands h.1, h.2.1, hchecked h.2.2⟩
  | _ => trivial

theorem relies.moved {t : Going U W} (h : relies s t) (read : Reading U W) (visibility : ConversationVisibility) :
    relies (read.moved visibility s) t := by
  have hstands {other : Reading U W} (h : other.Stands s) : other.Stands (read.moved visibility s) := by
    have hlength : (read.moved visibility s).moves.length = s.moves.length + 1 := List.length_append
    refine ⟨hlength ▸ h.behind.trans (Nat.le_succ _), h.createdBy, fun hsame => ?_⟩
    exact absurd (hlength ▸ hsame ▸ h.behind) (Nat.not_succ_le_self _)
  cases t with
  | access read => exact hstands h
  | destination read | loading read => exact ⟨hstands h.1, h.2⟩
  | idle read visibility checkedAt left => exact ⟨hstands h.1, h.2.1, h.2.2⟩
  | _ => trivial

theorem moved_safe (hstands : read.Stands s) (hadmitted : read.Admitted) (hchecked : RunsChecked s checkedAt [])
    (hmoves : s.moves.length = read.readAt) (haccepted : checkedAt = some s.accepted) (visibility : ConversationVisibility) :
    Moved.Safe ⟨read.command.user, read.conversation.workspace, s.conversation,
      { s.conversation with workspace := read.command.collaborationWorkspaceId, visibility := visibility }, s.activeRun,
      s.access, (s.moves.drop read.readAt).map Moved.source⟩ where
  idle := by
    rw [haccepted] at hchecked
    exact hchecked.2 rfl
  byCreator hprivate _ := ((hstands.createdBy).trans (hadmitted ((hstands.same hmoves).symm.trans hprivate))).symm
  once := by
    rw [← hmoves, List.drop_length]
    exact List.not_mem_nil

/-- The outcome of a step that leaves what everybody relies on, with what its own process relies on next. -/
structure Outcome (s : Store U W) (out : Option Unit × Option (Going U W) × Store U W) : Prop where
  holds : ∀ m ∈ out.2.2.moves, m.Safe
  others : ∀ q, relies s q → relies out.2.2 q
  next : ∀ t ∈ out.2.1, relies out.2.2 t

theorem Outcome.reads (hsafe : ∀ m ∈ s.moves, m.Safe) {next : Option (Going U W)} (hnext : ∀ t ∈ next, relies s t) :
    Outcome s (none, next, s) := ⟨hsafe, fun _ h => h, hnext⟩

theorem Outcome.ends (hsafe : ∀ m ∈ s.moves, m.Safe) : Outcome s (none, none, s) :=
  .reads hsafe fun _ h => by cases h

theorem Outcome.goesOn (hsafe : ∀ m ∈ s.moves, m.Safe) {t : Going U W} (ht : relies s t) : Outcome s (none, some t, s) :=
  .reads hsafe fun _ h => by
    obtain rfl := Option.some.inj h
    exact ht

theorem runsChecked_next {state : BusyState} (h : RunsChecked s checkedAt (state :: left)) (hbusy : s.isBusy state = false) :
    RunsChecked s (if state = .activeAgentRun then some s.accepted else checkedAt) left := by
  split_ifs with hstate
  · subst hstate
    exact ⟨Nat.le_refl _, fun _ => hbusy⟩
  · cases checkedAt with
    | none => exact (List.mem_cons.mp h).resolve_left fun he => hstate he.symm
    | some n => exact h

variable [DecidableEq U] [DecidableEq W]

theorem step_ok {t : Going U W} (hsafe : ∀ m ∈ s.moves, m.Safe) (hrelies : relies s t) (hundisturbed : UndisturbedAt s t) :
    Outcome s (step s t) := by
  cases t with
  | reading command =>
    rw [step]
    split_ifs
    · exact .goesOn hsafe ⟨Nat.le_refl _, rfl, fun _ => rfl⟩
    · exact .ends hsafe
  | access read =>
    rw [step]
    split_ifs with haccess
    · refine .goesOn hsafe ⟨hrelies, fun hprivate => ?_⟩
      exact not_not.mp fun hne => haccess.2 ⟨hprivate, hne⟩
    · exact .ends hsafe
  | destination read =>
    rw [step]
    split_ifs
    · exact .goesOn hsafe hrelies
    · exact .ends hsafe
  | loading read =>
    rw [step]
    split
    · exact .ends hsafe
    · split_ifs
      · exact .ends hsafe
      · exact .goesOn hsafe ⟨hrelies.1, hrelies.2, read.command.complete _⟩
  | idle read visibility checkedAt left =>
    obtain ⟨hstands, hadmitted, hchecked⟩ := hrelies
    cases left with
    | cons state left =>
      rw [step]
      cases hbusy : s.isBusy state with
      | true => exact .ends hsafe
      | false => exact .goesOn hsafe ⟨hstands, hadmitted, runsChecked_next hchecked hbusy⟩
    | nil =>
      rw [step]
      split_ifs with hfound
      · obtain ⟨hmoves, haccepted⟩ := hundisturbed hfound.2
        refine ⟨fun m hm => ?_, fun q hq => hq.moved read visibility, fun _ h => by cases h⟩
        obtain hm | hm := List.mem_append.mp hm
        · exact hsafe m hm
        · rw [List.mem_singleton.mp hm]
          exact moved_safe hstands hadmitted hchecked hmoves haccepted visibility
      · exact .ends hsafe
  | starting =>
    rw [step]
    split_ifs
    · exact .goesOn hsafe trivial
    · exact .ends hsafe
  | startLocked =>
    rw [step]
    split_ifs
    · exact .ends hsafe
    · refine ⟨hsafe, fun q hq => hq.mono rfl rfl rfl (Nat.le_succ _) fun haccepted => ?_, fun _ h => by cases h⟩
      exact absurd haccepted (Nat.succ_ne_self _)
  | closing =>
    rw [step]
    split_ifs
    · exact .goesOn hsafe trivial
    · exact .ends hsafe
  | closeLocked =>
    exact ⟨hsafe, fun q hq => hq.mono rfl rfl rfl (Nat.le_refl _) fun _ h => h, fun _ h => by cases h⟩

theorem requests_ok : (requests (U := U) (W := W)).Inductive assertions Undisturbed where
  symm _ _ _ := trivial
  start log s input hok _ := by
    cases input <;> exact ⟨trivial, fun _ => trivial⟩
  step log s pid t hok hallowed hat hrelies _ := by
    have hout : Outcome s.store (step s.store t) := step_ok hok.holds hrelies (hallowed t hat)
    exact ⟨⟨hout.holds, fun q _ h => hout.others q h⟩, fun t' ht' => ⟨hout.next t' ht', fun _ _ _ _ => trivial⟩⟩
  env log s c hok _ := by
    cases c with
    | runEnds => exact ⟨hok.holds, fun q _ h => h.mono rfl rfl rfl (Nat.le_refl _) fun _ _ => rfl⟩
    | _ => exact ⟨hok.holds, fun q _ h => h.mono rfl rfl rfl (Nat.le_refl _) fun _ hruns => hruns⟩

/-- In a run in which no move is disturbed every move is safe. -/
theorem moves_safe_when (s : Pool (Store U W) (Going U W)) (hs : (machine.when Undisturbed).Reachable s) :
    ∀ m ∈ s.store.moves, m.Safe := by
  obtain ⟨s₀, h, ⟨hmoves, hidle, -⟩, hr⟩ := hs
  have hstart : (assertions (U := U) (W := W)).holds [] s₀.store := fun m hm => by
    rw [hmoves] at hm
    cases hm
  exact ((requests_ok).run_ok (run_of_when requests hr) (.of_idle hidle hstart)).holds

instance (s : Pool (Store U W) (Going U W)) (move : Move (Request U W) (Change U W)) :
    Decidable ((machine.when Undisturbed).enabled s move) :=
  inferInstanceAs (Decidable (machine.enabled s move ∧ Undisturbed s move))

def shared : Pool (Store Nat Nat) (Going Nat Nat) where
  store := ⟨⟨1, .workspace, 1, true⟩, fun _ _ => true, fun _ => some ⟨false, .workspace⟩, false, fun _ => false, 0, []⟩
  running := []
  started := 0

def moveTo (user workspace : Nat) (visibility : Option ConversationVisibility) : Move (Request Nat Nat) (Change Nat Nat) :=
  .start (.move ⟨user, workspace, visibility,
    [.activeAgentRun, .attachmentProcessing, .executionWorkspaceCommand, .artifactPreview], fun state => by cases state <;> decide⟩)

def steps (pid n : Nat) : List (Move (Request Nat Nat) (Change Nat Nat)) := List.replicate n (.advance pid)

def thenAccepted : List (Move (Request Nat Nat) (Change Nat Nat)) :=
  moveTo 1 2 (some .private_) :: steps 0 9 ++ .start .startRun :: steps 1 2

theorem moves_safe_when_undisturbed :
    ((machine (U := Nat) (W := Nat)).after shared thenAccepted).store.moves.length = 1 ∧
      ∀ m ∈ (machine.after shared thenAccepted).store.moves, m.Safe :=
  have hallows : (machine.when Undisturbed).Allows shared thenAccepted := by decide
  ⟨by decide, moves_safe_when _ ⟨shared, _, ⟨rfl, rfl, rfl⟩, hallows.run⟩⟩

def acceptedBetween : List (Move (Request Nat Nat) (Change Nat Nat)) :=
  moveTo 1 2 none :: steps 0 8 ++ .start .startRun :: steps 1 2 ++ steps 0 1

/-- User 2 moves the conversation to workspace 2. Before the update its creator moves it to workspace 3, private, and back. -/
def awayAndBack : List (Move (Request Nat Nat) (Change Nat Nat)) :=
  moveTo 2 2 none :: steps 0 8 ++ moveTo 1 3 (some .private_) :: steps 1 9 ++ moveTo 1 1 none :: steps 2 9 ++ steps 0 1

/-- A conversation changes its workspace while a run is in progress; and a private one is moved and shown by another
user, whose move and the creator's first one both succeed from the same workspace. -/
theorem moves_unsafe :
    (∃ s, (machine (U := Nat) (W := Nat)).Reachable s ∧ ∃ m ∈ s.store.moves, m.activeRun = true) ∧
    ∃ s, (machine (U := Nat) (W := Nat)).Reachable s ∧ ∃ m ∈ s.store.moves, m.source ∈ m.since ∧
      m.before.visibility = .private_ ∧ m.user ≠ m.before.createdBy ∧ m.SeenBy 2 := by
  have haccepted : machine.Allows shared acceptedBetween := by decide
  have haway : machine.Allows shared awayAndBack := by decide
  refine ⟨⟨_, ⟨shared, _, ⟨rfl, rfl, rfl⟩, haccepted.run⟩, ?_⟩, _, ⟨shared, _, ⟨rfl, rfl, rfl⟩, haway.run⟩, ?_⟩
  · decide
  · decide

end Catalyst.Conversations.Moving
