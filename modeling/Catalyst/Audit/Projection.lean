import Mathlib
import Catalyst.Library.Grouped
import Catalyst.Library.JsText

/-!
# The activity timeline

Audit events are grouped by the request they belong to, each group becomes one activity under its
highest ranked event, and the activities are put in order, the newest first. Governance reads that
follow each other are collapsed into the first of them.
-/

namespace Catalyst.Audit

open Library

inductive PrincipalKind
  | user | service
  deriving DecidableEq

structure DelegatedActor where
  displayLabel : Option String
  deriving DecidableEq

structure AuditActor where
  externalUserId : Option String
  displayLabel : Option String
  roles : List String
  principalKind : Option PrincipalKind
  principalDisplayLabel : Option String
  delegatedActor : Option DelegatedActor
  deriving DecidableEq

inductive AuditEventStatus
  | success | failed | denied
  deriving DecidableEq

inductive MetadataValue
  | text (value : String)
  | other
  deriving DecidableEq

structure AuditEvent where
  id : String
  type : String
  status : AuditEventStatus
  actor : Option AuditActor
  subject : Option String
  reason : Option String
  correlationId : String
  createdAt : String
  metadata : List (String × MetadataValue)
  deriving DecidableEq

inductive AuditActivityActorKind
  | user | assistant | service | system
  deriving DecidableEq

def AuditActivityActorKind.text : AuditActivityActorKind → String
  | user => "user"
  | assistant => "assistant"
  | service => "service"
  | system => "system"

inductive AuditActivityTier
  | governance | workflow | runtime | telemetry
  deriving DecidableEq

inductive AuditActivityOutcome
  | success | failed | denied | warning
  deriving DecidableEq

structure AuditActivityActor where
  kind : AuditActivityActorKind
  label : String
  onBehalfOf : Option String := none
  roles : Option (List String) := none
  deriving DecidableEq

structure AuditActivityTarget where
  kind : String
  id : String
  label : Option String := none
  deriving DecidableEq

structure AuditActivity where
  correlationId : String
  at' : String
  label : String
  tier : AuditActivityTier
  outcome : AuditActivityOutcome
  actor : AuditActivityActor
  target : Option AuditActivityTarget
  reason : Option String
  eventCount : Nat
  repeatCount : Nat
  evidence : List AuditEvent
  deriving DecidableEq

inductive AuditView
  | default | all
  deriving DecidableEq

structure ProjectAuditActivitiesOptions where
  view : AuditView := .default
  limit : Option Nat := none
  deriving DecidableEq

def activityLabels : List (String × String) :=
  [("auth.session_token_issued", "Signed in"),
   ("conversation.cleanup_completed", "Finished removing conversation data"),
   ("conversation.cleanup_failed", "Removing conversation data failed"),
   ("conversation.created", "Started a conversation"),
   ("conversation.deleted", "Deleted a conversation"),
   ("conversation.renamed", "Renamed a conversation"),
   ("conversation.retention_expired", "Conversation retention expired"),
   ("conversation.retention_expiration_failed", "Conversation retention failed"),
   ("conversation.title_generated", "Generated a conversation title"),
   ("conversation.title_generation_failed", "Conversation title generation failed"),
   ("storage.orphaned_files_deleted", "Removed orphaned files"),
   ("audit.pruned", "Removed expired audit events"),
   ("storage.orphaned_file_cleanup_failed", "Orphaned file cleanup failed"),
   ("collaboration_workspace.created", "Created a workspace"),
   ("collaboration_workspace.delete_failed", "Workspace deletion refused"),
   ("collaboration_workspace.deletion_requested", "Requested the deletion of a workspace"),
   ("collaboration_workspace.deletion_stalled", "Workspace deletion stalled"),
   ("collaboration_workspace.updated", "Updated a workspace"),
   ("collaboration_workspace.member_added", "Added a workspace member"),
   ("collaboration_workspace.member_removed", "Removed a workspace member"),
   ("collaboration_workspace.member_left", "Left a workspace"),
   ("collaboration_workspace.member_role_changed", "Changed a workspace member role"),
   ("collaboration_workspace.access_requested", "Requested workspace access"),
   ("collaboration_workspace.access_request_approved", "Approved workspace access"),
   ("collaboration_workspace.access_request_declined", "Declined workspace access"),
   ("message.created", "Sent a message"),
   ("message.completed", "Assistant responded"),
   ("message.failed", "Assistant response failed"),
   ("message.cancelled", "Cancelled a response"),
   ("tool.authorization_checked", "Checked tool authorization"),
   ("tool.started", "Started a tool"),
   ("tool.completed", "Ran a tool"),
   ("tool.failed", "Tool failed"),
   ("workspace_command.queued", "Queued a workspace command"),
   ("workspace_command.running", "Ran a workspace command"),
   ("workspace_command.completed", "Workspace command completed"),
   ("workspace_command.failed", "Workspace command failed"),
   ("workspace_command.timed_out", "Workspace command timed out"),
   ("workspace_command.cancelled", "Workspace command cancelled"),
   ("workspace_command.recovered_stale", "Recovered a stale workspace command"),
   ("governance.audit_events_viewed", "Viewed the audit log"),
   ("governance.users_viewed", "Viewed users"),
   ("governance.usage_viewed", "Viewed usage"),
   ("governance.user_create_authorized", "Authorized creating a user"),
   ("governance.user_update_authorized", "Authorized updating a user"),
   ("governance.user_identity_upsert_authorized", "Authorized a user identity change"),
   ("governance.user_identity_delete_authorized", "Authorized removing a user identity"),
   ("governance.user_password_reset_authorized", "Authorized a password reset"),
   ("governance.user_invitation_authorized", "Authorized a user invitation"),
   ("user.created", "Created a user"),
   ("user.delete_failed", "User deletion refused"),
   ("user.deletion_requested", "Requested the deletion of a user"),
   ("user.deletion_stalled", "User deletion stalled"),
   ("user.updated", "Updated a user"),
   ("user.profile_updated", "Updated a profile"),
   ("user.identity_linked", "Linked a user identity"),
   ("user.identity_upserted", "Updated a user identity"),
   ("user.identity_deleted", "Removed a user identity"),
   ("user.password_changed", "Changed a password"),
   ("user.password_reset", "Reset a password"),
   ("user.password_reset_requested", "Requested a password reset email"),
   ("user.invitation_sent", "Sent a user invitation"),
   ("user.password_sign_in_created", "Created sign-in credentials"),
   ("agent_run.recovered", "Recovered an agent run"),
   ("agent_runtime.run_failed", "Agent run failed"),
   ("model_context_projection.file_unavailable", "Referenced file unavailable"),
   ("model_context_projection.artifact_unavailable", "Referenced artifact unavailable"),
   ("model_context_projection.bounded_tool_output", "Bounded a large tool output")]

def toolActionLabels : List (String × String) :=
  [("workspace.exec", "Ran a command"),
   ("workspace.list_files", "Listed workspace files"),
   ("workspace.read_file", "Read a workspace file"),
   ("workspace.import_files", "Imported files"),
   ("workspace.promote_artifact", "Saved an artifact"),
   ("workspace.preview_images", "Loaded artifact preview images"),
   ("workspace.file", "Wrote a workspace file")]

def governanceReadTypes : List String :=
  ["governance.audit_events_viewed", "governance.users_viewed", "governance.usage_viewed"]

/-- `type.startsWith(word)` -/
def startsWith (type word : String) : Bool := word.toList.isPrefixOf type.toList

def tierForType (type : String) : AuditActivityTier :=
  if startsWith type "governance." || startsWith type "user." || startsWith type "auth." ||
      startsWith type "audit." || startsWith type "collaboration_workspace." ||
      type == "conversation.deleted" || startsWith type "conversation.cleanup" ||
      startsWith type "conversation.retention" then .governance
  else if startsWith type "message." || startsWith type "conversation." then .workflow
  else if startsWith type "agent_run" || startsWith type "agent_runtime" ||
      startsWith type "model_context_projection" || type == "workspace_command.recovered_stale" then
    .telemetry
  else .runtime

def rankForType (type : String) : Nat :=
  if startsWith type "governance." then 100
  else if startsWith type "user." then 95
  else if startsWith type "auth." then 90
  else if startsWith type "collaboration_workspace." then 88
  else if startsWith type "conversation." then 85
  else if type ∈ ["message.completed", "message.failed", "message.cancelled"] then 80
  else if type = "message.created" then 75
  else if startsWith type "workspace." then 40
  else if startsWith type "tool." then 38
  else if startsWith type "workspace_command." then 35
  else 10

def metadataString (event : AuditEvent) (key : String) : Option String :=
  match event.metadata.lookup key with
  | some (.text value) => some value
  | _ => none

def nonempty (text : Option String) : Option String := text.filter (· ≠ "")

def labelForEvent (event : AuditEvent) : String :=
  let action := if startsWith event.type "tool." then nonempty (metadataString event "auditAction") else none
  ((action.bind fun action => toolActionLabels.lookup action).or (activityLabels.lookup event.type)).getD event.type

def reasonForEvent (event : AuditEvent) : Option String :=
  (nonempty event.reason).or ((metadataString event "reason").or (metadataString event "code"))

def resolveActor : Option AuditActor → AuditActivityActor
  | none => { kind := .system, label := "System" }
  | some actor =>
    match actor.delegatedActor with
    | some delegated =>
      { kind := .assistant
        label := delegated.displayLabel.getD "Assistant"
        onBehalfOf := actor.displayLabel
        roles := some actor.roles }
    | none =>
      if actor.principalKind = some .service then
        { kind := .service
          label := (actor.principalDisplayLabel.or actor.displayLabel).getD "Service"
          roles := some actor.roles }
      else
        { kind := .user
          label := (actor.displayLabel.or actor.externalUserId).getD "User"
          roles := some actor.roles }

def targetOf (kind : String) (id label : Option String) : Option AuditActivityTarget :=
  (nonempty id).map fun id => { kind := kind, id := id, label := label }

def resolveTarget (event : AuditEvent) : Option AuditActivityTarget :=
  let type := event.type
  if startsWith type "message." then
    targetOf "conversation" ((metadataString event "conversationId").or event.subject) none
  else if startsWith type "conversation." then targetOf "conversation" event.subject none
  else if startsWith type "collaboration_workspace." then
    targetOf "collaboration_workspace" event.subject none
  else if startsWith type "user." || startsWith type "governance.user_" then
    targetOf "user" event.subject none
  else if startsWith type "tool." then
    targetOf "tool" ((metadataString event "auditSubject").or event.subject) event.subject
  else if startsWith type "workspace_command." then targetOf "command" event.subject none
  else none

def aggregateOutcome (headline : AuditEvent) (events : List AuditEvent) : AuditActivityOutcome :=
  if headline.status = .denied then .denied
  else if headline.status = .failed then .failed
  else if events.any (·.status = .denied) then .denied
  else if events.any (·.status = .failed) then .warning
  else .success

/-- JavaScript's `left > right` of two texts. -/
def later (left right : String) : Bool := decide (Js.utf16 right.toList < Js.utf16 left.toList)

def betterHeadline (best candidate : AuditEvent) : AuditEvent :=
  if rankForType best.type < rankForType candidate.type then candidate
  else if rankForType candidate.type = rankForType best.type ∧ later candidate.createdAt best.createdAt then
    candidate
  else best

/-- The headline of the events `first :: rest`. -/
def pickHeadline (first : AuditEvent) (rest : List AuditEvent) : AuditEvent := rest.foldl betterHeadline first

structure BuiltActivity where
  activity : AuditActivity
  headlineType : String
  actorKey : String
  deriving DecidableEq

/-- `left.localeCompare(right) <= 0` -/
abbrev TextOrder := String → String → Bool

/-- One activity of a group of events; a group is never empty. -/
def buildActivity (le : TextOrder) (events : List AuditEvent) : Option BuiltActivity :=
  match events.insertionSort fun left right => le left.createdAt right.createdAt with
  | [] => none
  | first :: rest =>
    let ascending := first :: rest
    let headline := pickHeadline first rest
    let actor := resolveActor (headline.actor.or (ascending.findSome? (·.actor)))
    some
      { activity :=
          { correlationId := headline.correlationId
            at' := (ascending.getLast?.getD headline).createdAt
            label := labelForEvent headline
            tier := tierForType headline.type
            outcome := aggregateOutcome headline ascending
            actor := actor
            target := (resolveTarget headline).or (ascending.findSome? resolveTarget)
            reason := (reasonForEvent headline).or (ascending.findSome? fun e => nonempty (reasonForEvent e))
            eventCount := ascending.length
            repeatCount := 1
            evidence := ascending.reverse }
        headlineType := headline.type
        actorKey := s!"{actor.kind.text}:{actor.label}" }

def isRepeat (previous current : BuiltActivity) : Bool :=
  decide (current.headlineType ∈ governanceReadTypes) && current.headlineType == previous.headlineType &&
    current.actorKey == previous.actorKey

def AuditActivity.withRepeat (last : AuditActivity) (current : BuiltActivity) : AuditActivity :=
  { last with
    repeatCount := last.repeatCount + 1
    eventCount := last.eventCount + current.activity.eventCount }

/-- The loop behind an activity that was pushed: `previous`, and `last` as it stands. -/
def collapseBehind (previous : BuiltActivity) (last : AuditActivity) : List BuiltActivity → List AuditActivity
  | [] => [last]
  | current :: built =>
    if isRepeat previous current then collapseBehind previous (last.withRepeat current) built
    else last :: collapseBehind current current.activity built

def collapseRepeatedReads : List BuiltActivity → List AuditActivity
  | [] => []
  | first :: built => collapseBehind first first.activity built

def isDefaultVisible (activity : AuditActivity) : Bool :=
  activity.tier == .governance || activity.tier == .workflow || activity.outcome != .success

def groupsOf (events : List AuditEvent) : OrderedMap String (List AuditEvent) :=
  events.foldl (fun groups event => OrderedMap.set groups event.correlationId
    (((OrderedMap.get? groups event.correlationId).getD []) ++ [event])) []

def timeline (le : TextOrder) (events : List AuditEvent) : List BuiltActivity :=
  (((groupsOf events).map Prod.snd).filterMap (buildActivity le)).insertionSort
    fun left right => le right.activity.at' left.activity.at'

def shown (options : ProjectAuditActivitiesOptions) (activities : List AuditActivity) : List AuditActivity :=
  let visible := match options.view with
    | .default => activities.filter isDefaultVisible
    | .all => activities
  match options.limit with
  | some limit => visible.take limit
  | none => visible

def projectAuditActivities (le : TextOrder) (events : List AuditEvent)
    (options : ProjectAuditActivitiesOptions) : List AuditActivity :=
  shown options (collapseRepeatedReads (timeline le events))

end Catalyst.Audit
