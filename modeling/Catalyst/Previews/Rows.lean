import Catalyst.Library.Processes
import Catalyst.Library.Table
import Mathlib

/-!
# The rows of the previews

A preview is one row that is waited for, worked on under a lease, and ended, and one manifest that names its
pages. A worker stores the images of the pages first and publishes them in one transaction with the manifest.
A transaction whose first statement locks the row is one step. The completion locks the conversation before.
-/

namespace Catalyst.Previews.Rows

open Library Processes

variable {C I : Type}

-- -----------------
-- Rows
-- -----------------

inductive ArtifactPreviewJobStatus where
  | pending | processing | completed | failed | unsupported
  deriving DecidableEq

def isTerminalArtifactPreviewJob : ArtifactPreviewJobStatus → Bool
  | .completed | .failed | .unsupported => true
  | .pending | .processing => false

inductive ArtifactPreviewFailureCode where
  | unsupportedType | sourceMissing | sourceTooLarge | outputTooLarge | pageLimitExceeded | conversionTimeout
  | conversionFailed | rasterizationFailed | storageFailed | internalError | staleLease
  deriving DecidableEq

/-- The identity is the renderer, its version and the hash of the settings. -/
structure ArtifactPreviewJobRecord (C I : Type) where
  id : Nat
  conversationId : C
  sourceArtifactId : Nat
  identity : I
  status : ArtifactPreviewJobStatus
  attempts : Nat
  nextAttemptAt : Option Nat
  leaseOwnerId : Option Nat
  leaseToken : Option Nat
  leaseExpiresAt : Option Nat
  errorCode : Option ArtifactPreviewFailureCode

namespace ArtifactPreviewJobRecord

variable (row : ArtifactPreviewJobRecord C I)

def key : Nat × I := (row.sourceArtifactId, row.identity)

def Terminal : Prop := isTerminalArtifactPreviewJob row.status = true
  deriving Decidable

def Claimable (leaseOwnerId now : Nat) : Prop :=
  row.status = .pending ∨ row.status = .processing ∧
    (row.leaseExpiresAt = none ∨ (∃ e ∈ row.leaseExpiresAt, e ≤ now) ∨ row.leaseOwnerId = some leaseOwnerId)
  deriving Decidable

def Claimed (leaseToken : Nat) : Prop := row.status = .processing ∧ row.leaseToken = some leaseToken
  deriving Decidable

def claim (leaseOwnerId leaseToken leaseMs now : Nat) : ArtifactPreviewJobRecord C I :=
  { row with
    status := .processing, attempts := row.attempts + 1, nextAttemptAt := none, leaseOwnerId := some leaseOwnerId
    leaseToken := some leaseToken, leaseExpiresAt := some (now + leaseMs), errorCode := none }

def waiting (at' : Nat) : ArtifactPreviewJobRecord C I :=
  { row with
    status := .pending, attempts := 0, nextAttemptAt := some at', leaseOwnerId := none, leaseToken := none
    leaseExpiresAt := none, errorCode := none }

def released (status : ArtifactPreviewJobStatus) (retryAt : Option Nat) (errorCode : Option ArtifactPreviewFailureCode) :
    ArtifactPreviewJobRecord C I :=
  { row with
    status := status, nextAttemptAt := retryAt, leaseOwnerId := none, leaseToken := none, leaseExpiresAt := none
    errorCode := errorCode }

end ArtifactPreviewJobRecord

/-- Two jobs, or two leases of one, share no key. -/
structure PreviewObjectKey (C : Type) where
  conversationId : C
  sourceArtifactId : Nat
  jobId : Nat
  leaseToken : Nat
  /-- The SHA-256 of the page. -/
  checksum : Nat
  pageIndex : Nat
  /-- The rendition for the model. -/
  model : Bool
  deriving DecidableEq

inductive ObjectKey (C : Type) where
  | preview (key : PreviewObjectKey C)
  | other (name : Nat)
  deriving DecidableEq

inductive ManagedArtifactStatus where
  | available | deleted
  deriving DecidableEq

structure ManagedArtifactRecord (C : Type) where
  id : Nat
  conversationId : C
  objectKey : ObjectKey C
  status : ManagedArtifactStatus
  deriving DecidableEq

inductive ArtifactPreviewManifestStatus where
  | ready | failed | unsupported
  deriving DecidableEq

structure ArtifactPreviewImagePageRef where
  artifactId : Nat
  /-- The artifact of the rendition for the model. -/
  modelImage : Option Nat

structure ArtifactPreviewManifest (C : Type) where
  conversationId : C
  status : ArtifactPreviewManifestStatus
  pages : List ArtifactPreviewImagePageRef
  errorCode : Option ArtifactPreviewFailureCode

def ArtifactPreviewManifest.artifactIds (manifest : ArtifactPreviewManifest C) : List Nat :=
  manifest.pages.flatMap fun page => page.artifactId :: page.modelImage.toList

structure Store (C I : Type) where
  rows : List (ArtifactPreviewJobRecord C I)
  manifests : Nat × I → Option (ArtifactPreviewManifest C)
  artifacts : List (ManagedArtifactRecord C)
  objects : List (ObjectKey C)
  /-- The conversation is active, neither deleted nor expired. -/
  active : C → Bool
  now : Nat
  /-- The next id or token to be drawn. -/
  drawn : Nat
  /-- The conversations whose objects a cleanup has begun to remove. No query reads it. -/
  cleanups : List C
  /-- The leases whose completion has committed without its worker being told. No query reads it. -/
  unacknowledged : List Nat

structure ClaimedRow (C I : Type) where
  row : ArtifactPreviewJobRecord C I
  leaseToken : Nat
  held : row.leaseToken = some leaseToken

structure ArtifactPreviewRenderedPage where
  checksum : Nat
  /-- Whether it has a rendition for the model. -/
  modelImage : Bool

structure ArtifactPreviewImageArtifactInput (C : Type) where
  objectKey : PreviewObjectKey C
  modelImage : Option (PreviewObjectKey C)

def createArtifactPreviewObjectKey (job : ClaimedRow C I) (checksum pageIndex : Nat) (model : Bool) : PreviewObjectKey C where
  conversationId := job.row.conversationId
  sourceArtifactId := job.row.sourceArtifactId
  jobId := job.row.id
  leaseToken := job.leaseToken
  checksum := checksum
  pageIndex := pageIndex
  model := model

/-- What `stageRenderedPages` answers. -/
def previewArtifacts (job : ClaimedRow C I) (pages : List ArtifactPreviewRenderedPage) :
    List (ArtifactPreviewImageArtifactInput C) :=
  pages.zipIdx.map fun (page, index) =>
    ⟨createArtifactPreviewObjectKey job page.checksum index false,
      if page.modelImage then some (createArtifactPreviewObjectKey job page.checksum index true) else none⟩

def objectKeys (artifacts : List (ArtifactPreviewImageArtifactInput C)) : List (PreviewObjectKey C) :=
  artifacts.flatMap fun artifact => artifact.objectKey :: artifact.modelImage.toList

def availableArtifact (conversationId : C) (id : Nat) (key : PreviewObjectKey C) : ManagedArtifactRecord C where
  id := id
  conversationId := conversationId
  objectKey := .preview key
  status := .available

/-- The artifacts of the pages under ids from `next` on, and the pages. -/
def createPreviewArtifacts (conversationId : C) (next : Nat) :
    List (ArtifactPreviewImageArtifactInput C) → List (ManagedArtifactRecord C) × List ArtifactPreviewImagePageRef
  | [] => ([], [])
  | input :: inputs =>
    let created := createPreviewArtifacts conversationId (next + 2) inputs
    (availableArtifact conversationId next input.objectKey ::
        (input.modelImage.map (availableArtifact conversationId (next + 1))).toList ++ created.1,
      ⟨next, input.modelImage.map fun _ => next + 1⟩ :: created.2)

/-- What ends the work on a row, or gives it up until `retryAt`. -/
inductive Ending where
  | fail (errorCode : ArtifactPreviewFailureCode) (retryAt : Option Nat)
  | unsupported (errorCode : ArtifactPreviewFailureCode)

def Ending.row (job : ArtifactPreviewJobRecord C I) : Ending → ArtifactPreviewJobRecord C I
  | .fail errorCode none => job.released .failed none (some errorCode)
  | .fail errorCode (some retryAt) => job.released .pending (some retryAt) (some errorCode)
  | .unsupported errorCode => job.released .unsupported none (some errorCode)

/-- `writeTerminalPreviewManifest`, where the ending is one -/
def Ending.manifest (conversationId : C) : Ending → Option (ArtifactPreviewManifest C)
  | .fail errorCode none => some ⟨conversationId, .failed, [], some errorCode⟩
  | .fail _ (some _) => none
  | .unsupported errorCode => some ⟨conversationId, .unsupported, [], some errorCode⟩

section

variable [DecidableEq I] (s : Store C I)

def Store.update (p : ArtifactPreviewJobRecord C I → Prop) [DecidablePred p]
    (f : ArtifactPreviewJobRecord C I → ArtifactPreviewJobRecord C I) : Store C I :=
  { s with rows := updateWhere p f s.rows }

/-- The row that the token holds: `claimedArtifactPreviewJobWhere`. -/
def Store.claimed? (id leaseToken : Nat) : Option (ArtifactPreviewJobRecord C I) :=
  s.rows.find? fun row => row.id = id ∧ row.Claimed leaseToken

def Store.writeManifest (key : Nat × I) (manifest : Option (ArtifactPreviewManifest C)) : Store C I :=
  { s with manifests := if manifest.isSome then Function.update s.manifests key manifest else s.manifests }

/-- The transaction of `completeClaimedArtifactPreviewJob`, of the row it updates. -/
def Store.complete (job : ArtifactPreviewJobRecord C I) (leaseToken : Nat)
    (inputs : List (ArtifactPreviewImageArtifactInput C)) : Store C I :=
  let created := createPreviewArtifacts job.conversationId s.drawn inputs
  let updated := s.update (fun row => row.id = job.id ∧ row.Claimed leaseToken) (·.released .completed none none)
  { updated.writeManifest job.key (some ⟨job.conversationId, .ready, created.2, none⟩) with
    artifacts := s.artifacts ++ created.1
    drawn := s.drawn + 2 * inputs.length }

/-- `failClaimedArtifactPreviewJob` and `markClaimedArtifactPreviewJobUnsupported`, of the row they update -/
def Store.finish (job : ArtifactPreviewJobRecord C I) (leaseToken : Nat) (ending : Ending) : Store C I :=
  (s.update (fun row => row.id = job.id ∧ row.Claimed leaseToken) ending.row).writeManifest job.key
    (ending.manifest job.conversationId)

end

inductive Rendering where
  | pages (pages : List ArtifactPreviewRenderedPage)
  | failed (code : ArtifactPreviewFailureCode) (retryable : Bool)
  | unsupported

inductive Commit where
  | acknowledged
  /-- It commits, and its worker sees an error. -/
  | unacknowledged
  /-- It does not commit. -/
  | failed
  deriving DecidableEq

/-- One attempt of a job of the executor at its row, with what the rendering and the object store do. -/
structure Attempt (C : Type) where
  jobId : Nat
  previewJobId : Nat
  leaseMs : Nat
  lastAttempt : Bool
  /-- When a failure is tried again. The worker of this release leaves it to the executor and names none. -/
  retryAt : Option Nat
  rendering : Rendering
  commit : Commit
  putFails : PreviewObjectKey C → Bool
  deleteFails : PreviewObjectKey C → Bool

structure EnqueueArtifactPreviewJobInput (C I : Type) where
  conversationId : C
  sourceArtifactId : Nat
  identity : I
  replaceTerminal : Bool
  queuedAt : Nat

structure ArtifactPreviewFailure where
  code : ArtifactPreviewFailureCode
  retryable : Bool

/-- Where a request stands. -/
inductive Going (C I : Type) where
  | claiming (attempt : Attempt C)
  | rendering (attempt : Attempt C) (job : ClaimedRow C I)
  /-- The images that are put, and those that are left. -/
  | staging (attempt : Attempt C) (job : ClaimedRow C I) (artifacts : List (ArtifactPreviewImageArtifactInput C))
      (put left : List (PreviewObjectKey C))
  | completing (attempt : Attempt C) (job : ClaimedRow C I) (artifacts : List (ArtifactPreviewImageArtifactInput C))
  | conversationLocked (attempt : Attempt C) (job : ClaimedRow C I) (artifacts : List (ArtifactPreviewImageArtifactInput C))
  /-- `deleteStagedObjects`, and the failure that goes on to be written. -/
  | removing (attempt : Attempt C) (job : ClaimedRow C I) (keys : List (PreviewObjectKey C)) (failure : ArtifactPreviewFailure)
  | finishing (job : ClaimedRow C I) (ending : Ending)
  | exhausting (jobId previewJobId leaseMs : Nat)
  | enqueuing (input : EnqueueArtifactPreviewJobInput C I)
  | replacing (id queuedAt : Nat)
  | restoring (id : Nat)
  | renewing (id leaseToken leaseMs : Nat)
  | deleting (conversationId : C)
  | cleaning (conversationId : C)
  | removingObjects (conversationId : C) (keys : List (ObjectKey C))
  | marking (conversationId : C)

inductive Request (C I : Type) where
  | attempt (attempt : Attempt C)
  | exhaust (jobId previewJobId leaseMs : Nat)
  | enqueue (input : EnqueueArtifactPreviewJobInput C I)
  | restore (id : Nat)
  | renew (id leaseToken leaseMs : Nat)
  | deleteConversation (conversationId : C)
  | retryCleanup (conversationId : C)

inductive Change (C : Type) where
  | tick
  | artifact (conversationId : C) (name : Nat)

def Going.locked : Going C I → Option C
  | .conversationLocked _ job _ => some job.row.conversationId
  | _ => none

def Going.locks : Going C I → Option C
  | .completing _ job _ => some job.row.conversationId
  | .deleting conversationId | .marking conversationId => some conversationId
  | _ => none

def Attempt.fail (attempt : Attempt C) (job : ClaimedRow C I) (failure : ArtifactPreviewFailure) : Option (Going C I) :=
  if failure.retryable = true ∧ attempt.lastAttempt = false then none
  else some (.finishing job (.fail failure.code attempt.retryAt))

section

variable [DecidableEq C] [DecidableEq I]

def enqueuedRow (input : EnqueueArtifactPreviewJobInput C I) (id : Nat) : ArtifactPreviewJobRecord C I where
  id := id
  conversationId := input.conversationId
  sourceArtifactId := input.sourceArtifactId
  identity := input.identity
  status := .pending
  attempts := 0
  nextAttemptAt := some input.queuedAt
  leaseOwnerId := none
  leaseToken := none
  leaseExpiresAt := none
  errorCode := none

def claim (s : Store C I) (attempt : Attempt C) : Option Unit × Option (Going C I) × Store C I :=
  match s.rows.find? fun row => row.id = attempt.previewJobId with
  | none => (none, none, s)
  | some row =>
    if row.Claimable attempt.jobId s.now then
      (none, some (.rendering attempt ⟨row.claim attempt.jobId s.drawn attempt.leaseMs s.now, s.drawn, rfl⟩),
        { s.update (fun row => row.id = attempt.previewJobId ∧ row.Claimable attempt.jobId s.now)
            (·.claim attempt.jobId s.drawn attempt.leaseMs s.now) with
          drawn := s.drawn + 1 })
    else if row.Terminal then (none, none, s)
    else (none, some (.claiming attempt), s)

/-- The completion, once the conversation is locked: its transaction, or a conflict. -/
def complete (s : Store C I) (attempt : Attempt C) (job : ClaimedRow C I)
    (artifacts : List (ArtifactPreviewImageArtifactInput C)) : Option Unit × Option (Going C I) × Store C I :=
  let conflict := (none, some (.removing attempt job (objectKeys artifacts) ⟨.sourceMissing, false⟩), s)
  match s.claimed? job.row.id job.leaseToken with
  | none => conflict
  | some row =>
    if ∃ artifact ∈ s.artifacts, artifact.id = row.sourceArtifactId ∧ artifact.conversationId = row.conversationId ∧
        artifact.status = .available then
      match attempt.commit with
      | .acknowledged => (none, none, s.complete row job.leaseToken artifacts)
      | .unacknowledged =>
        (none, some (.removing attempt job (objectKeys artifacts) ⟨.internalError, true⟩),
          { s.complete row job.leaseToken artifacts with unacknowledged := job.leaseToken :: s.unacknowledged })
      | .failed => (none, some (.removing attempt job (objectKeys artifacts) ⟨.internalError, true⟩), s)
    else conflict

/-- `failAfterLastAttempt` claims the row and fails it in one transaction. -/
def exhaust (s : Store C I) (jobId previewJobId leaseMs : Nat) : Store C I :=
  match s.rows.find? fun row => row.id = previewJobId ∧ row.Claimable jobId s.now with
  | none => s
  | some row =>
    { (s.update (fun row => row.id = previewJobId ∧ row.Claimable jobId s.now) fun row =>
          (Ending.fail .staleLease none).row (row.claim jobId s.drawn leaseMs s.now)).writeManifest row.key
        ((Ending.fail .staleLease none).manifest row.conversationId) with
      drawn := s.drawn + 1 }

/-- `markConversationManagedObjectsDeleted` -/
def mark (s : Store C I) (conversationId : C) : Store C I :=
  { s with
    rows := deleteWhere (fun row => row.conversationId = conversationId) s.rows
    manifests := fun key => (s.manifests key).filter fun manifest => manifest.conversationId ≠ conversationId
    artifacts := updateWhere (fun artifact => artifact.conversationId = conversationId ∧ artifact.status ≠ .deleted)
      (fun artifact => { artifact with status := .deleted }) s.artifacts }

def step (s : Store C I) : Going C I → Option Unit × Option (Going C I) × Store C I
  | .claiming attempt => claim s attempt
  | .rendering attempt job =>
    match attempt.rendering with
    | .pages pages =>
      (none, some (.staging attempt job (previewArtifacts job pages) [] (objectKeys (previewArtifacts job pages))), s)
    | .failed code retryable => (none, attempt.fail job ⟨code, retryable⟩, s)
    | .unsupported => (none, some (.finishing job (.unsupported .unsupportedType)), s)
  | .staging attempt job artifacts put (key :: left) =>
    if attempt.putFails key then (none, some (.removing attempt job (put ++ [key]) ⟨.storageFailed, true⟩), s)
    else (none, some (.staging attempt job artifacts (put ++ [key]) left), { s with objects := .preview key :: s.objects })
  | .staging attempt job artifacts _ [] => (none, some (.completing attempt job artifacts), s)
  | .completing attempt job artifacts =>
    if s.active job.row.conversationId = true ∧ (s.claimed? job.row.id job.leaseToken).isSome then
      (none, some (.conversationLocked attempt job artifacts), s)
    else (none, some (.removing attempt job (objectKeys artifacts) ⟨.sourceMissing, false⟩), s)
  | .conversationLocked attempt job artifacts => complete s attempt job artifacts
  | .removing attempt job (key :: keys) failure =>
    (none, some (.removing attempt job keys failure),
      if attempt.deleteFails key then s else { s with objects := s.objects.filter (· ≠ .preview key) })
  | .removing attempt job [] failure => (none, attempt.fail job failure, s)
  | .finishing job ending =>
    match s.claimed? job.row.id job.leaseToken with
    | none => (none, none, s)
    | some row => (none, none, s.finish row job.leaseToken ending)
  | .exhausting jobId previewJobId leaseMs => (none, none, exhaust s jobId previewJobId leaseMs)
  | .enqueuing input =>
    match s.rows.find? fun row => row.key = (input.sourceArtifactId, input.identity) with
    | none => (none, none, { s with rows := enqueuedRow input s.drawn :: s.rows, drawn := s.drawn + 1 })
    | some existing =>
      if input.replaceTerminal = true ∧ existing.Terminal then (none, some (.replacing existing.id input.queuedAt), s)
      else (none, none, s)
  | .replacing id queuedAt => (none, none, s.update (fun row => row.id = id ∧ row.Terminal) (·.waiting queuedAt))
  | .restoring id => (none, none, s.update (fun row => row.id = id ∧ row.status = .failed) (·.waiting s.now))
  | .renewing id leaseToken leaseMs =>
    (none, none, s.update (fun row => row.id = id ∧ row.Claimed leaseToken) fun row =>
      { row with leaseExpiresAt := some (s.now + leaseMs) })
  | .deleting conversationId =>
    if s.active conversationId then
      (none, some (.cleaning conversationId), { s with active := Function.update s.active conversationId false })
    else (none, none, s)
  | .cleaning conversationId =>
    if s.active conversationId then (none, none, s)
    else
      (none, some (.removingObjects conversationId ((s.artifacts.filter fun artifact =>
          artifact.conversationId = conversationId ∧ artifact.status ≠ .deleted).map (·.objectKey))),
        { s with cleanups := conversationId :: s.cleanups })
  | .removingObjects conversationId (key :: keys) =>
    (none, some (.removingObjects conversationId keys), { s with objects := s.objects.filter (· ≠ key) })
  | .removingObjects conversationId [] => (none, some (.marking conversationId), s)
  | .marking conversationId => (none, none, mark s conversationId)

def change (s : Store C I) : Change C → Store C I
  | .tick => { s with now := s.now + 1 }
  | .artifact conversationId name =>
    { s with
      artifacts := ⟨s.drawn, conversationId, .other name, .available⟩ :: s.artifacts
      objects := .other name :: s.objects
      drawn := s.drawn + 1 }

def requests : Processes (Store C I) (Request C I) (Going C I) (Change C) Unit where
  start
    | .attempt attempt => .claiming attempt
    | .exhaust jobId previewJobId leaseMs => .exhausting jobId previewJobId leaseMs
    | .enqueue input => .enqueuing input
    | .restore id => .restoring id
    | .renew id leaseToken leaseMs => .renewing id leaseToken leaseMs
    | .deleteConversation conversationId => .deleting conversationId
    | .retryCleanup conversationId => .cleaning conversationId
  blocks p q := ∃ c ∈ p.locked, q.locks = some c
  step := step
  env s c := (none, change s c)

instance (p q : Going C I) : Decidable ((requests (C := C) (I := I)).blocks p q) :=
  inferInstanceAs (Decidable (∃ c ∈ p.locked, q.locks = some c))

structure Fresh (s : Store C I) : Prop where
  rows : s.rows = []
  artifacts : ∀ artifact ∈ s.artifacts, ∀ key, artifact.objectKey ≠ .preview key

def machine : Machine (Pool (Store C I) (Going C I)) (Move (Request C I) (Change C)) (Option Unit) :=
  requests.machine Fresh fun _ _ => True

instance (s : Pool (Store C I) (Going C I)) (move : Move (Request C I) (Change C)) : Decidable (machine.enabled s move) :=
  inferInstanceAs (Decidable (requests.Unblocked s move ∧ True))

end

end Catalyst.Previews.Rows
