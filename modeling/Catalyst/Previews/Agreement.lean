import Catalyst.Previews.Rows
import Mathlib

/-!
# Rows and manifests agree

The images of a page are put under the lease of their worker, so that no one else removes them before they are
published, and afterwards only the worker that was not told that its completion has committed.
-/

namespace Catalyst.Previews.Rows

open Library Processes

variable {C I : Type} {s s' : Store C I} {row row' job : ArtifactPreviewJobRecord C I} {lease : Option Nat}

-- -----------------
-- What holds
-- -----------------

def ArtifactPreviewJobStatus.manifestStatus : ArtifactPreviewJobStatus → Option ArtifactPreviewManifestStatus
  | .completed => some .ready
  | .failed => some .failed
  | .unsupported => some .unsupported
  | .pending | .processing => none

/-- The artifact's object is stored, unless a cleanup of the conversation removes objects or the worker that put it
was not told that it was published. -/
def Kept (s : Store C I) (artifact : ManagedArtifactRecord C) (key : PreviewObjectKey C) : Prop :=
  .preview key ∈ s.objects ∨ artifact.conversationId ∈ s.cleanups ∨ key.leaseToken ∈ s.unacknowledged

def Agrees (s : Store C I) (row : ArtifactPreviewJobRecord C I) : Prop :=
  ∀ status ∈ row.status.manifestStatus, ∃ manifest ∈ s.manifests row.key,
    manifest.status = status ∧ manifest.conversationId = row.conversationId ∧
      ∀ id ∈ manifest.artifactIds, ∃ artifact ∈ s.artifacts, artifact.id = id ∧ artifact.status = .available ∧
        artifact.conversationId = row.conversationId ∧ ∃ key, artifact.objectKey = .preview key

structure Shown (s : Store C I) (artifact : ManagedArtifactRecord C) (key : PreviewObjectKey C) : Prop where
  conversationId : key.conversationId = artifact.conversationId
  drawn : key.leaseToken < s.drawn
  kept : artifact.status = .available → Kept s artifact key

structure Sound (s : Store C I) : Prop where
  ids : (s.rows.map (·.id)).Nodup
  keys : (s.rows.map (·.key)).Nodup
  drawn : ∀ row ∈ s.rows, row.id < s.drawn
  agree : ∀ row ∈ s.rows, Agrees s row
  shown : ∀ artifact ∈ s.artifacts, ∀ key, artifact.objectKey = .preview key → Shown s artifact key

def Unpublished (s : Store C I) (leaseToken : Nat) : Prop :=
  ∀ artifact ∈ s.artifacts, ∀ key, artifact.objectKey = .preview key → key.leaseToken ≠ leaseToken

structure Publishing (s : Store C I) (job : ClaimedRow C I) : Prop where
  token : job.leaseToken < s.drawn
  id : job.row.id < s.drawn
  same : ∀ row ∈ s.rows, row.id = job.row.id → row.conversationId = job.row.conversationId
  unpublished : Unpublished s job.leaseToken

def Ours (job : ClaimedRow C I) (keys : List (PreviewObjectKey C)) : Prop :=
  ∀ key ∈ keys, key.leaseToken = job.leaseToken ∧ key.conversationId = job.row.conversationId

def Put (s : Store C I) (keys : List (PreviewObjectKey C)) : Prop := ∀ key ∈ keys, ObjectKey.preview key ∈ s.objects

def relies (s : Store C I) : Going C I → Prop
  | .rendering _ job => Publishing s job
  | .staging _ job artifacts put left =>
    Publishing s job ∧ Ours job (objectKeys artifacts) ∧ put ++ left = objectKeys artifacts ∧ Put s put
  | .completing _ job artifacts | .conversationLocked _ job artifacts =>
    Publishing s job ∧ Ours job (objectKeys artifacts) ∧ Put s (objectKeys artifacts)
  | .removing _ job keys _ =>
    job.leaseToken < s.drawn ∧ Ours job keys ∧ (Unpublished s job.leaseToken ∨ job.leaseToken ∈ s.unacknowledged)
  | .removingObjects conversationId keys =>
    conversationId ∈ s.cleanups ∧ ∀ key ∈ keys, ∃ artifact ∈ s.artifacts,
      artifact.objectKey = key ∧ artifact.conversationId = conversationId
  | _ => True

def Going.token : Going C I → Option Nat
  | .rendering _ job | .staging _ job _ _ _ | .completing _ job _ | .conversationLocked _ job _ | .removing _ job _ _ =>
    some job.leaseToken
  | _ => none

def assertions : Assertions (Store C I) (Going C I) Unit where
  holds _ s := Sound s
  relies _ s t := relies s t
  apart p q := ∀ token ∈ p.token, q.token ≠ some token

/-- What everybody but the holder of the token relies on. -/
structure Leaves (s s' : Store C I) (lease : Option Nat) : Prop where
  drawn : s.drawn ≤ s'.drawn
  rows : ∀ row' ∈ s'.rows, s.drawn ≤ row'.id ∨ ∃ row ∈ s.rows, row.id = row'.id ∧ row.conversationId = row'.conversationId
  published : ∀ artifact ∈ s'.artifacts, ∀ key, artifact.objectKey = .preview key →
    lease = some key.leaseToken ∨ ∃ artifact ∈ s.artifacts, artifact.objectKey = .preview key
  artifacts : ∀ artifact ∈ s.artifacts, ∃ artifact' ∈ s'.artifacts,
    artifact'.objectKey = artifact.objectKey ∧ artifact'.conversationId = artifact.conversationId
  objects : ∀ key, ObjectKey.preview key ∈ s.objects →
    ObjectKey.preview key ∈ s'.objects ∨ lease = some key.leaseToken ∨ ∃ artifact ∈ s.artifacts, artifact.objectKey = .preview key
  cleanups : ∀ c ∈ s.cleanups, c ∈ s'.cleanups
  unacknowledged : ∀ leaseToken ∈ s.unacknowledged, leaseToken ∈ s'.unacknowledged

theorem Leaves.unpublished {leaseToken : Nat} (h : Leaves s s' lease) (hne : lease ≠ some leaseToken)
    (hu : Unpublished s leaseToken) : Unpublished s' leaseToken := by
  intro artifact ha key hkey he
  obtain htoken | ⟨artifact', ha', hkey'⟩ := h.published artifact ha key hkey
  · exact hne (he ▸ htoken)
  · exact hu artifact' ha' key hkey' he

theorem Leaves.publishing {job : ClaimedRow C I} (h : Leaves s s' lease) (hne : lease ≠ some job.leaseToken)
    (hjob : Publishing s job) : Publishing s' job where
  token := hjob.token.trans_le h.drawn
  id := hjob.id.trans_le h.drawn
  same row' hrow' hid := by
    obtain hnew | ⟨row, hrow, hid', hconversation⟩ := h.rows row' hrow'
    · exact absurd (hid ▸ hnew) (not_le.mpr hjob.id)
    · exact hconversation.symm.trans (hjob.same row hrow (hid'.trans hid))
  unpublished := h.unpublished hne hjob.unpublished

theorem Leaves.put {job : ClaimedRow C I} {keys : List (PreviewObjectKey C)} (h : Leaves s s' lease)
    (hne : lease ≠ some job.leaseToken) (hu : Unpublished s job.leaseToken) (hours : ∀ key ∈ keys, key.leaseToken = job.leaseToken)
    (hput : Put s keys) : Put s' keys := by
  intro key hkey
  obtain hstored | htoken | ⟨artifact, ha, hshown⟩ := h.objects key (hput key hkey)
  · exact hstored
  · exact absurd (htoken.trans (congrArg some (hours key hkey))) hne
  · exact absurd (hours key hkey) (hu artifact ha key hshown)

theorem Leaves.relies {t : Going C I} (h : Leaves s s' lease) (hne : ∀ leaseToken ∈ t.token, lease ≠ some leaseToken)
    (ht : relies s t) : relies s' t := by
  cases t with
  | rendering attempt job => exact h.publishing (hne _ rfl) ht
  | staging attempt job artifacts put left =>
    obtain ⟨hjob, hours, hall, hput⟩ := ht
    refine ⟨h.publishing (hne _ rfl) hjob, hours, hall, h.put (hne _ rfl) hjob.unpublished (fun key hkey => ?_) hput⟩
    exact (hours key (hall ▸ List.mem_append_left _ hkey)).1
  | completing attempt job artifacts | conversationLocked attempt job artifacts =>
    obtain ⟨hjob, hours, hput⟩ := ht
    exact ⟨h.publishing (hne _ rfl) hjob, hours, h.put (hne _ rfl) hjob.unpublished (fun key hkey => (hours key hkey).1) hput⟩
  | removing attempt job keys failure =>
    obtain ⟨hdrawn, hours, hjob⟩ := ht
    exact ⟨hdrawn.trans_le h.drawn, hours, hjob.imp (h.unpublished (hne _ rfl)) (h.unacknowledged _)⟩
  | removingObjects conversationId keys =>
    refine ⟨h.cleanups _ ht.1, fun key hkey => ?_⟩
    obtain ⟨artifact, ha, rfl, rfl⟩ := ht.2 key hkey
    exact h.artifacts artifact ha
  | _ => trivial

theorem Leaves.of_rows (hdrawn : s.drawn ≤ s'.drawn)
    (hrows : ∀ row' ∈ s'.rows, s.drawn ≤ row'.id ∨ ∃ row ∈ s.rows, row.id = row'.id ∧ row.conversationId = row'.conversationId)
    (hartifacts : s'.artifacts = s.artifacts) (hobjects : s'.objects = s.objects) (hcleanups : s'.cleanups = s.cleanups)
    (hunacknowledged : s'.unacknowledged = s.unacknowledged) : Leaves s s' lease where
  drawn := hdrawn
  rows := hrows
  published artifact ha _ hkey := .inr ⟨artifact, hartifacts ▸ ha, hkey⟩
  artifacts artifact ha := ⟨artifact, hartifacts ▸ ha, rfl, rfl⟩
  objects _ hkey := .inl (hobjects ▸ hkey)
  cleanups _ hc := hcleanups ▸ hc
  unacknowledged _ h := hunacknowledged ▸ h

theorem Leaves.of_same (hdrawn : s.drawn ≤ s'.drawn) (hrows : s'.rows = s.rows) (hartifacts : s'.artifacts = s.artifacts)
    (hobjects : s'.objects = s.objects) (hcleanups : s'.cleanups = s.cleanups)
    (hunacknowledged : s'.unacknowledged = s.unacknowledged) : Leaves s s' lease :=
  .of_rows hdrawn (fun row hrow => .inr ⟨row, hrows ▸ hrow, rfl, rfl⟩) hartifacts hobjects hcleanups hunacknowledged

theorem Leaves.refl (s : Store C I) : Leaves s s lease := .of_same (Nat.le_refl _) rfl rfl rfl rfl rfl

variable {p : ArtifactPreviewJobRecord C I → Prop} [DecidablePred p]
  {f : ArtifactPreviewJobRecord C I → ArtifactPreviewJobRecord C I}

structure Columns (row row' : ArtifactPreviewJobRecord C I) : Prop where
  id : row'.id = row.id
  key : row'.key = row.key
  conversationId : row'.conversationId = row.conversationId

theorem rows_update (hf : ∀ row, Columns row (f row)) : ∀ row' ∈ updateWhere p f s.rows,
    s.drawn ≤ row'.id ∨ ∃ row ∈ s.rows, row.id = row'.id ∧ row.conversationId = row'.conversationId := by
  intro row' hrow'
  obtain ⟨row, hrow, rfl⟩ := mem_updateWhere.mp hrow'
  refine .inr ⟨row, hrow, ?_⟩
  split_ifs
  · exact ⟨(hf row).id.symm, (hf row).conversationId.symm⟩
  · exact ⟨rfl, rfl⟩

theorem Leaves.update (hf : ∀ row, Columns row (f row)) : Leaves s (s.update p f) lease :=
  .of_rows (Nat.le_refl _) (rows_update hf) rfl rfl rfl rfl

theorem Agrees.mono (h : Agrees s row) (hmanifests : s'.manifests row.key = s.manifests row.key)
    (hartifacts : ∀ artifact ∈ s.artifacts, artifact.conversationId = row.conversationId → artifact ∈ s'.artifacts) :
    Agrees s' row := by
  intro status hstatus
  obtain ⟨manifest, hmanifest, hsame, hconversation, hpages⟩ := h status hstatus
  refine ⟨manifest, hmanifests ▸ hmanifest, hsame, hconversation, fun id hid => ?_⟩
  obtain ⟨artifact, ha, hartifact, havailable, hrow, hkey⟩ := hpages id hid
  exact ⟨artifact, hartifacts artifact ha hrow, hartifact, havailable, hrow, hkey⟩

theorem Agrees.of_open (h : row.status.manifestStatus = none) : Agrees s row := by
  intro status hstatus
  rw [h] at hstatus
  cases hstatus

theorem Shown.mono {artifact : ManagedArtifactRecord C} {key : PreviewObjectKey C} (h : Shown s artifact key)
    (hdrawn : s.drawn ≤ s'.drawn) (hkept : Kept s artifact key → Kept s' artifact key) : Shown s' artifact key :=
  ⟨h.conversationId, h.drawn.trans_le hdrawn, fun havailable => hkept (h.kept havailable)⟩

theorem Sound.draw (hs : Sound s) (n : Nat) : Sound { s with drawn := s.drawn + n } where
  ids := hs.ids
  keys := hs.keys
  drawn row hrow := (hs.drawn row hrow).trans_le (Nat.le_add_right _ _)
  agree := hs.agree
  shown artifact ha key hkey := (hs.shown artifact ha key hkey).mono (Nat.le_add_right _ _) id

theorem Sound.update (hs : Sound s) (hf : ∀ row, Columns row (f row))
    (hopen : ∀ row, p row → (f row).status.manifestStatus = none) : Sound (s.update p f) where
  ids := by
    rw [Store.update, map_updateWhere _ fun row _ => (hf row).id]
    exact hs.ids
  keys := by
    rw [Store.update, map_updateWhere _ fun row _ => (hf row).key]
    exact hs.keys
  drawn row' hrow' := by
    obtain ⟨row, hrow, rfl⟩ := mem_updateWhere.mp hrow'
    split_ifs
    · exact (hf row).id ▸ hs.drawn row hrow
    · exact hs.drawn row hrow
  agree row' hrow' := by
    obtain ⟨row, hrow, rfl⟩ := mem_updateWhere.mp hrow'
    split_ifs with hp
    · exact .of_open (hopen row hp)
    · exact (hs.agree row hrow).mono rfl fun _ ha _ => ha
  shown artifact ha key hkey := (hs.shown artifact ha key hkey).mono (Nat.le_refl _) id

theorem Sound.ended (hs : Sound s) (hjob : job ∈ s.rows) (hp : ∀ row, p row → row.id = job.id)
    (hf : ∀ row, Columns row (f row)) (hpjob : p job) (hrows : s'.rows = updateWhere p f s.rows) (hdrawn : s.drawn ≤ s'.drawn)
    (hmanifests : ∀ key, key ≠ job.key → s'.manifests key = s.manifests key)
    (hartifacts : ∀ artifact ∈ s.artifacts, artifact ∈ s'.artifacts) (hagree : Agrees s' (f job))
    (hshown : ∀ artifact ∈ s'.artifacts, ∀ key, artifact.objectKey = .preview key → Shown s' artifact key) : Sound s' where
  ids := by
    rw [hrows, map_updateWhere _ fun row _ => (hf row).id]
    exact hs.ids
  keys := by
    rw [hrows, map_updateWhere _ fun row _ => (hf row).key]
    exact hs.keys
  drawn row' hrow' := by
    rw [hrows] at hrow'
    obtain ⟨row, hrow, rfl⟩ := mem_updateWhere.mp hrow'
    refine lt_of_lt_of_le ?_ hdrawn
    split_ifs
    · exact (hf row).id ▸ hs.drawn row hrow
    · exact hs.drawn row hrow
  agree row' hrow' := by
    rw [hrows] at hrow'
    obtain ⟨row, hrow, rfl⟩ := mem_updateWhere.mp hrow'
    by_cases hsame : row = job
    · rw [hsame, if_pos hpjob]
      exact hagree
    · have hid : row.id ≠ job.id := fun he => hsame (eq_of_key hs.ids hrow hjob he)
      rw [if_neg fun h => hid (hp row h)]
      refine (hs.agree row hrow).mono (hmanifests _ fun he => hsame ?_) fun artifact ha _ => hartifacts artifact ha
      exact eq_of_key hs.keys hrow hjob he
  shown := hshown

theorem Sound.of_same (hs : Sound s) (hrows : s'.rows = s.rows) (hmanifests : s'.manifests = s.manifests)
    (hartifacts : s'.artifacts = s.artifacts) (hdrawn : s'.drawn = s.drawn)
    (hkept : ∀ artifact key, Kept s artifact key → Kept s' artifact key) : Sound s' where
  ids := hrows ▸ hs.ids
  keys := hrows ▸ hs.keys
  drawn row hrow := hdrawn ▸ hs.drawn row (hrows ▸ hrow)
  agree row hrow := (hs.agree row (hrows ▸ hrow)).mono (by rw [hmanifests]) fun _ ha _ => hartifacts ▸ ha
  shown artifact ha key hkey :=
    (hs.shown artifact (hartifacts ▸ ha) key hkey).mono hdrawn.ge (hkept artifact key)

theorem Sound.put (hs : Sound s) (key : ObjectKey C) : Sound { s with objects := key :: s.objects } :=
  hs.of_same rfl rfl rfl rfl fun _ _ hkept => hkept.imp_left (List.mem_cons_of_mem _)

theorem Leaves.put_more (key : ObjectKey C) : Leaves s { s with objects := key :: s.objects } lease :=
  ⟨Nat.le_refl _, fun row hrow => .inr ⟨row, hrow, rfl, rfl⟩, fun artifact ha _ hkey => .inr ⟨artifact, ha, hkey⟩,
    fun artifact ha => ⟨artifact, ha, rfl, rfl⟩, fun _ hkey => .inl (List.mem_cons_of_mem _ hkey), fun _ hc => hc, fun _ h => h⟩

theorem Sound.enqueued {input : EnqueueArtifactPreviewJobInput C I} (hs : Sound s)
    (hnew : ∀ row ∈ s.rows, row.key ≠ (input.sourceArtifactId, input.identity)) :
    Sound { s with rows := enqueuedRow input s.drawn :: s.rows, drawn := s.drawn + 1 } where
  ids := by
    refine List.nodup_cons.mpr ⟨fun h => ?_, hs.ids⟩
    obtain ⟨row, hrow, hid⟩ := List.mem_map.mp h
    exact absurd hid (hs.drawn row hrow).ne
  keys := by
    refine List.nodup_cons.mpr ⟨fun h => ?_, hs.keys⟩
    obtain ⟨row, hrow, hkey⟩ := List.mem_map.mp h
    exact hnew row hrow hkey
  drawn row hrow := by
    obtain rfl | hrow := List.mem_cons.mp hrow
    · exact Nat.lt_succ_self _
    · exact (hs.drawn row hrow).trans (Nat.lt_succ_self _)
  agree row hrow := by
    obtain rfl | hrow := List.mem_cons.mp hrow
    · exact .of_open rfl
    · exact (hs.agree row hrow).mono rfl fun _ ha _ => ha
  shown artifact ha key hkey := (hs.shown artifact ha key hkey).mono (Nat.le_succ _) id

theorem Leaves.enqueued (input : EnqueueArtifactPreviewJobInput C I) :
    Leaves s { s with rows := enqueuedRow input s.drawn :: s.rows, drawn := s.drawn + 1 } lease := by
  refine .of_rows (Nat.le_succ _) (fun row hrow => ?_) rfl rfl rfl rfl
  obtain rfl | hrow := List.mem_cons.mp hrow
  · exact .inl (Nat.le_refl _)
  · exact .inr ⟨row, hrow, rfl, rfl⟩

section

variable [DecidableEq C]

theorem Sound.remove {key : ObjectKey C} (hs : Sound s)
    (hfree : ∀ artifact ∈ s.artifacts, ∀ key', artifact.objectKey = .preview key' → .preview key' = key →
      artifact.conversationId ∈ s.cleanups ∨ key'.leaseToken ∈ s.unacknowledged) :
    Sound { s with objects := s.objects.filter (· ≠ key) } where
  ids := hs.ids
  keys := hs.keys
  drawn := hs.drawn
  agree := hs.agree
  shown artifact ha key' hkey' := by
    refine (hs.shown artifact ha key' hkey').mono (Nat.le_refl _) fun hkept => ?_
    by_cases hsame : ObjectKey.preview key' = key
    · exact .inr (hfree artifact ha key' hkey' hsame)
    · exact hkept.imp_left fun hstored => List.mem_filter.mpr ⟨hstored, by simpa using hsame⟩

theorem Leaves.remove {key : ObjectKey C} (hkey : (∃ artifact ∈ s.artifacts, artifact.objectKey = key) ∨
    ∃ key', .preview key' = key ∧ lease = some key'.leaseToken) :
    Leaves s { s with objects := s.objects.filter (· ≠ key) } lease where
  drawn := Nat.le_refl _
  rows := fun row hrow => .inr ⟨row, hrow, rfl, rfl⟩
  published artifact ha _ hkey := .inr ⟨artifact, ha, hkey⟩
  artifacts artifact ha := ⟨artifact, ha, rfl, rfl⟩
  objects key' hstored := by
    by_cases hsame : ObjectKey.preview key' = key
    · obtain ⟨artifact, ha, hartifact⟩ | ⟨key'', hkey'', hlease⟩ := hkey
      · exact .inr (.inr ⟨artifact, ha, hartifact.trans hsame.symm⟩)
      · obtain rfl : key'' = key' := ObjectKey.preview.inj (hkey''.trans hsame.symm)
        exact .inr (.inl hlease)
    · exact .inl (List.mem_filter.mpr ⟨hstored, by simpa using hsame⟩)
  cleanups _ hc := hc
  unacknowledged _ h := h

/-- A cleanup takes the rows of its conversation with the manifests and the artifacts. -/
theorem Sound.mark (hs : Sound s) (conversationId : C) : Sound (mark s conversationId) where
  ids := hs.ids.sublist (List.filter_sublist.map _)
  keys := hs.keys.sublist (List.filter_sublist.map _)
  drawn row hrow := hs.drawn row (List.mem_of_mem_filter hrow)
  agree row hrow := by
    obtain ⟨hrow, hother⟩ := List.mem_filter.mp hrow
    have hother : row.conversationId ≠ conversationId := by simpa using hother
    intro status hstatus
    obtain ⟨manifest, hmanifest, hsame, hconversation, hpages⟩ := hs.agree row hrow status hstatus
    refine ⟨manifest, ?_, hsame, hconversation, fun id hid => ?_⟩
    · exact Option.filter_eq_some_iff.mpr ⟨hmanifest, by simpa [hconversation] using hother⟩
    · obtain ⟨artifact, ha, hartifact, havailable, hrow, hkey⟩ := hpages id hid
      exact ⟨artifact, mem_updateWhere_of_not ha fun h => hother (hrow.symm.trans h.1), hartifact, havailable, hrow, hkey⟩
  shown artifact' ha' key hkey := by
    obtain ⟨artifact, ha, rfl⟩ := mem_updateWhere.mp ha'
    split_ifs at hkey ⊢
    · have hshown := hs.shown artifact ha key hkey
      exact ⟨hshown.conversationId, hshown.drawn, fun h => by cases h⟩
    · exact (hs.shown artifact ha key hkey).mono (Nat.le_refl _) id

theorem Leaves.mark (conversationId : C) : Leaves s (mark s conversationId) lease where
  drawn := Nat.le_refl _
  rows row hrow := .inr ⟨row, List.mem_of_mem_filter hrow, rfl, rfl⟩
  published artifact' ha' key hkey := by
    obtain ⟨artifact, ha, rfl⟩ := mem_updateWhere.mp ha'
    refine .inr ⟨artifact, ha, ?_⟩
    split_ifs at hkey <;> exact hkey
  artifacts artifact ha := by
    refine ⟨_, mem_updateWhere.mpr ⟨artifact, ha, rfl⟩, ?_⟩
    split_ifs <;> exact ⟨rfl, rfl⟩
  objects _ hkey := .inl hkey
  cleanups _ hc := hc
  unacknowledged _ h := h

end

theorem Columns.claim (row : ArtifactPreviewJobRecord C I) (leaseOwnerId leaseToken leaseMs now : Nat) :
    Columns row (row.claim leaseOwnerId leaseToken leaseMs now) := ⟨rfl, rfl, rfl⟩

theorem Columns.waiting (row : ArtifactPreviewJobRecord C I) (at' : Nat) : Columns row (row.waiting at') := ⟨rfl, rfl, rfl⟩

theorem Columns.released (row : ArtifactPreviewJobRecord C I) (status : ArtifactPreviewJobStatus) (retryAt : Option Nat)
    (errorCode : Option ArtifactPreviewFailureCode) : Columns row (row.released status retryAt errorCode) := ⟨rfl, rfl, rfl⟩

theorem Columns.stale (row : ArtifactPreviewJobRecord C I) (leaseOwnerId leaseToken leaseMs now : Nat) :
    Columns row ((Ending.fail .staleLease none).row (row.claim leaseOwnerId leaseToken leaseMs now)) := ⟨rfl, rfl, rfl⟩

theorem Columns.ending (row : ArtifactPreviewJobRecord C I) (ending : Ending) : Columns row (ending.row row) := by
  cases ending with
  | fail errorCode retryAt => cases retryAt <;> exact ⟨rfl, rfl, rfl⟩
  | unsupported errorCode => exact ⟨rfl, rfl, rfl⟩

theorem Agrees.ending {ending : Ending} (h : ∀ manifest, ending.manifest row.conversationId = some manifest →
    s.manifests row.key = some manifest) : Agrees s (ending.row row) := by
  have hempty : ∀ manifest ∈ ending.manifest row.conversationId, manifest.artifactIds = [] ∧
      manifest.conversationId = row.conversationId := by
    intro manifest hmanifest
    cases ending with
    | fail errorCode retryAt => cases retryAt <;> cases hmanifest; exact ⟨rfl, rfl⟩
    | unsupported errorCode => cases hmanifest; exact ⟨rfl, rfl⟩
  have hstatus : ∀ status ∈ (ending.row row).status.manifestStatus, ∃ manifest ∈ ending.manifest row.conversationId,
      manifest.status = status := by
    intro status hstatus
    cases ending with
    | fail errorCode retryAt => cases retryAt <;> cases hstatus; exact ⟨_, rfl, rfl⟩
    | unsupported errorCode => cases hstatus; exact ⟨_, rfl, rfl⟩
  intro status hs
  obtain ⟨manifest, hmanifest, hsame⟩ := hstatus status hs
  obtain ⟨hids, hconversation⟩ := hempty manifest hmanifest
  refine ⟨manifest, ?_, hsame, ?_, fun id hid => ?_⟩
  · rw [(Columns.ending row ending).key]
    exact h manifest hmanifest
  · rw [(Columns.ending row ending).conversationId]
    exact hconversation
  · rw [hids] at hid
    cases hid

variable {conversationId : C} {inputs : List (ArtifactPreviewImageArtifactInput C)}

theorem mem_created {next : Nat} {artifact : ManagedArtifactRecord C}
    (h : artifact ∈ (createPreviewArtifacts conversationId next inputs).1) :
    ∃ key ∈ objectKeys inputs, artifact = availableArtifact conversationId artifact.id key := by
  induction inputs generalizing next with
  | nil => cases h
  | cons input inputs ih =>
    simp only [createPreviewArtifacts, List.cons_append, List.mem_cons, List.mem_append, Option.mem_toList,
      Option.map_eq_some_iff] at h
    simp only [objectKeys, List.flatMap_cons, List.cons_append, List.mem_cons, List.mem_append, Option.mem_toList]
    obtain rfl | ⟨key, hkey, rfl⟩ | h := h
    · exact ⟨_, .inl rfl, rfl⟩
    · exact ⟨key, .inr (.inl hkey), rfl⟩
    · obtain ⟨key, hkey, he⟩ := ih h
      exact ⟨key, .inr (.inr hkey), he⟩

theorem exists_created {next id : Nat}
    (h : id ∈ (createPreviewArtifacts conversationId next inputs).2.flatMap fun page => page.artifactId :: page.modelImage.toList) :
    ∃ artifact ∈ (createPreviewArtifacts conversationId next inputs).1, artifact.id = id := by
  induction inputs generalizing next with
  | nil => cases h
  | cons input inputs ih =>
    simp only [createPreviewArtifacts, List.flatMap_cons, List.cons_append, List.mem_cons, List.mem_append, Option.mem_toList,
      Option.map_eq_some_iff] at h ⊢
    obtain rfl | ⟨key, hkey, rfl⟩ | h := h
    · exact ⟨_, .inl rfl, rfl⟩
    · exact ⟨_, .inr (.inl ⟨key, hkey, rfl⟩), rfl⟩
    · obtain ⟨artifact, ha, hid⟩ := ih h
      exact ⟨artifact, .inr (.inr ha), hid⟩

variable [DecidableEq I]

omit [DecidableEq I] in
theorem claimed?_eq_some {id leaseToken : Nat} (h : s.claimed? id leaseToken = some job) :
    job ∈ s.rows ∧ job.id = id ∧ job.Claimed leaseToken := by
  have hjob : job.id = id ∧ job.Claimed leaseToken := by simpa using List.find?_some h
  exact ⟨List.mem_of_find?_eq_some h, hjob⟩

theorem writeManifest_ne {key key' : Nat × I} {manifest : Option (ArtifactPreviewManifest C)} (h : key' ≠ key) :
    (s.writeManifest key manifest).manifests key' = s.manifests key' := by
  cases manifest with
  | none => rfl
  | some manifest => exact Function.update_of_ne h _ _

theorem writeManifest_self {key : Nat × I} (manifest : ArtifactPreviewManifest C) :
    (s.writeManifest key (some manifest)).manifests key = some manifest := Function.update_self _ _ _

theorem Sound.finish {leaseToken : Nat} (hs : Sound s) (hjob : job ∈ s.rows) (hclaimed : job.Claimed leaseToken) (ending : Ending) :
    Sound (s.finish job leaseToken ending) := by
  refine hs.ended (p := fun row => row.id = job.id ∧ row.Claimed leaseToken) (f := ending.row) hjob (fun row hp => hp.1)
    (fun row => .ending row ending) ⟨rfl, hclaimed⟩ rfl (Nat.le_refl _) (fun key hkey => writeManifest_ne hkey)
    (fun artifact ha => ha) (.ending fun manifest hmanifest => ?_)
    fun artifact ha key hkey => (hs.shown artifact ha key hkey).mono (Nat.le_refl _) id
  rw [Store.finish, hmanifest]
  exact writeManifest_self manifest

theorem Sound.complete {leaseToken : Nat} (hs : Sound s) (hjob : job ∈ s.rows) (hclaimed : job.Claimed leaseToken)
    (htoken : leaseToken < s.drawn)
    (hours : ∀ key ∈ objectKeys inputs, key.leaseToken = leaseToken ∧ key.conversationId = job.conversationId)
    (hput : Put s (objectKeys inputs)) : Sound (s.complete job leaseToken inputs) := by
  have hmanifest : (s.complete job leaseToken inputs).manifests job.key
      = some ⟨job.conversationId, .ready, (createPreviewArtifacts job.conversationId s.drawn inputs).2, none⟩ :=
    writeManifest_self _
  refine hs.ended (p := fun row => row.id = job.id ∧ row.Claimed leaseToken) (f := (·.released .completed none none)) hjob
    (fun row hp => hp.1) (fun row => .released row _ _ _) ⟨rfl, hclaimed⟩ rfl (Nat.le_add_right _ _)
    (fun key hkey => Function.update_of_ne hkey _ _) (fun artifact ha => List.mem_append_left _ ha) ?_ ?_
  · intro status hstatus
    obtain rfl : ArtifactPreviewManifestStatus.ready = status := Option.some.inj hstatus
    refine ⟨_, hmanifest, rfl, rfl, fun id hid => ?_⟩
    obtain ⟨artifact, ha, hid⟩ := exists_created hid
    obtain ⟨key, -, he⟩ := mem_created ha
    exact ⟨artifact, List.mem_append_right _ ha, hid, he ▸ rfl, he ▸ rfl, key, he ▸ rfl⟩
  · intro artifact ha key hkey
    obtain ha | ha := List.mem_append.mp ha
    · exact (hs.shown artifact ha key hkey).mono (Nat.le_add_right _ _) id
    · obtain ⟨key', hkey', he⟩ := mem_created ha
      rw [he] at hkey ⊢
      obtain rfl : key' = key := ObjectKey.preview.inj hkey
      obtain ⟨htoken', hconversation⟩ := hours key' hkey'
      exact ⟨hconversation, lt_of_eq_of_lt htoken' (htoken.trans_le (Nat.le_add_right _ _)), fun _ => .inl (hput key' hkey')⟩

theorem Leaves.complete {leaseToken : Nat} (hours : ∀ key ∈ objectKeys inputs, key.leaseToken = leaseToken) :
    Leaves s (s.complete job leaseToken inputs) (some leaseToken) where
  drawn := Nat.le_add_right _ _
  rows := rows_update fun row => .released row _ _ _
  published artifact ha key hkey := by
    obtain ha | ha := List.mem_append.mp ha
    · exact .inr ⟨artifact, ha, hkey⟩
    · obtain ⟨key', hkey', he⟩ := mem_created ha
      rw [he] at hkey
      obtain rfl : key' = key := ObjectKey.preview.inj hkey
      exact .inl (congrArg some (hours key' hkey').symm)
  artifacts artifact ha := ⟨artifact, List.mem_append_left _ ha, rfl, rfl⟩
  objects _ hkey := .inl hkey
  cleanups _ hc := hc
  unacknowledged _ h := h

theorem Leaves.finish {leaseToken : Nat} (ending : Ending) : Leaves s (s.finish job leaseToken ending) lease :=
  .of_rows (Nat.le_refl _) (rows_update fun row => .ending row ending) rfl rfl rfl rfl

theorem Sound.exhaust {jobId previewJobId leaseMs : Nat} (hs : Sound s) : Sound (exhaust s jobId previewJobId leaseMs) := by
  unfold Rows.exhaust
  split
  · exact hs
  · rename_i row hfind
    have hrow : row.id = previewJobId ∧ row.Claimable jobId s.now := by simpa using List.find?_some hfind
    refine hs.ended (p := fun row => row.id = previewJobId ∧ row.Claimable jobId s.now)
      (f := fun row => (Ending.fail .staleLease none).row (row.claim jobId s.drawn leaseMs s.now))
      (List.mem_of_find?_eq_some hfind) (fun row' hp => hp.1.trans hrow.1.symm) (fun row => .stale row _ _ _ _) hrow rfl
      (Nat.le_succ _) (fun key hkey => Function.update_of_ne hkey _ _) (fun artifact ha => ha) (.ending fun manifest hmanifest => ?_)
      fun artifact ha key hkey => (hs.shown artifact ha key hkey).mono (Nat.le_succ _) id
    obtain rfl := Option.some.inj hmanifest
    exact writeManifest_self _

theorem Leaves.exhaust {jobId previewJobId leaseMs : Nat} : Leaves s (exhaust s jobId previewJobId leaseMs) lease := by
  unfold Rows.exhaust
  split
  · exact .refl s
  · exact .of_rows (Nat.le_succ _) (rows_update fun row => .stale row _ _ _ _) rfl rfl rfl rfl

end Catalyst.Previews.Rows
