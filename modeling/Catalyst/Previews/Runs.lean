import Catalyst.Previews.Agreement
import Mathlib

/-!
# Runs of the previews

Every step keeps the rows and the manifests in agreement. Only the holder of the lease ends a row, and an ended row
waits again only when it is replaced or restored.
-/

namespace Catalyst.Previews.Rows

open Library Processes

variable {C I : Type} {s s' : Store C I} {row row' job : ArtifactPreviewJobRecord C I} {t t' : Going C I}
  {attempt : Attempt C} {claimed : ClaimedRow C I}

-- -----------------
-- What a step may do to a row
-- -----------------

/-- The request holds the lease of the row. An exhausted job takes it in the transaction in which it fails the row. -/
def Going.Ends (now : Nat) (row : ArtifactPreviewJobRecord C I) : Going C I → Prop
  | .conversationLocked _ job _ | .finishing job _ => row.id = job.row.id ∧ row.Claimed job.leaseToken
  | .exhausting jobId previewJobId _ => row.id = previewJobId ∧ row.Claimable jobId now
  | _ => False

def Going.Reopens (row : ArtifactPreviewJobRecord C I) : Going C I → Prop
  | .replacing id _ | .restoring id => row.id = id
  | _ => False

structure Sanctioned (t : Going C I) (now : Nat) (row row' : ArtifactPreviewJobRecord C I) : Prop where
  id : row'.id = row.id
  ended : ¬ row.Terminal → row'.Terminal → t.Ends now row
  reopened : row.Terminal → row'.status ≠ row.status → t.Reopens row

variable {now : Nat}

theorem Sanctioned.refl (row : ArtifactPreviewJobRecord C I) : Sanctioned t now row row :=
  ⟨rfl, fun hopen hended => absurd hended hopen, fun _ h => absurd rfl h⟩

theorem Sanctioned.of_open (hid : row'.id = row.id) (hopen : ¬ row.Terminal) (h : row'.Terminal → t.Ends now row) :
    Sanctioned t now row row' := ⟨hid, fun _ => h, fun hended => absurd hended hopen⟩

theorem Sanctioned.reopen (hid : row'.id = row.id) (h : ¬ row'.Terminal) (ht : t.Reopens row) : Sanctioned t now row row' :=
  ⟨hid, fun _ hended => absurd hended h, fun _ _ => ht⟩

theorem Claimed.open {leaseToken : Nat} (h : row.Claimed leaseToken) : ¬ row.Terminal := by
  simp [ArtifactPreviewJobRecord.Terminal, h.1, isTerminalArtifactPreviewJob]

theorem Claimable.open {jobId : Nat} (h : row.Claimable jobId now) : ¬ row.Terminal := by
  obtain h | ⟨h, -⟩ := h <;> simp [ArtifactPreviewJobRecord.Terminal, h, isTerminalArtifactPreviewJob]

theorem sanctioned_update {p : ArtifactPreviewJobRecord C I → Prop} [DecidablePred p]
    {f : ArtifactPreviewJobRecord C I → ArtifactPreviewJobRecord C I} (h : ∀ row, p row → Sanctioned t s.now row (f row)) :
    ∀ row' ∈ updateWhere p f s.rows, row'.id = s.drawn ∨ ∃ row ∈ s.rows, Sanctioned t s.now row row' := by
  intro row' hrow'
  obtain ⟨row, hrow, rfl⟩ := mem_updateWhere.mp hrow'
  refine .inr ⟨row, hrow, ?_⟩
  split_ifs with hp
  · exact h row hp
  · exact .refl row

-- -----------------
-- One step
-- -----------------

/-- What a step from where a request stands comes to. A token is its own, or drawn by the step. -/
structure Outcome (s : Store C I) (t : Going C I) (out : Option Unit × Option (Going C I) × Store C I) : Prop where
  sound : Sound out.2.2
  leaves : Leaves s out.2.2 t.token
  next : ∀ t' ∈ out.2.1, relies out.2.2 t'
  token : ∀ t' ∈ out.2.1, ∀ leaseToken ∈ t'.token, t.token = some leaseToken ∨ leaseToken = s.drawn

theorem Outcome.ends (hsound : Sound s') (hleaves : Leaves s s' t.token) : Outcome s t (none, none, s') :=
  ⟨hsound, hleaves, fun _ h => (by cases h), fun _ h => (by cases h)⟩

theorem Outcome.goesOn (hsound : Sound s') (hleaves : Leaves s s' t.token) (ht' : relies s' t')
    (htoken : ∀ leaseToken ∈ t'.token, t.token = some leaseToken ∨ leaseToken = s.drawn) : Outcome s t (none, some t', s') := by
  refine ⟨hsound, hleaves, fun _ h => ?_, fun _ h => ?_⟩ <;> obtain rfl := Option.some.inj h
  · exact ht'
  · exact htoken

theorem Outcome.fails (hsound : Sound s) {attempt : Attempt C} {job : ClaimedRow C I} {failure : ArtifactPreviewFailure} :
    Outcome s t (none, attempt.fail job failure, s) := by
  unfold Attempt.fail
  split_ifs
  · exact .ends hsound (.refl s)
  · exact .goesOn hsound (.refl s) trivial fun _ h => by cases h

theorem Sound.unpublished (hs : Sound s) : Unpublished s s.drawn :=
  fun artifact ha key hkey => (hs.shown artifact ha key hkey).drawn.ne

theorem ours_previewArtifacts (job : ClaimedRow C I) (pages : List ArtifactPreviewRenderedPage) :
    Ours job (objectKeys (previewArtifacts job pages)) := by
  intro key hkey
  obtain ⟨input, hinput, hkey⟩ := List.mem_flatMap.mp hkey
  obtain ⟨⟨page, index⟩, -, rfl⟩ := List.mem_map.mp hinput
  obtain rfl | hkey := List.mem_cons.mp hkey
  · exact ⟨rfl, rfl⟩
  · dsimp only at hkey
    split_ifs at hkey
    · obtain rfl := List.mem_singleton.mp hkey
      exact ⟨rfl, rfl⟩
    · cases hkey

theorem removing_ok {artifacts : List (ArtifactPreviewImageArtifactInput C)} (hjob : Publishing s claimed)
    (hours : Ours claimed (objectKeys artifacts)) (failure : ArtifactPreviewFailure) :
    relies s (.removing attempt claimed (objectKeys artifacts) failure) := ⟨hjob.token, hours, .inl hjob.unpublished⟩

theorem token_drawn (hrelies : relies s t) : ∀ leaseToken ∈ t.token, leaseToken < s.drawn := by
  intro leaseToken h
  cases t with
  | rendering attempt job => exact Option.some.inj h ▸ hrelies.token
  | staging attempt job artifacts put left => exact Option.some.inj h ▸ hrelies.1.token
  | completing attempt job artifacts | conversationLocked attempt job artifacts => exact Option.some.inj h ▸ hrelies.1.token
  | removing attempt job keys failure => exact Option.some.inj h ▸ hrelies.1
  | _ => cases h

theorem change_ok (hs : Sound s) (c : Change C) : Sound (change s c) ∧ Leaves s (change s c) none := by
  cases c with
  | tick => exact ⟨hs.of_same rfl rfl rfl rfl fun _ _ h => h, .of_same (Nat.le_refl _) rfl rfl rfl rfl rfl⟩
  | artifact conversationId name =>
    refine ⟨⟨hs.ids, hs.keys, fun row hrow => (hs.drawn row hrow).trans (Nat.lt_succ_self _), fun row hrow => ?_,
      fun artifact ha key hkey => ?_⟩, ?_⟩
    · exact (hs.agree row hrow).mono rfl fun _ ha _ => List.mem_cons_of_mem _ ha
    · obtain rfl | ha := List.mem_cons.mp ha
      · cases hkey
      · refine (hs.shown artifact ha key hkey).mono (Nat.le_succ _) fun hkept => ?_
        exact hkept.imp_left (List.mem_cons_of_mem _)
    · refine ⟨Nat.le_succ _, fun row hrow => .inr ⟨row, hrow, rfl, rfl⟩, fun artifact ha key hkey => ?_, fun artifact ha =>
        ⟨artifact, List.mem_cons_of_mem _ ha, rfl, rfl⟩, fun _ hkey => .inl (List.mem_cons_of_mem _ hkey), fun _ hc => hc,
        fun _ h => h⟩
      obtain rfl | ha := List.mem_cons.mp ha
      · cases hkey
      · exact .inr ⟨artifact, ha, hkey⟩

theorem claim_ok (hs : Sound s) : Outcome s (.claiming attempt) (claim s attempt) := by
  unfold claim
  split
  · exact .ends hs (.refl s)
  · rename_i row hfind
    have hrow := List.mem_of_find?_eq_some hfind
    split_ifs with hclaimable
    · have hf : ∀ row : ArtifactPreviewJobRecord C I, Columns row (row.claim attempt.jobId s.drawn attempt.leaseMs s.now) :=
        fun row => .claim row _ _ _ _
      refine .goesOn ((hs.update hf fun row _ => rfl).draw 1) (.of_rows (Nat.le_succ _) (rows_update hf) rfl rfl rfl rfl) ?_
        fun leaseToken h => .inr (Option.some.inj h).symm
      refine ⟨Nat.lt_succ_self _, (hs.drawn row hrow).trans (Nat.lt_succ_self _), fun row' hrow' hid => ?_, hs.unpublished⟩
      obtain ⟨row'', hrow'', rfl⟩ := mem_updateWhere.mp hrow'
      have hid : row''.id = row.id := by split_ifs at hid <;> exact hid
      obtain rfl := eq_of_key hs.ids hrow'' hrow hid
      split_ifs <;> rfl
    · exact .ends hs (.refl s)
    · exact .goesOn hs (.refl s) trivial fun _ h => by cases h

variable [DecidableEq C] [DecidableEq I]

theorem complete_ok {artifacts : List (ArtifactPreviewImageArtifactInput C)} (hs : Sound s) (hjob : Publishing s claimed)
    (hours : Ours claimed (objectKeys artifacts)) (hput : Put s (objectKeys artifacts)) :
    Outcome s (.conversationLocked attempt claimed artifacts) (complete s attempt claimed artifacts) := by
  have hsame : ∀ leaseToken ∈ Going.token (I := I) (.conversationLocked attempt claimed artifacts),
      Going.token (I := I) (.conversationLocked attempt claimed artifacts) = some leaseToken ∨ leaseToken = s.drawn :=
    fun leaseToken h => .inl h
  have hremoving (failure : ArtifactPreviewFailure) : Outcome s (.conversationLocked attempt claimed artifacts)
      (none, some (.removing attempt claimed (objectKeys artifacts) failure), s) :=
    .goesOn hs (.refl s) (removing_ok hjob hours failure) hsame
  unfold complete
  dsimp only
  split
  · exact hremoving _
  · rename_i row hfind
    obtain ⟨hrow, hid, hclaimed⟩ := claimed?_eq_some hfind
    have hconversation : row.conversationId = claimed.row.conversationId := hjob.same row hrow hid
    have hsound : Sound (s.complete row claimed.leaseToken artifacts) :=
      hs.complete hrow hclaimed hjob.token (fun key hkey => hconversation ▸ hours key hkey) hput
    have hleaves : Leaves s (s.complete row claimed.leaseToken artifacts) (some claimed.leaseToken) :=
      .complete fun key hkey => (hours key hkey).1
    split_ifs
    · cases attempt.commit with
      | acknowledged => exact .ends hsound hleaves
      | unacknowledged =>
        refine .goesOn ?_ ?_ ⟨?_, hours, .inr List.mem_cons_self⟩ hsame
        · exact hsound.of_same rfl rfl rfl rfl fun _ _ hkept => hkept.imp_right (Or.imp_right (List.mem_cons_of_mem _))
        · exact ⟨hleaves.drawn, hleaves.rows, hleaves.published, hleaves.artifacts, hleaves.objects, hleaves.cleanups,
            fun _ h => List.mem_cons_of_mem _ h⟩
        · exact hjob.token.trans_le hleaves.drawn
      | failed => exact hremoving _
    · exact hremoving _

theorem step_ok (hs : Sound s) (hrelies : relies s t) : Outcome s t (step s t) := by
  cases t with
  | claiming attempt => exact claim_ok hs
  | rendering attempt job =>
    rw [step]
    cases attempt.rendering with
    | pages pages =>
      refine .goesOn hs (.refl s) ⟨hrelies, ours_previewArtifacts job pages, rfl, fun _ h => ?_⟩ fun _ h => .inl h
      cases h
    | failed code retryable => exact .fails hs
    | unsupported => exact .goesOn hs (.refl s) trivial fun _ h => by cases h
  | staging attempt job artifacts put left =>
    obtain ⟨hjob, hours, hall, hput⟩ := hrelies
    cases left with
    | nil =>
      rw [List.append_nil] at hall
      exact .goesOn hs (.refl s) ⟨hjob, hours, hall ▸ hput⟩ fun _ h => .inl h
    | cons key left =>
      have hall' : put ++ [key] ++ left = objectKeys artifacts := by
        rw [List.append_assoc, List.singleton_append, hall]
      rw [step]
      split_ifs
      · refine .goesOn hs (.refl s) ⟨hjob.token, fun key hkey => ?_, .inl hjob.unpublished⟩ fun _ h => .inl h
        exact hours key (hall' ▸ List.mem_append_left _ hkey)
      · refine .goesOn (hs.put _) (.put_more _) ⟨⟨hjob.token, hjob.id, hjob.same, hjob.unpublished⟩, hours, hall', ?_⟩
          fun _ h => .inl h
        intro key' hkey'
        obtain hkey' | hkey' := List.mem_append.mp hkey'
        · exact List.mem_cons_of_mem _ (hput key' hkey')
        · rw [List.mem_singleton.mp hkey']
          exact List.mem_cons_self
  | completing attempt job artifacts =>
    obtain ⟨hjob, hours, hput⟩ := hrelies
    rw [step]
    split_ifs
    · exact .goesOn hs (.refl s) ⟨hjob, hours, hput⟩ fun _ h => .inl h
    · exact .goesOn hs (.refl s) (removing_ok hjob hours _) fun _ h => .inl h
  | conversationLocked attempt job artifacts =>
    obtain ⟨hjob, hours, hput⟩ := hrelies
    exact complete_ok hs hjob hours hput
  | removing attempt job keys failure =>
    obtain ⟨htoken, hours, hjob⟩ := hrelies
    cases keys with
    | nil => exact .fails hs
    | cons key keys =>
      have hrest : Ours job keys := fun key hkey => hours key (List.mem_cons_of_mem _ hkey)
      obtain ⟨hkey, -⟩ := hours key List.mem_cons_self
      rw [step]
      split_ifs
      · exact .goesOn hs (.refl s) ⟨htoken, hrest, hjob⟩ fun _ h => .inl h
      · refine .goesOn (hs.remove fun artifact ha key' hkey' hsame => ?_) (.remove (.inr ⟨key, rfl, ?_⟩)) ⟨htoken, hrest, hjob⟩
          fun _ h => .inl h
        · obtain rfl := ObjectKey.preview.inj hsame
          exact .inr (hkey ▸ hjob.resolve_left fun hu => hu artifact ha _ hkey' hkey)
        · exact congrArg some hkey.symm
  | finishing job ending =>
    rw [step]
    split
    · exact .ends hs (.refl s)
    · rename_i row hfind
      obtain ⟨hrow, -, hclaimed⟩ := claimed?_eq_some hfind
      exact .ends (hs.finish hrow hclaimed ending) (.finish ending)
  | exhausting jobId previewJobId leaseMs => exact .ends hs.exhaust .exhaust
  | enqueuing input =>
    rw [step]
    split
    · rename_i hnone
      refine .ends (hs.enqueued fun row hrow => ?_) (.enqueued input)
      simpa using List.find?_eq_none.mp hnone row hrow
    · split_ifs
      · exact .goesOn hs (.refl s) trivial fun _ h => by cases h
      · exact .ends hs (.refl s)
  | replacing id queuedAt => exact .ends (hs.update (.waiting · _) fun _ _ => rfl) (.update (.waiting · _))
  | restoring id => exact .ends (hs.update (.waiting · _) fun _ _ => rfl) (.update (.waiting · _))
  | renewing id leaseToken leaseMs =>
    refine .ends (hs.update (fun row => ⟨rfl, rfl, rfl⟩) fun row hp => ?_) (.update fun row => ⟨rfl, rfl, rfl⟩)
    show row.status.manifestStatus = none
    rw [hp.2.1]
    rfl
  | deleting conversationId =>
    rw [step]
    split_ifs
    · exact .goesOn (hs.of_same rfl rfl rfl rfl fun _ _ h => h) (.of_same (Nat.le_refl _) rfl rfl rfl rfl rfl) trivial
        fun _ h => by cases h
    · exact .ends hs (.refl s)
  | cleaning conversationId =>
    rw [step]
    split_ifs
    · exact .ends hs (.refl s)
    · refine .goesOn ?_ ?_ ⟨List.mem_cons_self, fun key hkey => ?_⟩ fun _ h => by cases h
      · exact hs.of_same rfl rfl rfl rfl fun _ _ hkept => hkept.imp_right (Or.imp_left (List.mem_cons_of_mem _))
      · have hrefl : Leaves s s none := .refl s
        exact ⟨hrefl.drawn, hrefl.rows, hrefl.published, hrefl.artifacts, hrefl.objects,
          fun _ hc => List.mem_cons_of_mem _ hc, fun _ h => h⟩
      · obtain ⟨artifact, ha, rfl⟩ := List.mem_map.mp hkey
        obtain ⟨ha, hconversation⟩ := List.mem_filter.mp ha
        exact ⟨artifact, ha, rfl, (of_decide_eq_true hconversation).1⟩
  | removingObjects conversationId keys =>
    cases keys with
    | nil => exact .goesOn hs (.refl s) trivial fun _ h => by cases h
    | cons key keys =>
      obtain ⟨hcleanup, hkeys⟩ := hrelies
      obtain ⟨artifact, ha, hkey, hconversation⟩ := hkeys key List.mem_cons_self
      refine .goesOn (hs.remove fun artifact' ha' key' hkey' hsame => .inl ?_) (.remove (.inl ⟨artifact, ha, hkey⟩))
        ⟨hcleanup, fun key hkey => hkeys key (List.mem_cons_of_mem _ hkey)⟩ fun _ h => by cases h
      -- The key of an image names the conversation of its artifact.
      have h := (hs.shown artifact ha key' (hkey.trans hsame.symm)).conversationId
      have h' := (hs.shown artifact' ha' key' hkey').conversationId
      rw [← h', h, hconversation]
      exact hcleanup
  | marking conversationId => exact .ends (hs.mark conversationId) (.mark conversationId)

theorem requests_ok : (requests (C := C) (I := I)).Inductive assertions fun _ _ => True where
  symm p q h token hq hp := h token hp hq
  start log s input hok _ := by
    cases input <;> exact ⟨trivial, fun _ _ h => by cases h⟩
  step log s pid t hok _ hat hrelies _ := by
    have hout : Outcome s.store t (step s.store t) := step_ok hok.holds hrelies
    refine ⟨⟨hout.sound, fun q hq h => hout.leaves.relies (fun token hqt htt => hq.1 token htt hqt) h⟩,
      fun t' ht' => ⟨hout.next t' ht', fun q hq hapart _ token htoken hqt => ?_⟩⟩
    obtain hown | hnew := hout.token t' ht' token htoken
    · exact hapart token hown hqt
    · exact absurd hnew (token_drawn hq token hqt).ne
  env log s c hok _ := by
    obtain ⟨hsound, hleaves⟩ := change_ok hok.holds c
    exact ⟨hsound, fun q _ h => hleaves.relies (fun _ _ h => by cases h) h⟩

theorem sound_of_reachable {s : Pool (Store C I) (Going C I)} (hs : machine.Reachable s) : Sound s.store := by
  obtain ⟨s₀, h, ⟨hfresh, hidle, -⟩, hr⟩ := hs
  have hnone : ∀ row ∈ s₀.store.rows, False := fun row hrow => by
    rw [hfresh.rows] at hrow
    cases hrow
  have hstart : Sound s₀.store :=
    ⟨by simp [hfresh.rows], by simp [hfresh.rows], fun row hrow => (hnone row hrow).elim, fun row hrow => (hnone row hrow).elim,
      fun artifact ha key hkey => absurd hkey (hfresh.artifacts artifact ha key)⟩
  have hinit : assertions.Ok [] s₀ := .of_idle hidle hstart
  exact (requests_ok.run_ok hr hinit).holds

/-- Every row after a step is new, or one from before that the step may change as it did. -/
theorem step_rows : ∀ row' ∈ (step s t).2.2.rows, row'.id = s.drawn ∨ ∃ row ∈ s.rows, Sanctioned t s.now row row' := by
  have hsame : ∀ row' ∈ s.rows, row'.id = s.drawn ∨ ∃ row ∈ s.rows, Sanctioned t s.now row row' :=
    fun row hrow => .inr ⟨row, hrow, .refl row⟩
  cases t with
  | claiming attempt =>
    rw [step, claim]
    split
    · exact hsame
    · split_ifs
      · exact sanctioned_update fun row hp => .of_open rfl (Claimable.open hp.2) fun h => by cases h
      · exact hsame
      · exact hsame
  | conversationLocked attempt job artifacts =>
    rw [step, complete]
    dsimp only
    split
    · exact hsame
    · rename_i row hfind
      obtain ⟨hrow, hid, -⟩ := claimed?_eq_some hfind
      have hupdate := sanctioned_update (s := s) (t := .conversationLocked attempt job artifacts)
        (p := fun row' => row'.id = row.id ∧ row'.Claimed job.leaseToken) (f := (·.released .completed none none))
        fun row' hp => .of_open rfl (Claimed.open hp.2) fun _ => ⟨hp.1.trans hid, hp.2⟩
      split_ifs
      · cases attempt.commit with
        | acknowledged | unacknowledged => exact hupdate
        | failed => exact hsame
      · exact hsame
  | finishing job ending =>
    rw [step]
    split
    · exact hsame
    · rename_i row hfind
      obtain ⟨hrow, hid, -⟩ := claimed?_eq_some hfind
      exact sanctioned_update fun row' hp =>
        .of_open (Columns.ending row' ending).id (Claimed.open hp.2) fun _ => ⟨hp.1.trans hid, hp.2⟩
  | exhausting jobId previewJobId leaseMs =>
    rw [step, exhaust]
    dsimp only
    split
    · exact hsame
    · exact sanctioned_update fun row hp => .of_open rfl (Claimable.open hp.2) fun _ => hp
  | enqueuing input =>
    rw [step]
    split
    · intro row' hrow'
      obtain rfl | hrow' := List.mem_cons.mp hrow'
      · exact .inl rfl
      · exact hsame row' hrow'
    · split_ifs <;> exact hsame
  | replacing id queuedAt => exact sanctioned_update fun row hp => .reopen rfl (fun h => by cases h) hp.1
  | restoring id => exact sanctioned_update fun row hp => .reopen rfl (fun h => by cases h) hp.1
  | renewing id leaseToken leaseMs =>
    exact sanctioned_update fun row hp => .of_open rfl (Claimed.open hp.2) fun h => absurd h (Claimed.open hp.2)
  | rendering attempt job =>
    rw [step]
    split <;> exact hsame
  | staging attempt job artifacts put left =>
    cases left with
    | nil => exact hsame
    | cons key left =>
      rw [step]
      split_ifs <;> exact hsame
  | removing attempt job keys failure =>
    cases keys with
    | nil => exact hsame
    | cons key keys =>
      rw [step]
      dsimp only
      split_ifs <;> exact hsame
  | completing attempt job artifacts =>
    rw [step]
    split_ifs <;> exact hsame
  | deleting conversationId =>
    rw [step]
    split_ifs <;> exact hsame
  | cleaning conversationId =>
    rw [step]
    split_ifs <;> exact hsame
  | removingObjects conversationId keys => cases keys <;> exact hsame
  | marking conversationId => exact fun row hrow => hsame row (List.mem_of_mem_filter hrow)

/-- The images of the pages of a completed row are stored, and so is every image that an artifact names. -/
structure Agreement (s : Store C I) : Prop where
  rows : ∀ row ∈ s.rows, ∀ status ∈ row.status.manifestStatus, ∃ manifest ∈ s.manifests row.key,
    manifest.status = status ∧ manifest.conversationId = row.conversationId ∧
      ∀ id ∈ manifest.artifactIds, ∃ artifact ∈ s.artifacts, ∃ key, artifact.id = id ∧ artifact.status = .available ∧
        artifact.conversationId = row.conversationId ∧ artifact.objectKey = .preview key ∧ Kept s artifact key
  published : ∀ artifact ∈ s.artifacts, artifact.status = .available → ∀ key, artifact.objectKey = .preview key →
    Kept s artifact key

/-- From a state to the next one a row is ended by whom holds its lease, and left ended but by a replacement or a
restoration. -/
structure Lawful (s : Pool (Store C I) (Going C I)) (move : Move (Request C I) (Change C))
    (row row' : ArtifactPreviewJobRecord C I) : Prop where
  ended : ¬ row.Terminal → row'.Terminal → ∃ pid, move = .advance pid ∧ ∃ t ∈ s.at? pid, t.Ends s.store.now row
  reopened : row.Terminal → row'.status ≠ row.status → ∃ pid, move = .advance pid ∧ ∃ t ∈ s.at? pid, t.Reopens row

omit [DecidableEq C] [DecidableEq I] in
theorem Sound.agreement (hs : Sound s) : Agreement s where
  rows row hrow status hstatus := by
    obtain ⟨manifest, hmanifest, hsame, hconversation, hpages⟩ := hs.agree row hrow status hstatus
    refine ⟨manifest, hmanifest, hsame, hconversation, fun id hid => ?_⟩
    obtain ⟨artifact, ha, hartifact, havailable, hrow, key, hkey⟩ := hpages id hid
    exact ⟨artifact, ha, key, hartifact, havailable, hrow, hkey, (hs.shown artifact ha key hkey).kept havailable⟩
  published artifact ha havailable key hkey := (hs.shown artifact ha key hkey).kept havailable

theorem move_lawful {s : Pool (Store C I) (Going C I)} (hs : Sound s.store) (move : Move (Request C I) (Change C)) :
    ∀ row ∈ s.store.rows, ∀ row' ∈ (machine.next s move).store.rows, row'.id = row.id → Lawful s move row row' := by
  have hsame : ∀ row ∈ s.store.rows, ∀ row' ∈ s.store.rows, row'.id = row.id → Lawful s move row row' := by
    intro row hrow row' hrow' hid
    obtain rfl := eq_of_key hs.ids hrow' hrow hid
    exact ⟨fun hopen hended => absurd hended hopen, fun _ h => absurd rfl h⟩
  cases move with
  | start input => exact hsame
  | abort pid => exact hsame
  | env c => cases c <;> exact hsame
  | advance pid =>
    cases hat : s.at? pid with
    | none =>
      have hnext : (machine.next s (.advance pid)).store = s.store := by
        simp [Machine.next, machine, Processes.machine, move, advance, hat]
      rw [hnext]
      exact hsame
    | some t =>
      have hnext : (machine.next s (.advance pid)).store = (step s.store t).2.2 := by
        simp [Machine.next, machine, Processes.machine, move, advance, hat, requests]
      rw [hnext]
      intro row hrow row' hrow' hid
      obtain hnew | ⟨before, hbefore, hchange⟩ := step_rows row' hrow'
      · exact absurd (hid.symm.trans hnew) (hs.drawn row hrow).ne
      · obtain rfl := eq_of_key hs.ids hbefore hrow (hchange.id.symm.trans hid)
        exact ⟨fun hopen hended => ⟨pid, rfl, t, hat, hchange.ended hopen hended⟩,
          fun hended hstatus => ⟨pid, rfl, t, hat, hchange.reopened hended hstatus⟩⟩

/-- In every state of a run the ended rows agree with their manifests, and every step treats the rows lawfully. -/
theorem preview_rows_agree (s : Pool (Store C I) (Going C I)) (hs : machine.Reachable s) :
    Agreement s.store ∧ ∀ move, ∀ row ∈ s.store.rows, ∀ row' ∈ (machine.next s move).store.rows, row'.id = row.id →
      Lawful s move row row' :=
  ⟨(sound_of_reachable hs).agreement, move_lawful (sound_of_reachable hs)⟩

def oneArtifact : Pool (Store Nat Unit) (Going Nat Unit) where
  store := ⟨[], fun _ => none, [⟨0, 0, .other 0, .available⟩], [.other 0], fun _ => true, 0, 1, [], []⟩
  running := []
  started := 0

def pageRendered (commit : Commit) : Attempt Nat where
  jobId := 9
  previewJobId := 1
  leaseMs := 10
  lastAttempt := false
  retryAt := none
  rendering := .pages [⟨5, false⟩]
  commit := commit
  putFails _ := false
  deleteFails _ := false

def rendered (commit : Commit) : List (Move (Request Nat Unit) (Change Nat)) :=
  [.start (.enqueue ⟨0, 0, (), false, 0⟩), .advance 0, .start (.attempt (pageRendered commit))] ++ List.replicate 6 (.advance 1)

theorem fresh_oneArtifact : Fresh oneArtifact.store :=
  ⟨rfl, fun artifact ha key hkey => by
    obtain rfl := List.mem_singleton.mp ha
    cases hkey⟩

theorem reachable_after {moves : List (Move (Request Nat Unit) (Change Nat))} (h : machine.Allows oneArtifact moves) :
    machine.Reachable (machine.after oneArtifact moves) := ⟨oneArtifact, _, ⟨fresh_oneArtifact, rfl, rfl⟩, h.run⟩

theorem preview_rows_agree_rendered :
    (machine.after oneArtifact (rendered .acknowledged)).store.rows.map (·.status) = [.completed] ∧
      Agreement (machine.after oneArtifact (rendered .acknowledged)).store :=
  ⟨by decide, (preview_rows_agree _ (reachable_after (by decide))).1⟩

def Dangling (s : Store Nat Unit) : Prop :=
  ∃ row ∈ s.rows, row.status = .completed ∧ ∃ manifest ∈ s.manifests row.key, ∃ artifact ∈ s.artifacts,
    artifact.id ∈ manifest.artifactIds ∧ artifact.status = .available ∧ artifact.objectKey ∉ s.objects

instance (s : Store Nat Unit) : Decidable (Dangling s) := inferInstanceAs (Decidable (∃ row ∈ s.rows, _ ∧ _))

/-- The cleanup of a deleted conversation removes objects before rows; and a worker that is not told that its completion
has committed removes what it published, in a conversation that is not deleted. -/
theorem completed_row_dangling :
    (∃ s, machine.Reachable s ∧ Dangling s.store ∧ s.store.unacknowledged = []) ∧
    ∃ s, machine.Reachable s ∧ Dangling s.store ∧ s.store.active 0 = true := by
  have hcleanup : machine.Allows oneArtifact
      (rendered .acknowledged ++ .start (.deleteConversation 0) :: List.replicate 4 (.advance 2)) := by decide
  have hlost : machine.Allows oneArtifact (rendered .unacknowledged ++ [.advance 1]) := by decide
  refine ⟨⟨_, reachable_after hcleanup, ?_, ?_⟩, _, reachable_after hlost, ?_, ?_⟩ <;> decide

end Catalyst.Previews.Rows
