import Catalyst.ExecutionWorkspaces.Model

/-!
# Object keys that cleanup sees

Each object ever stored for a path is named by the path's row, until a summary of the
deleted workspace lists it. A write reads the row and replaces it under the lock of the
conversation. A removal replaces what it read before; it loses the keys that two writes
have retained meanwhile.
-/

namespace Catalyst.ExecutionWorkspaces

open Library Library.Check Library.Processes

variable {db db' : Db} {file existing current : WorkspaceFile} {metadata : JsonObject}

-- -----------------
-- Metadata
-- -----------------

theorem mem_uniqueStrings {values : List String} : k ∈ uniqueStrings values ↔ k ∈ values := List.mem_eraseDups

@[simp] theorem mem_retained_withRetained : k ∈ retainedObjectKeys (withRetained metadata keys) ↔ k ∈ keys := by
  simp [retainedObjectKeys, withRetained, List.filterMap_map, Function.comp_def, JsonItem.string?, mem_uniqueStrings]

theorem mem_retained_with {objectKey : String} :
    k ∈ retainedObjectKeys (workspaceFileMetadataWithRetainedObjectKey metadata objectKey) ↔
      k ∈ retainedObjectKeys metadata ∨ k = objectKey := by
  simp [workspaceFileMetadataWithRetainedObjectKey]

theorem mem_retained_preserve {old : Option JsonObject} (h : ∃ m ∈ old, k ∈ retainedObjectKeys m) :
    k ∈ retainedObjectKeys (preserveRetainedObjectKeys metadata old) := by
  obtain ⟨m, rfl, hk⟩ := h
  have hne : retainedObjectKeys m ≠ [] := List.ne_nil_of_mem hk
  simp [preserveRetainedObjectKeys, hne, hk]

theorem mem_row_objectKeys {input : UpsertWorkspaceFileInput} {old now : Option WorkspaceFile}
    (h : k = input.objectKey ∨ ∃ file ∈ old, k ∈ file.objectKeys) : k ∈ (input.row c old now).objectKeys := by
  rcases h with rfl | ⟨file, rfl, hk⟩
  · exact List.mem_cons_self
  · simp only [WorkspaceFile.objectKeys, UpsertWorkspaceFileInput.row, workspaceFileMetadataForUpsert, Option.map_some]
    have hretained : k ∈ retainedObjectKeys file.metadata →
        k ∈ retainedObjectKeys (preserveRetainedObjectKeys input.metadata (some file.metadata)) :=
      fun hk => mem_retained_preserve ⟨_, rfl, hk⟩
    rcases List.mem_cons.mp hk with rfl | hk
    · split
      · rename_i hsame
        exact List.mem_cons.mpr (.inl hsame)
      · exact List.mem_cons_of_mem _ (mem_retained_with.mpr (.inr rfl))
    · refine List.mem_cons_of_mem _ ?_
      split
      · exact hretained hk
      · exact mem_retained_with.mpr (.inl (hretained hk))

def KeepsKeys (existing current : WorkspaceFile) : Prop :=
  ∀ k ∈ retainedObjectKeys current.metadata, k = current.objectKey ∨ k ∈ existing.objectKeys

instance : Decidable (KeepsKeys existing current) := inferInstanceAs (Decidable (∀ k ∈ _, _))

theorem delete_row_objectKeys {input : DeleteWorkspaceFileInput} :
    (∀ k ∈ current.objectKeys, k ∈ (input.row existing current).objectKeys) ↔ KeepsKeys existing current := by
  simp only [KeepsKeys, WorkspaceFile.objectKeys, DeleteWorkspaceFileInput.row, List.mem_cons, mem_retained_with]
  constructor
  · intro h k hk
    exact (h k (.inr hk)).imp_right Or.symm
  · rintro h k (rfl | hk)
    · exact .inl rfl
    · exact (h k hk).imp_right Or.symm

theorem mem_fileObjectKeys : k ∈ (collectExecutionWorkspaceDeletionSummary db c).fileObjectKeys ↔
    ∃ file ∈ db.files, file.conversationId = c ∧ k ∈ file.objectKeys := by
  simp [collectExecutionWorkspaceDeletionSummary, mem_uniqueStrings, and_assoc]

def Stored (log : List Answer) (workspaceId path objectKey : String) : Prop :=
  ∃ file, Answer.upserted file ∈ log ∧ file.key = (workspaceId, path) ∧ file.objectKey = objectKey

def Listed (log : List Answer) (objectKey : String) : Prop :=
  ∃ c summary, Answer.removed c summary ∈ log ∧ objectKey ∈ summary.fileObjectKeys

def Named (db : Db) (workspaceId path objectKey : String) : Prop :=
  ∃ file ∈ db.files, file.key = (workspaceId, path) ∧ objectKey ∈ file.objectKeys

structure Db.Ok (db : Db) : Prop where
  ids : (db.workspaces.map (·.id)).Nodup
  keys : (db.files.map WorkspaceFile.key).Nodup
  places : ∀ file ∈ db.files, ∀ w ∈ db.workspaces, w.id = file.workspaceId → w.conversationId = file.conversationId

def Kept (log : List Answer) (db : Db) : Prop :=
  ∀ workspaceId path k, Stored log workspaceId path k → ∃ w ∈ db.workspaces, w.id = workspaceId ∧
    (w.status = .active → Named db workspaceId path k) ∧ (w.status = .deleted → Listed log k)

def Open (db : Db) (c : String) : Prop := ∃ conversation ∈ db.conversations, conversation.id = c ∧ conversation.active

theorem open_or_closed (db : Db) (c : String) : Open db c ↔ ¬ Closed db c := by
  simp [Open, Closed]

def Within (db : Db) (workspaceId c : String) : Prop := ∀ w ∈ db.workspaces, w.id = workspaceId → w.conversationId = c

def Active (db : Db) (workspaceId c : String) : Prop :=
  ∃ w ∈ db.workspaces, w.id = workspaceId ∧ w.conversationId = c ∧ w.status = .active

def Process.Relies (log : List Answer) (db : Db) : Process → Prop
  | upserting _ .checking => True
  | upserting input (.locking c) => Within db input.workspaceId c
  | upserting input (.locked c) | upserting input (.rechecking c) => Open db c ∧ Within db input.workspaceId c
  | upserting input (.reading locked c) => Open db locked ∧ locked = c ∧ Active db input.workspaceId c
  | upserting input (.writing locked c existing) =>
    Open db locked ∧ locked = c ∧ Active db input.workspaceId c ∧
      ∀ k, Stored log input.workspaceId input.path k → ∃ file ∈ existing, k ∈ file.objectKeys
  | deleting .. => True
  | removing c _ .collecting => Closed db c
  | removing c _ (.removing summary) =>
    Closed db c ∧ ∀ workspaceId path k, Stored log workspaceId path k → Active db workspaceId c →
      k ∈ summary.fileObjectKeys
  | closing _ => True

def Apart (p q : Process) : Prop := ∀ c ∈ p.holds, c ∉ q.holds

/-- What a step of `t` does to the row of a workspace. -/
structure Moves (t : Process) (w w' : ExecutionWorkspace) : Prop where
  id : w'.id = w.id
  conversationId : w'.conversationId = w.conversationId
  status : w'.status = w.status ∨ (w'.status = .deleted ∧ ∃ deletedAt phase, t = .removing w.conversationId deletedAt phase)

/-- What a step of `t` that answers `answer` does to the store. -/
structure Effect (log : List Answer) (t : Process) (db : Db) (answer : Option Answer) (db' : Db) : Prop where
  ok : db'.Ok
  kept : Kept (log ++ answer.toList) db'
  workspaces : ∃ f, db'.workspaces = db.workspaces.map f ∧ ∀ w, Moves t w (f w)
  opened : ∀ c, Open db c → Open db' c ∨ t = .closing c
  closed : ∀ c, Closed db c → Closed db' c
  stored : ∀ workspaceId path k, Stored (log ++ answer.toList) workspaceId path k →
    Stored log workspaceId path k ∨ ∃ c, t.holds = some c ∧ Open db c ∧ Active db workspaceId c

variable {log : List Answer} {answer : Option Answer} {t q : Process}

theorem Active.within (hd : db.Ok) (h : Active db workspaceId c) : Within db workspaceId c := by
  obtain ⟨w, hw, rfl, rfl, -⟩ := h
  intro x hx hid
  rw [eq_of_key hd.ids hx hw hid]

theorem Effect.within (h : Effect log t db answer db') (hw : Within db workspaceId c) : Within db' workspaceId c := by
  obtain ⟨f, hf, hmoves⟩ := h.workspaces
  intro w' hw' hid
  rw [hf] at hw'
  obtain ⟨w, hmem, rfl⟩ := List.mem_map.mp hw'
  rw [(hmoves w).conversationId]
  exact hw w hmem ((hmoves w).id ▸ hid)

theorem Effect.active (h : Effect log t db answer db') (hw : Active db workspaceId c)
    (hno : ∀ deletedAt phase, t ≠ .removing c deletedAt phase) : Active db' workspaceId c := by
  obtain ⟨f, hf, hmoves⟩ := h.workspaces
  obtain ⟨w, hmem, rfl, rfl, hactive⟩ := hw
  refine ⟨f w, hf ▸ List.mem_map_of_mem hmem, (hmoves w).id, (hmoves w).conversationId, ?_⟩
  rcases (hmoves w).status with hs | ⟨-, deletedAt, phase, ht⟩
  · exact hs.trans hactive
  · exact absurd ht (hno deletedAt phase)

theorem Effect.was_active (h : Effect log t db answer db') (hw : Active db' workspaceId c) : Active db workspaceId c := by
  obtain ⟨f, hf, hmoves⟩ := h.workspaces
  obtain ⟨w', hw', rfl, rfl, hactive⟩ := hw
  rw [hf] at hw'
  obtain ⟨w, hmem, rfl⟩ := List.mem_map.mp hw'
  refine ⟨w, hmem, (hmoves w).id.symm, (hmoves w).conversationId.symm, ?_⟩
  rcases (hmoves w).status with hs | ⟨hs, -⟩
  · exact hs ▸ hactive
  · exact nomatch hs.symm.trans hactive

theorem Effect.open_of_holds (h : Effect log t db answer db') (hq : q.holds = some c) (hopen : Open db c)
    (hwaits : ¬ waitsFor q t) : Open db' c :=
  (h.opened c hopen).resolve_right fun ht => hwaits (ht ▸ hq)

theorem Effect.active_of_open (h : Effect log t db answer db') (ht : t.Relies log db) (hopen : Open db c)
    (hw : Active db workspaceId c) : Active db' workspaceId c := by
  refine h.active hw fun deletedAt phase he => (open_or_closed db c).mp hopen ?_
  subst he
  cases phase with
  | collecting => exact ht
  | removing summary => exact ht.1

theorem Effect.relies (h : Effect log t db answer db') (hd : db.Ok) (ht : t.Relies log db) (hap : Apart t q)
    (hwaits : ¬ waitsFor q t) (hq : q.Relies log db) : q.Relies (log ++ answer.toList) db' := by
  cases q with
  | deleting | closing => trivial
  | removing c deletedAt phase =>
    cases phase with
    | collecting => exact h.closed c hq
    | removing summary =>
      obtain ⟨hclosed, hlists⟩ := hq
      refine ⟨h.closed c hclosed, fun workspaceId path k hs hactive => ?_⟩
      have hactive := h.was_active hactive
      rcases h.stored workspaceId path k hs with hs | ⟨c', -, hopen, hin⟩
      · exact hlists workspaceId path k hs hactive
      · -- a write would hold the lock of a conversation that is closed
        obtain ⟨w, hw, hid, rfl, -⟩ := hactive
        rw [hin.within hd w hw hid] at hclosed
        exact absurd hclosed ((open_or_closed db c').mp hopen)
  | upserting input phase =>
    cases phase with
    | checking => trivial
    | locking c => exact h.within hq
    | locked c | rechecking c => exact ⟨h.open_of_holds rfl hq.1 hwaits, h.within hq.2⟩
    | reading locked c =>
      obtain ⟨hopen, rfl, hin⟩ := hq
      exact ⟨h.open_of_holds rfl hopen hwaits, rfl, h.active_of_open ht hopen hin⟩
    | writing locked c existing =>
      obtain ⟨hopen, rfl, hin, hreads⟩ := hq
      refine ⟨h.open_of_holds rfl hopen hwaits, rfl, h.active_of_open ht hopen hin, fun k hs => ?_⟩
      rcases h.stored _ _ _ hs with hs | ⟨c, hc, -, hin'⟩
      · exact hreads k hs
      · obtain ⟨w, hw, hid, hcw, -⟩ := hin'
        exact absurd (hin.within hd w hw hid ▸ hcw ▸ rfl) (hap c hc)

theorem stored_append : Stored (log ++ answer.toList) workspaceId path k ↔ Stored log workspaceId path k ∨
    ∃ file, answer = some (.upserted file) ∧ file.key = (workspaceId, path) ∧ file.objectKey = k := by
  simp [Stored, or_and_right, exists_or]

theorem Listed.append (h : Listed log k) : Listed (log ++ more) k := by
  obtain ⟨c, summary, hm, hk⟩ := h
  exact ⟨c, summary, List.mem_append_left _ hm, hk⟩

theorem Moves.refl (t : Process) (w : ExecutionWorkspace) : Moves t w w := ⟨rfl, rfl, .inl rfl⟩

theorem Effect.reads (hd : db.Ok) (hk : Kept log db) (ha : ∀ file, answer ≠ some (.upserted file)) :
    Effect log t db answer db := by
  have hstored : ∀ workspaceId path k, Stored (log ++ answer.toList) workspaceId path k → Stored log workspaceId path k :=
    fun _ _ _ hs => (stored_append.mp hs).resolve_right fun ⟨file, hf, _⟩ => ha file hf
  refine ⟨hd, ?_, ⟨id, by simp, .refl t⟩, fun _ => .inl, fun _ => id, fun w p k hs => .inl (hstored w p k hs)⟩
  intro w p k hs
  obtain ⟨x, hx, hid, hnamed, hlisted⟩ := hk w p k (hstored w p k hs)
  exact ⟨x, hx, hid, hnamed, fun h => (hlisted h).append⟩

theorem named_putFile {row : WorkspaceFile} (h : Named db workspaceId path k)
    (hrow : row.key = (workspaceId, path) → k ∈ row.objectKeys) : Named (putFile db row at_) workspaceId path k := by
  obtain ⟨file, hf, hkey, hk⟩ := h
  by_cases he : file.key = row.key
  · exact ⟨row, mem_upsert.mpr (.inl rfl), he ▸ hkey, hrow (he ▸ hkey)⟩
  · exact ⟨file, mem_upsert.mpr (.inr ⟨hf, he⟩), hkey, hk⟩

theorem putFile_ok {row : WorkspaceFile} (hd : db.Ok) (hrow : Within db row.workspaceId row.conversationId) :
    (putFile db row at_).Ok := by
  have hids : (touchWorkspace db row.workspaceId at_).map (·.id) = db.workspaces.map (·.id) :=
    map_updateWhere (fun w : ExecutionWorkspace => w.id) fun _ _ => rfl
  refine ⟨hids ▸ hd.ids, nodup_upsert hd.keys, ?_⟩
  intro file hf w' hw' hid
  obtain ⟨w, hw, rfl⟩ := mem_updateWhere.mp hw'
  have hsame : ∀ x : ExecutionWorkspace, (if w.id = row.workspaceId then { w with updatedAt := at_ } else w) = x →
      x.id = w.id ∧ x.conversationId = w.conversationId := by
    rintro _ rfl
    split <;> exact ⟨rfl, rfl⟩
  obtain ⟨hid', hcon⟩ := hsame _ rfl
  rw [hcon]
  rw [hid'] at hid
  rcases mem_upsert.mp hf with rfl | ⟨hf, -⟩
  · exact hrow w hw hid
  · exact hd.places file hf w hw hid

theorem putFile_effect {row : WorkspaceFile} (hd : db.Ok) (hk : Kept log db)
    (hplace : Within db row.workspaceId row.conversationId)
    (hold : ∀ k, Stored log row.workspaceId row.path k → Named db row.workspaceId row.path k → k ∈ row.objectKeys)
    (hnew : ∀ file, answer = some (.upserted file) → file = row ∧ ∃ c, t.holds = some c ∧ Open db c ∧
      Active db row.workspaceId c) : Effect log t db answer (putFile db row at_) := by
  refine ⟨putFile_ok hd hplace, ?_, ⟨fun w => if w.id = row.workspaceId then { w with updatedAt := at_ } else w, rfl, ?_⟩,
    fun _ => .inl, fun _ => id, ?_⟩
  · intro workspaceId path k hs
    have hmoved : ∀ w ∈ db.workspaces, w.id = workspaceId → ∃ w' ∈ (putFile db row at_).workspaces,
        w'.id = workspaceId ∧ w'.status = w.status := by
      intro w hw hid
      refine ⟨_, List.mem_map_of_mem hw, ?_⟩
      split <;> exact ⟨hid, rfl⟩
    rcases stored_append.mp hs with hs | ⟨file, hf, hkey, rfl⟩
    · obtain ⟨w, hw, hid, hnamed, hlisted⟩ := hk workspaceId path k hs
      obtain ⟨w', hw', hid', hstatus⟩ := hmoved w hw hid
      refine ⟨w', hw', hid', fun ha => ?_, fun hd => (hlisted (hstatus ▸ hd)).append⟩
      have hnamed := hnamed (hstatus ▸ ha)
      refine named_putFile hnamed fun hrow => ?_
      obtain ⟨rfl, rfl⟩ := Prod.mk.inj hrow
      exact hold k hs hnamed
    · obtain ⟨rfl, -, -, -, w, hw, hid, -, hactive⟩ := hnew file hf
      obtain ⟨rfl, rfl⟩ := Prod.mk.inj hkey
      obtain ⟨w', hw', hid', hstatus⟩ := hmoved w hw hid
      refine ⟨w', hw', hid', fun _ => ⟨file, mem_upsert.mpr (.inl rfl), rfl, List.mem_cons_self⟩, fun hd => ?_⟩
      exact nomatch hd.symm.trans (hstatus.trans hactive)
  · intro w
    dsimp only
    split <;> exact ⟨rfl, rfl, .inl rfl⟩
  · intro workspaceId path k hs
    rcases stored_append.mp hs with hs | ⟨file, hf, hkey, -⟩
    · exact .inl hs
    · obtain ⟨rfl, hlock⟩ := hnew file hf
      obtain ⟨rfl, -⟩ := Prod.mk.inj hkey
      exact .inr hlock

theorem close_effect (hd : db.Ok) (hk : Kept log db) : Effect log (.closing c) db (some .closed) (closeConversation db c).2.2 := by
  have hstored : ∀ workspaceId path k, Stored (log ++ (some Answer.closed).toList) workspaceId path k →
      Stored log workspaceId path k := fun _ _ _ hs => (stored_append.mp hs).resolve_right (by simp)
  refine ⟨⟨hd.ids, hd.keys, hd.places⟩, ?_, ⟨id, by simp [closeConversation], .refl _⟩, ?_, ?_, fun w p k hs => .inl (hstored w p k hs)⟩
  · intro w p k hs
    obtain ⟨x, hx, hid, hnamed, hlisted⟩ := hk w p k (hstored w p k hs)
    exact ⟨x, hx, hid, hnamed, fun h => (hlisted h).append⟩
  · rintro c' ⟨conversation, hm, rfl, hactive⟩
    by_cases he : conversation.id = c
    · exact .inr (congrArg Process.closing he.symm)
    · exact .inl ⟨conversation, mem_updateWhere_of_not hm he, rfl, hactive⟩
  · intro c' hclosed conversation hm hid
    obtain ⟨x, hx, rfl⟩ := mem_updateWhere.mp hm
    by_cases he : x.id = c
    · simp [he]
    · simp only [he, if_false] at hid ⊢
      exact hclosed x hx hid

theorem mark_effect (hd : db.Ok) (hk : Kept log db) :
    Effect log t db none (workspaceSystem.env db (.inDeletion c)).2 := by
  have hactive : ∀ conversation : Conversation, (if conversation.id = c then { conversation with inDeletion := true }
      else conversation).id = conversation.id ∧ (if conversation.id = c then { conversation with inDeletion := true }
      else conversation).active = conversation.active := by
    intro conversation
    split <;> exact ⟨rfl, rfl⟩
  refine ⟨⟨hd.ids, hd.keys, hd.places⟩, ?_, ⟨id, by simp [workspaceSystem], .refl t⟩, ?_, ?_, ?_⟩
  · rw [Option.toList_none, List.append_nil]
    exact hk
  · rintro c' ⟨conversation, hm, hid, ha⟩
    exact .inl ⟨_, List.mem_map_of_mem hm, (hactive conversation).1.trans hid, (hactive conversation).2.trans ha⟩
  · intro c' hclosed conversation' hm' hid
    obtain ⟨conversation, hm, rfl⟩ := mem_updateWhere.mp hm'
    exact (hactive conversation).2.trans (hclosed conversation hm ((hactive conversation).1 ▸ hid))
  · intro _ _ _ hs
    simpa using Or.inl hs

/-- The rows of the conversation go when its summary has every key that was stored. -/
theorem remove_effect (hd : db.Ok) (hk : Kept log db)
    (hlists : ∀ workspaceId path k, Stored log workspaceId path k → Active db workspaceId c → k ∈ summary.fileObjectKeys) :
    Effect log (.removing c deletedAt phase) db (some (.removed c summary)) (removeWorkspaces db c deletedAt) := by
  have hstored : ∀ workspaceId path k, Stored (log ++ (some (Answer.removed c summary)).toList) workspaceId path k →
      Stored log workspaceId path k := fun _ _ _ hs => (stored_append.mp hs).resolve_right (by simp)
  let f (w : ExecutionWorkspace) : ExecutionWorkspace :=
    if w.conversationId = c then { w with status := .deleted, deletedAt := some deletedAt, updatedAt := deletedAt } else w
  have hid : ∀ w, (f w).id = w.id := fun w => by
    simp only [f]
    split <;> rfl
  have hcon : ∀ w, (f w).conversationId = w.conversationId := fun w => by
    simp only [f]
    split <;> rfl
  have hids : (removeWorkspaces db c deletedAt).workspaces.map (·.id) = db.workspaces.map (·.id) :=
    map_updateWhere (fun w : ExecutionWorkspace => w.id) fun _ _ => rfl
  refine ⟨⟨hids ▸ hd.ids, map_deleteWhere_nodup _ hd.keys, ?_⟩, ?_, ⟨f, rfl, fun w => ⟨hid w, hcon w, ?_⟩⟩,
    fun _ => .inl, fun _ => id, fun w p k hs => .inl (hstored w p k hs)⟩
  · intro file hf w' hw' he
    obtain ⟨w, hw, rfl⟩ : ∃ w ∈ db.workspaces, f w = w' := List.mem_map.mp hw'
    rw [hcon]
    exact hd.places file (mem_deleteWhere.mp hf).1 w hw (hid w ▸ he)
  · intro workspaceId path k hs
    have hs := hstored workspaceId path k hs
    obtain ⟨w, hw, rfl, hnamed, hlisted⟩ := hk workspaceId path k hs
    refine ⟨f w, List.mem_map_of_mem hw, hid w, fun ha => ?_, fun _ => ?_⟩
    · -- an active workspace is another conversation's, and its files stay
      have hne : w.conversationId ≠ c := by
        intro he
        simp [f, he] at ha
      simp only [f, hne, if_false] at ha
      obtain ⟨file, hf, hkey, hkeys⟩ := hnamed ha
      refine ⟨file, mem_deleteWhere.mpr ⟨hf, fun he => hne ?_⟩, hkey, hkeys⟩
      rw [hd.places file hf w hw (congrArg Prod.fst hkey).symm, he]
    · cases hstatus : w.status with
      | deleted => exact (hlisted hstatus).append
      | active =>
        by_cases he : w.conversationId = c
        · exact ⟨c, summary, by simp, hlists w.id path k hs ⟨w, hw, rfl, he, hstatus⟩⟩
        · rename_i hdel
          simp [f, he, hstatus] at hdel
  · simp only [f]
    split
    · rename_i he
      exact .inr ⟨rfl, deletedAt, phase, by rw [he]⟩
    · exact .inl rfl

structure Steps (log : List Answer) (db : Db) (t : Process) (r : Outcome) : Prop where
  effect : Effect log t db r.1 r.2.2
  relies : ∀ t' ∈ r.2.1, t'.Relies (log ++ r.1.toList) r.2.2
  apart : ∀ t' ∈ r.2.1, ∀ c ∈ t'.holds, c ∈ t.holds ∨ ∀ q, q.holds = some c → waitsFor q t

theorem Steps.ends (h : Effect log t db answer db') : Steps log db t (answer, none, db') := ⟨h, by simp, by simp⟩

theorem Steps.goes {t' : Process} (hd : db.Ok) (hk : Kept log db) (hr : t'.Relies log db)
    (hl : ∀ c ∈ t'.holds, c ∈ t.holds ∨ ∀ q, q.holds = some c → waitsFor q t) : Steps log db t (none, some t', db) := by
  refine ⟨.reads hd hk nofun, ?_, ?_⟩
  · rintro _ ⟨⟩
    simpa using hr
  · rintro _ ⟨⟩
    exact hl

theorem Steps.checks {check : Except AppError α} {next : α → Process} (hd : db.Ok) (hk : Kept log db)
    (hr : ∀ a, check = .ok a → (next a).Relies log db)
    (hl : ∀ a, ∀ c ∈ (next a).holds, c ∈ t.holds ∨ ∀ q, q.holds = some c → waitsFor q t) :
    Steps log db t (orRefused db check next) := by
  cases check with
  | error e => exact .ends (.reads hd hk (by simp))
  | ok a => exact .goes hd hk (hr a rfl) (hl a)

theorem requireActiveWorkspace_ok (h : requireActiveWorkspace db workspaceId = .ok w) :
    w ∈ db.workspaces ∧ w.id = workspaceId ∧ w.status = .active := by
  have hf := need_ok.mp h
  exact ⟨List.mem_of_find?_eq_some hf, by simpa using List.find?_some hf⟩

theorem findFile_named {existing : Option WorkspaceFile} (hd : db.Ok) (h : findFile db workspaceId path = existing)
    (hn : Named db workspaceId path k) : ∃ file ∈ existing, k ∈ file.objectKeys := by
  obtain ⟨file, hf, hkey, hk⟩ := hn
  exact ⟨file, h ▸ (find?_key_eq_some hd.keys).mpr ⟨hf, hkey⟩, hk⟩

theorem upsert_steps {input : UpsertWorkspaceFileInput} {phase : UpsertPhase} (hd : db.Ok) (hk : Kept log db)
    (hr : (Process.upserting input phase).Relies log db) :
    Steps log db (.upserting input phase) (upsertWorkspaceFile db input phase) := by
  cases phase with
  | checking =>
    refine .checks hd hk (fun w h => ?_) fun _ _ h => by cases h
    obtain ⟨hw, hid, hs⟩ := requireActiveWorkspace_ok h
    exact Active.within hd ⟨w, hw, hid, rfl, hs⟩
  | locking c =>
    refine .checks hd hk (fun conversation h => ?_) ?_
    · have hf := need_ok.mp h
      have hc : conversation.id = c ∧ conversation.active := by simpa using List.find?_some hf
      exact ⟨⟨conversation, List.mem_of_find?_eq_some hf, hc⟩, hr⟩
    · rintro _ _ ⟨⟩
      exact .inr fun q hq => hq
  | locked c => exact .checks hd hk (fun _ _ => hr) fun _ _ => .inl
  | rechecking c =>
    refine .checks hd hk (fun w h => ?_) fun _ _ => .inl
    obtain ⟨hw, hid, hs⟩ := requireActiveWorkspace_ok h
    exact ⟨hr.1, (hr.2 w hw hid).symm, w, hw, hid, rfl, hs⟩
  | reading locked c =>
    obtain ⟨hopen, rfl, hin⟩ := hr
    refine .goes hd hk ⟨hopen, rfl, hin, fun k hs => ?_⟩ fun _ => .inl
    obtain ⟨w, hw, hid, hnamed, -⟩ := hk _ _ k hs
    obtain ⟨x, hx, hxid, -, hactive⟩ := hin
    obtain rfl := eq_of_key hd.ids hw hx (hid.trans hxid.symm)
    exact findFile_named hd rfl (hnamed hactive)
  | writing locked c existing =>
    obtain ⟨hopen, rfl, hin, hreads⟩ := hr
    refine .ends (putFile_effect hd hk ?_ ?_ ?_)
    · intro w hw hid
      simp only [UpsertWorkspaceFileInput.row]
      cases hf : findFile db input.workspaceId input.path with
      | none => exact hin.within hd w hw hid
      | some current =>
        have hc : current.key = (input.workspaceId, input.path) := by simpa using List.find?_some hf
        exact hd.places current (List.mem_of_find?_eq_some hf) w hw (hid.trans (congrArg Prod.fst hc).symm)
    · exact fun k hs _ => mem_row_objectKeys (.inr (hreads k hs))
    · rintro file ⟨⟩
      exact ⟨rfl, locked, rfl, hopen, hin⟩

def Process.LosesNoKey (db : Db) : Process → Prop
  | deleting input (.writing existing) => ∀ current ∈ findLiveFile db input.workspaceId input.path, KeepsKeys existing current
  | _ => True

theorem delete_steps {input : DeleteWorkspaceFileInput} {phase : DeletePhase} (hd : db.Ok) (hk : Kept log db)
    (hc : (Process.deleting input phase).LosesNoKey db) :
    Steps log db (.deleting input phase) (deleteWorkspaceFile db input phase) := by
  cases phase with
  | checking => exact .checks hd hk (fun _ _ => trivial) fun _ _ => .inl
  | reading =>
    simp only [deleteWorkspaceFile]
    cases findLiveFile db input.workspaceId input.path with
    | none => exact .ends (.reads hd hk (by simp))
    | some existing => exact .goes hd hk trivial fun _ => .inl
  | writing existing =>
    simp only [deleteWorkspaceFile]
    cases hf : findLiveFile db input.workspaceId input.path with
    | none => exact .ends (.reads hd hk (by simp))
    | some current =>
      have hmem := List.mem_of_find?_eq_some hf
      refine .ends (putFile_effect hd hk (fun w hw hid => hd.places current hmem w hw hid) ?_ (by simp))
      rintro k - ⟨file, hfile, hkey, hkeys⟩
      obtain rfl := eq_of_key hd.keys hfile hmem hkey
      exact delete_row_objectKeys.mpr (hc _ hf) k hkeys

theorem removal_steps {phase : RemovalPhase} (hd : db.Ok) (hk : Kept log db)
    (hr : (Process.removing c deletedAt phase).Relies log db) :
    Steps log db (.removing c deletedAt phase) (markExecutionWorkspaceDeleted db c deletedAt phase) := by
  cases phase with
  | collecting =>
    refine .goes hd hk ⟨hr, fun workspaceId path k hs hactive => ?_⟩ fun _ => .inl
    obtain ⟨w, hw, hid, rfl, hstatus⟩ := hactive
    obtain ⟨x, hx, hxid, hnamed, -⟩ := hk workspaceId path k hs
    obtain rfl := eq_of_key hd.ids hx hw (hxid.trans hid.symm)
    obtain ⟨file, hf, hkey, hkeys⟩ := hnamed hstatus
    exact mem_fileObjectKeys.mpr ⟨file, hf, (hd.places file hf x hw (hid.trans (congrArg Prod.fst hkey).symm)).symm, hkeys⟩
  | removing summary => exact .ends (remove_effect hd hk hr.2)

theorem process_steps {t : Process} (hd : db.Ok) (hk : Kept log db) (hr : t.Relies log db) (hc : t.LosesNoKey db) :
    Steps log db t (workspaceSystem.step db t) := by
  cases t with
  | upserting input phase => exact upsert_steps hd hk hr
  | deleting input phase => exact delete_steps hd hk hc
  | removing c deletedAt phase => exact removal_steps hd hk hr
  | closing c => exact .ends (close_effect hd hk)

-- -----------------
-- Runs
-- -----------------

def RemovesWhatItRead (s : Pool Db Process) : Move Request Mark → Prop
  | .advance pid => ∀ t ∈ s.at? pid, t.LosesNoKey s.store
  | _ => True

def assertions : Assertions Db Process Answer where
  holds log db := db.Ok ∧ Kept log db
  relies := fun log db t => t.Relies log db
  apart := Apart

theorem workspaceSystem_inductive :
    workspaceSystem.Inductive assertions fun s a => allowed s a ∧ RemovesWhatItRead s a where
  symm _ _ h c hq hp := h c hp hq
  start log s request _ ha := by
    cases request with
    | markExecutionWorkspaceDeleted c deletedAt => exact ⟨ha.1, fun q _ h => by cases h⟩
    | upsertWorkspaceFile | deleteWorkspaceFile | closeConversation => exact ⟨trivial, fun q _ h => by cases h⟩
  step log s pid t hs ha hat ht hothers := by
    obtain ⟨hd, hk⟩ := hs.holds
    have hsteps : Steps log s.store t (workspaceSystem.step s.store t) := process_steps hd hk ht (ha.2 t hat)
    refine ⟨⟨⟨hsteps.effect.ok, hsteps.effect.kept⟩, ?_⟩, fun t' ht' => ⟨hsteps.relies t' ht', ?_⟩⟩
    · rintro q ⟨hap, p, hp, rfl⟩ hq
      exact hsteps.effect.relies hd ht hap (hothers p hp).2 hq
    · intro q _ hap hwaits c hc hq
      exact (hsteps.apart t' ht' c hc).elim (fun h => hap c h hq) fun h => hwaits (h q hq)
  env log s e hs _ := by
    obtain ⟨hd, hk⟩ := hs.holds
    cases e with
    | inDeletion c =>
      -- the mark is no step of a process, so it is taken as one that holds nothing
      let t : Process := .deleting ⟨"", "", none, 0⟩ .checking
      have heffect : Effect log t s.store none (workspaceSystem.env s.store (.inDeletion c)).2 := mark_effect hd hk
      exact ⟨⟨heffect.ok, heffect.kept⟩, fun q _ hq => heffect.relies hd trivial nofun id hq⟩

/-- Until its workspace is deleted each object stored for a path is named by the path's row, so that
the summary of a deletion lists it; afterwards the summary of one has listed it. -/
theorem object_keys_kept {s₀ s : Pool Db Process} {h : List (Move Request Mark × Option Answer)}
    (hi : workspaceMachine.init s₀) (hr : (workspaceMachine.when RemovesWhatItRead).Run s₀ h s)
    (hs : Stored (answers h) workspaceId path k) : ∃ w ∈ s.store.workspaces, w.id = workspaceId ∧
      (w.status = .active → Named s.store workspaceId path k ∧
        k ∈ (collectExecutionWorkspaceDeletionSummary s.store w.conversationId).fileObjectKeys) ∧
      (w.status = .deleted → Listed (answers h) k) := by
  obtain ⟨⟨hfiles, hids⟩, hidle, _⟩ := hi
  have hd : s₀.store.Ok := ⟨hids, by simp [hfiles], by simp [hfiles]⟩
  have hk : Kept [] s₀.store := fun _ _ _ ⟨_, hm, _⟩ => nomatch hm
  have hstart : assertions.Ok [] s₀ := .of_idle hidle ⟨hd, hk⟩
  obtain ⟨hd, hk⟩ := (workspaceSystem_inductive.run_ok (run_of_allowed_when _ hr) hstart).holds
  obtain ⟨w, hw, hid, hnamed, hlisted⟩ := hk workspaceId path k hs
  refine ⟨w, hw, hid, fun ha => ⟨hnamed ha, ?_⟩, hlisted⟩
  obtain ⟨file, hf, hkey, hkeys⟩ := hnamed ha
  exact mem_fileObjectKeys.mpr ⟨file, hf, (hd.places file hf w hw (hid.trans (congrArg Prod.fst hkey).symm)).symm, hkeys⟩

instance : Decidable (workspaceSystem.blocks q t) :=
  match t with
  | .upserting _ (.locking c) => inferInstanceAs (Decidable (q.holds = some c))
  | .closing c => inferInstanceAs (Decidable (q.holds = some c))
  | .upserting _ .checking | .upserting _ (.locked _) | .upserting _ (.rechecking _) | .upserting _ (.reading ..)
  | .upserting _ (.writing ..) | .deleting .. | .removing .. => .isFalse id

instance : Decidable (allowed s a) :=
  match a with
  | .start (.markExecutionWorkspaceDeleted c _) =>
    inferInstanceAs (Decidable (∀ conversation ∈ s.store.conversations, conversation.id = c → conversation.active = false))
  | .start (.upsertWorkspaceFile _) | .start (.deleteWorkspaceFile _) | .start (.closeConversation _)
  | .advance _ | .abort _ | .env _ => .isTrue trivial

instance : Decidable (Process.LosesNoKey db t) :=
  match t with
  | .deleting input (.writing existing) =>
    inferInstanceAs (Decidable (∀ current ∈ findLiveFile db input.workspaceId input.path, KeepsKeys existing current))
  | .deleting _ .checking | .deleting _ .reading | .upserting .. | .removing .. | .closing _ => .isTrue trivial

instance : Decidable (RemovesWhatItRead s a) :=
  match a with
  | .advance pid => inferInstanceAs (Decidable (∀ t ∈ s.at? pid, t.LosesNoKey s.store))
  | .start _ | .abort _ | .env _ => .isTrue trivial

instance : Decidable (workspaceMachine.enabled s a) :=
  inferInstanceAs (Decidable (workspaceSystem.Unblocked s a ∧ allowed s a))

instance : Decidable ((workspaceMachine.when RemovesWhatItRead).enabled s a) :=
  inferInstanceAs (Decidable (workspaceMachine.enabled s a ∧ RemovesWhatItRead s a))

namespace Example

def empty : Pool Db Process := ⟨⟨[⟨"c", true, false⟩], [⟨"w", "c", .active, none, 0⟩], []⟩, [], 0⟩

def version (objectKey : String) (now : Time) : Move Request Mark :=
  .start (.upsertWorkspaceFile ⟨"w", "notes.txt", objectKey, 1, "sha256:" ++ objectKey, none, [], none, now⟩)

def removal (now : Time) : Move Request Mark := .start (.deleteWorkspaceFile ⟨"w", "notes.txt", none, now⟩)

def steps (pid n : Nat) : List (Move Request Mark) := List.replicate n (.advance pid)

def lost : List (Move Request Mark) :=
  version "v1" 1 :: steps 0 6 ++ removal 2 :: steps 1 2 ++ version "v2" 3 :: steps 2 6 ++ version "v3" 4 :: steps 3 6 ++ steps 1 1

def cleaned : List (Move Request Mark) :=
  version "v1" 1 :: steps 0 6 ++ removal 2 :: steps 1 2 ++ version "v2" 3 :: steps 2 6 ++ steps 1 1 ++
    .start (.closeConversation "c") :: steps 3 1 ++ .start (.markExecutionWorkspaceDeleted "c" 9) :: steps 4 2

end Example

/-- The second version was stored, and neither the row nor the summary names it. -/
theorem second_version_is_orphaned :
    workspaceMachine.init Example.empty ∧ workspaceMachine.Allows Example.empty Example.lost ∧
      Stored (answers (workspaceMachine.history Example.empty Example.lost)) "w" "notes.txt" "v2" ∧
      (workspaceMachine.after Example.empty Example.lost).store.files.map WorkspaceFile.objectKeys = [["v3", "v1"]] ∧
      "v2" ∉ (collectExecutionWorkspaceDeletionSummary
        (workspaceMachine.after Example.empty Example.lost).store "c").fileObjectKeys := by
  let second : WorkspaceFile := ⟨"w", "notes.txt", "c", "v2", 1, "sha256:v2", none,
    [("retainedObjectKeys", .array [.string "v1"])], none, none, 1, 3⟩
  have hstored : Answer.upserted second ∈ answers (workspaceMachine.history Example.empty Example.lost) := by
    decide
  exact ⟨⟨⟨rfl, by decide⟩, rfl, rfl⟩, by decide, ⟨second, hstored, rfl, rfl⟩, by decide, by decide⟩

theorem object_keys_kept_cleaned :
    (∀ w ∈ (workspaceMachine.after Example.empty Example.cleaned).store.workspaces, w.status = .deleted) ∧
      Listed (answers (workspaceMachine.history Example.empty Example.cleaned)) "v1" := by
  let first : WorkspaceFile := ⟨"w", "notes.txt", "c", "v1", 1, "sha256:v1", none, [], none, none, 1, 1⟩
  have hallows : (workspaceMachine.when RemovesWhatItRead).Allows Example.empty Example.cleaned := by decide
  have hstored : Answer.upserted first ∈ answers (workspaceMachine.history Example.empty Example.cleaned) := by
    decide
  have hdeleted : ∀ w ∈ (workspaceMachine.after Example.empty Example.cleaned).store.workspaces, w.status = .deleted := by
    decide
  obtain ⟨w, hw, -, -, hlisted⟩ :=
    object_keys_kept ⟨⟨rfl, by decide⟩, rfl, rfl⟩ hallows.run ⟨first, hstored, rfl, rfl⟩
  exact ⟨hdeleted, hlisted (hdeleted w hw)⟩

end Catalyst.ExecutionWorkspaces
