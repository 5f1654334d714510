import Catalyst.Grants.Model

/-!
# Grants follow their assets

As long as no allow row is stored for an asset that is deleted or about to be, a deleted asset
takes its allow rows with it, and deny rows stay until they are revoked.
-/

namespace Catalyst.Grants

open Library Library.Processes Library.Check Access

variable {J : Type} {db db' : Db J} {log : List Event} {before : List GrantRow} {row : GrantRow} {asset : AssetId}

def DeletedNow (config : Assets.Db J) (asset : AssetId) : Prop :=
  ∃ a ∈ config.assets, assetId a = asset ∧ a.status = .deleted

def DeletedIn (asset : AssetId) (log : List Event) : Prop := ∃ deleted, .written deleted ∈ log ∧ asset ∈ deleted

def GrantedIn (before : List GrantRow) (log : List Event) (row : GrantRow) : Prop :=
  row ∈ before ∨ .granted row ∈ log

/-- What is claimed: an allow row that was granted before its asset was deleted is gone, no allow row is
stored for an asset that is deleted, and deny rows are kept. -/
structure GrantsFollow (before : List GrantRow) (log : List Event) (db : Db J) : Prop where
  swept : ∀ l₁ l₂ row asset, log = l₁ ++ l₂ → GrantedIn before l₁ row →
    allowsOn row.toPermissionGrant asset → DeletedIn asset l₂ → row ∉ db.grants
  live : ∀ row ∈ db.grants, ∀ asset, allowsOn row.toPermissionGrant asset → ¬ DeletedNow db.config asset
  denies : ∀ row : GrantRow, row.effect = .deny → GrantedIn before log row →
    row ∈ db.grants ∨ .revoked row ∈ log

structure Good (before : List GrantRow) (log : List Event) (db : Db J) : Prop
    extends GrantsFollow before log db where
  ids : ∀ row, GrantedIn before log row → row.id < db.nextGrantId
  stored : ∀ row ∈ db.grants, GrantedIn before log row
  nodup : (db.grants.map (·.id)).Nodup

theorem GrantedIn.append (h : GrantedIn before log row) (events : List Event) :
    GrantedIn before (log ++ events) row := h.imp_right (List.mem_append_left _)

theorem GrantedIn.of_append (h : GrantedIn before (log ++ [e]) row) : GrantedIn before log row ∨ e = .granted row := by
  rcases h with h | h
  · exact .inl (.inl h)
  · rcases List.mem_append.mp h with h | h
    · exact .inl (.inr h)
    · exact .inr (List.mem_singleton.mp h).symm

-- -----------------
-- What an event leaves
-- -----------------

/-- Rows come with their own event, and a write leaves no allow row on what it deleted. -/
theorem Good.swept_after (h : Good before log db) {e : Event}
    (hkept : ∀ row ∈ db'.grants, row ∈ db.grants ∨ ¬ GrantedIn before log row)
    (hdeleted : ∀ deleted, e = .written deleted → ∀ asset ∈ deleted, ∀ row ∈ db'.grants,
      ¬ allowsOn row.toPermissionGrant asset) :
    ∀ l₁ l₂ row asset, log ++ [e] = l₁ ++ l₂ → GrantedIn before l₁ row →
      allowsOn row.toPermissionGrant asset → DeletedIn asset l₂ → row ∉ db'.grants := by
  intro l₁ l₂ row asset hlog hgranted hallows ⟨deleted, hmem, hasset⟩ hrow
  rcases List.eq_nil_or_concat l₂ with rfl | ⟨l, e', rfl⟩
  · cases hmem
  · rw [List.concat_eq_append] at hlog hmem
    rw [← List.append_assoc] at hlog
    obtain ⟨rfl, he⟩ := List.append_inj' hlog rfl
    obtain rfl := List.singleton_injective he
    rcases List.mem_append.mp hmem with hmem | hmem
    · rcases hkept row hrow with hold | hnew
      · exact h.swept l₁ l row asset rfl hgranted hallows ⟨deleted, hmem, hasset⟩ hold
      · exact hnew (hgranted.append l)
    · exact hdeleted deleted (List.mem_singleton.mp hmem).symm asset hasset row hrow hallows

theorem Good.same (h : Good before log db) (hgrants : db'.grants = db.grants) (hconfig : db'.config = db.config)
    (hnext : db'.nextGrantId = db.nextGrantId) : Good before log db' := by
  refine ⟨⟨?_, ?_, ?_⟩, ?_, ?_, ?_⟩
  · rw [hgrants]; exact h.swept
  · rw [hgrants, hconfig]; exact h.live
  · rw [hgrants]; exact h.denies
  · rw [hnext]; exact h.ids
  · rw [hgrants]; exact h.stored
  · rw [hgrants]; exact h.nodup

theorem Good.failed (h : Good before log db) (error : AppError) : Good before (log ++ [.failed error]) db := by
  have hgranted : ∀ row, GrantedIn before (log ++ [.failed error]) row → GrantedIn before log row := fun row hr =>
    hr.of_append.resolve_right (by simp)
  refine ⟨⟨h.swept_after (fun _ hr => .inl hr) (by simp), h.live, fun row hd hr => ?_⟩,
    fun row hr => h.ids row (hgranted row hr), fun row hr => (h.stored row hr).append _, h.nodup⟩
  exact (h.denies row hd (hgranted row hr)).imp_right (List.mem_append_left _)

theorem createGrant_ok {input : PermissionGrant} (h : createGrant db input = .ok (row, db')) :
    row.toPermissionGrant = input ∧ row.id = db.nextGrantId ∧
      db' = { db with grants := row :: db.grants, nextGrantId := db.nextGrantId + 1 } := by
  obtain ⟨-, -, h⟩ := bind_ok.mp h
  obtain ⟨-, -, h⟩ := bind_ok.mp h
  obtain ⟨-, -, h⟩ := bind_ok.mp h
  cases pure_ok.mp h
  exact ⟨rfl, rfl, rfl⟩

theorem Good.granted {input : PermissionGrant} (h : Good before log db) (hc : createGrant db input = .ok (row, db'))
    (hlive : ∀ asset, allowsOn input asset → ¬ DeletedNow db.config asset) :
    Good before (log ++ [.granted row]) db' := by
  obtain ⟨hinput, hid, rfl⟩ := createGrant_ok hc
  have hnew : ¬ GrantedIn before log row := fun hr => absurd (h.ids row hr) (by simp [hid])
  refine ⟨⟨h.swept_after ?_ (by simp), ?_, ?_⟩, ?_, ?_, ?_⟩
  · intro row' hr
    rcases List.mem_cons.mp hr with rfl | hr
    · exact .inr hnew
    · exact .inl hr
  · intro row' hr asset ha
    rcases List.mem_cons.mp hr with rfl | hr
    · exact hlive asset (hinput ▸ ha)
    · exact h.live row' hr asset ha
  · intro row' hd hr
    rcases hr.of_append with hr | he
    · exact (h.denies row' hd hr).imp (List.mem_cons_of_mem _) (List.mem_append_left _)
    · cases he
      exact .inl List.mem_cons_self
  · intro row' hr
    rcases hr.of_append with hr | he
    · exact Nat.lt_succ_of_lt (h.ids row' hr)
    · cases he
      exact hid ▸ Nat.lt_succ_self _
  · intro row' hr
    rcases List.mem_cons.mp hr with rfl | hr
    · exact .inr (by simp)
    · exact (h.stored row' hr).append _
  · refine List.nodup_cons.mpr ⟨fun hm => ?_, h.nodup⟩
    obtain ⟨row', hr, he⟩ := List.mem_map.mp hm
    exact absurd (h.ids row' (h.stored row' hr)) (by simp [he, hid])

theorem deleteGrant_ok (h : deleteGrant db grantId = .ok (row, db')) :
    getGrant db grantId = some row ∧ db' = { db with grants := db.grants.filter (·.id ≠ grantId) } := by
  obtain ⟨row, hr, h⟩ := bind_ok.mp h
  cases pure_ok.mp h
  exact ⟨need_ok.mp hr, rfl⟩

theorem Good.revoked (h : Good before log db) (hc : deleteGrant db grantId = .ok (row, db')) :
    Good before (log ++ [.revoked row]) db' := by
  obtain ⟨hrow, rfl⟩ := deleteGrant_ok hc
  have hgranted : ∀ r, GrantedIn before (log ++ [.revoked row]) r → GrantedIn before log r := fun r hr =>
    hr.of_append.resolve_right (by simp)
  have hsub : ∀ r, r ∈ db.grants.filter (·.id ≠ grantId) → r ∈ db.grants := fun r hr => (List.mem_filter.mp hr).1
  refine ⟨⟨h.swept_after (fun r hr => .inl (hsub r hr)) (by simp), fun r hr => h.live r (hsub r hr), ?_⟩,
    fun r hr => h.ids r (hgranted r hr), fun r hr => (h.stored r (hsub r hr)).append _,
    h.nodup.sublist (List.filter_sublist.map _)⟩
  intro r hd hr
  rcases h.denies r hd (hgranted r hr) with hmem | hmem
  · by_cases hid : r.id = grantId
    · have hfound : getGrant db grantId = some r := (find?_key_eq_some h.nodup).mpr ⟨hmem, hid⟩
      obtain rfl := Option.some.inj (hrow.symm.trans hfound)
      exact .inr (by simp)
    · exact .inl (List.mem_filter.mpr ⟨hmem, by simpa using hid⟩)
  · exact .inr (List.mem_append_left _ hmem)

/-- An open write: what its view has deleted was deleted before or is its own deletion, and it has swept
the allow rows of its deletions. -/
structure Sweeps (db : Db J) (written : Written J) : Prop where
  deleted : ∀ asset, DeletedNow written.config asset → asset ∈ written.deleted ∨ DeletedNow db.config asset
  allows : ∀ row ∈ written.swept, row.effect = .allow
  swept : ∀ row ∈ db.grants, ∀ asset ∈ written.deleted, allowsOn row.toPermissionGrant asset → row ∈ written.swept

theorem Good.written (h : Good before log db) {written : Written J} (hs : Sweeps db written) :
    Good before (log ++ [.written written.deleted]) (commitWrite db written) := by
  have hgranted : ∀ r, GrantedIn before (log ++ [.written written.deleted]) r → GrantedIn before log r := fun r hr =>
    hr.of_append.resolve_right (by simp)
  have hkept : ∀ r, r ∈ (commitWrite db written).grants ↔ r ∈ db.grants ∧ r ∉ written.swept := by
    simp [commitWrite]
  refine ⟨⟨h.swept_after (fun r hr => .inl ((hkept r).mp hr).1) ?_, ?_, ?_⟩, fun r hr => h.ids r (hgranted r hr), ?_, ?_⟩
  · rintro _ ⟨⟩ asset hasset r hr hallows
    obtain ⟨hmem, hno⟩ := (hkept r).mp hr
    exact hno (hs.swept r hmem asset hasset hallows)
  · intro r hr asset hallows hdeleted
    obtain ⟨hmem, hno⟩ := (hkept r).mp hr
    rcases hs.deleted asset hdeleted with hown | hold
    · exact hno (hs.swept r hmem asset hown hallows)
    · exact h.live r hmem asset hallows hold
  · intro r hd hr
    refine (h.denies r hd (hgranted r hr)).imp (fun hmem => (hkept r).mpr ⟨hmem, fun hsw => ?_⟩) (List.mem_append_left _)
    simp [hs.allows r hsw] at hd
  · exact fun r hr => (h.stored r ((hkept r).mp hr).1).append _
  · exact h.nodup.sublist (List.filter_sublist.map _)

theorem appended_row {config : Assets.Db J} {a b : Assets.ConfigAsset J}
    (h : Assets.appendAndActivateRevision config a operation definition status = .ok b) :
    assetId b = assetId a ∧ b.status = status := by
  obtain ⟨_, _, h⟩ := bind_ok.mp h
  obtain rfl := pure_ok.mp h
  exact ⟨rfl, rfl⟩

theorem deletedNow_update {config : Assets.Db J} {b : Assets.ConfigAsset J} (h : DeletedNow (config.update b) asset) :
    DeletedNow config asset ∨ (assetId b = asset ∧ b.status = .deleted) := by
  obtain ⟨a, ha, hid, hs⟩ := h
  obtain ⟨a', ha', rfl⟩ := mem_updateWhere.mp ha
  by_cases he : a'.id = b.id
  · exact .inr ⟨by simpa [he] using hid, by simpa [he] using hs⟩
  · exact .inl ⟨a', ha', by simpa [he] using hid, by simpa [he] using hs⟩

/-- What a mutation leaves deleted was deleted before, or it is the asset the mutation deletes. -/
theorem applyMutation_deleted {config config' : Assets.Db J} (h : Assets.applyMutation mode config m = .ok config')
    (hd : DeletedNow config' asset) : DeletedNow config asset ∨ deletedBy config m = some asset := by
  cases m with
  | setDefaultAgent agentName =>
    obtain rfl := Except.ok.inj h
    exact .inl hd
  | delete key scope =>
    simp only [Assets.applyMutation] at h
    cases hf : config.find? key with
    | none =>
      rw [hf] at h
      obtain rfl := Except.ok.inj h
      exact .inl hd
    | some a =>
      rw [hf] at h
      obtain ⟨-, -, h⟩ := bind_ok.mp h
      split at h
      · obtain rfl := pure_ok.mp h
        exact .inl hd
      · rename_i hs
        obtain ⟨b, hb, h⟩ := bind_ok.mp h
        obtain rfl := pure_ok.mp h
        refine (deletedNow_update hd).imp_right fun ⟨hid, _⟩ => ?_
        have hactive : a.status = .active := by cases ha : a.status <;> simp_all
        have hid : assetId a = asset := (appended_row hb).1.symm.trans hid
        simp [deletedBy, hf, hactive, hid]
  | upsert key definition revert scope =>
    simp only [Assets.applyMutation] at h
    cases hf : config.find? key with
    | none =>
      rw [hf] at h
      obtain rfl := Except.ok.inj h
      obtain ⟨a, ha, hid, hs⟩ := hd
      rcases List.mem_cons.mp ha with rfl | ha
      · cases hs
      · exact .inl ⟨a, ha, hid, hs⟩
    | some a =>
      rw [hf] at h
      obtain ⟨-, -, h⟩ := bind_ok.mp h
      obtain ⟨b, hb, h⟩ := bind_ok.mp h
      obtain rfl := pure_ok.mp h
      have hactive := (appended_row hb).2
      rcases deletedNow_update hd with hold | ⟨_, hs⟩
      · exact .inl hold
      · split at hs <;> simp [hactive] at hs

theorem mutate_sweeps {written written' : Written J} (hs : Sweeps db written)
    (h : mutate db mode written m = .ok written') : Sweeps db written' := by
  obtain ⟨config, hc, h⟩ := bind_ok.mp h
  have hdeleted : ∀ asset, DeletedNow config asset →
      (asset ∈ written.deleted ∨ DeletedNow db.config asset) ∨ deletedBy written.config m = some asset :=
    fun asset hd => (applyMutation_deleted hc hd).imp_left (hs.deleted asset)
  cases hby : deletedBy written.config m with
  | none =>
    simp only [hby] at h hdeleted
    obtain rfl := pure_ok.mp h
    exact ⟨fun asset hd => (hdeleted asset hd).resolve_right (by simp), hs.allows, hs.swept⟩
  | some own =>
    simp only [hby] at h hdeleted
    obtain rfl := pure_ok.mp h
    refine ⟨fun asset hd => ?_, fun r hr => ?_, fun r hr asset ha hallows => ?_⟩
    · rcases hdeleted asset hd with (hold | hold) | hown
      · exact .inl (List.mem_cons_of_mem _ hold)
      · exact .inr hold
      · exact .inl (Option.some.inj hown ▸ List.mem_cons_self)
    · rcases List.mem_append.mp hr with hr | hr
      · exact (of_decide_eq_true (List.mem_filter.mp hr).2).2.2
      · exact hs.allows r hr
    · rcases List.mem_cons.mp ha with rfl | ha
      · exact List.mem_append_left _ (List.mem_filter.mpr ⟨hr, decide_eq_true hallows⟩)
      · exact List.mem_append_right _ (hs.swept r hr asset ha hallows)

def Process.open : Process J → Option (Written J)
  | .writing w => w.open
  | .granting _ | .revoking _ => none

def Process.stores (db : Db J) : Process J → Option PermissionGrant
  | .granting g =>
    match g.phase with
    | .creating scope holder => some (g.grant db.clientInstanceId scope holder)
    | .scoping | .finding _ => none
  | .revoking _ | .writing _ => none

def StoredWhileLive (s : Pool (Db J) (Process J)) : Move (Request J) Others → Prop
  | .advance pid => ∀ t ∈ s.at? pid, ∀ grant ∈ t.stores s.store, ∀ asset ∈ grant.scopeId, allowsOn grant asset →
      ¬ DeletedNow s.store.config asset ∧ ∀ q ∈ s.running, ∀ written ∈ q.2.open, asset ∉ written.deleted
  | _ => True

def assertions (before : List GrantRow) : Assertions (Db J) (Process J) Event where
  holds log db := Good before log db
  relies _ db t := ∀ written ∈ t.open, Sweeps db written
  apart p q := p.open.isNone ∨ q.open.isNone

theorem Sweeps.mono {written : Written J} (hs : Sweeps db written) (hconfig : db'.config = db.config)
    (hgrants : ∀ row ∈ db'.grants, row ∈ db.grants ∨
      ∀ asset ∈ written.deleted, ¬ allowsOn row.toPermissionGrant asset) : Sweeps db' written := by
  refine ⟨hconfig ▸ hs.deleted, hs.allows, fun row hr asset ha hallows => ?_⟩
  rcases hgrants row hr with hr | hno
  · exact hs.swept row hr asset ha hallows
  · exact absurd hallows (hno asset ha)

structure Goes (before : List GrantRow) (log : List Event) (others : Process J → Prop) (db : Db J) (r : StepResult J) :
    Prop where
  good : Good before (log ++ r.1.toList) r.2.2
  others : ∀ q, others q → (∀ written ∈ q.open, Sweeps db written) → ∀ written ∈ q.open, Sweeps r.2.2 written
  next : ∀ t' ∈ r.2.1, t'.open = none

section steps

variable {others : Process J → Prop}

theorem Goes.fails (h : Good before log db) (e : AppError) : Goes before log others db (fails db e) :=
  ⟨h.failed e, fun _ _ hq => hq, by simp [Grants.fails]⟩

theorem Goes.goesOn {t : Process J} (h : Good before log db) (ht : t.open = none) :
    Goes before log others db (goesOn db t) :=
  ⟨by simpa [Grants.goesOn] using h, fun _ _ hq => hq, by simpa [Grants.goesOn] using ht⟩

theorem granting_goes {g : Granting} (others : Process J → Prop) (h : Good before log db)
    (hlive : ∀ grant ∈ (Process.granting g : Process J).stores db, ∀ asset, allowsOn grant asset →
      ¬ DeletedNow db.config asset ∧ ∀ q, others q → ∀ written ∈ q.open, asset ∉ written.deleted) :
    Goes before log others db (g.step db) := by
  unfold Granting.step
  cases hp : g.phase with
  | scoping =>
    simp only
    split
    · exact .fails h _
    · exact .goesOn h rfl
  | finding scope =>
    simp only
    split
    · exact .fails h _
    · exact .goesOn h rfl
  | creating scope holder =>
    simp only
    split
    · exact .fails h _
    · rename_i row db' hc
      have hlive := hlive _ (by simp only [Process.stores, hp]; rfl)
      obtain ⟨hinput, _, rfl⟩ := createGrant_ok hc
      refine ⟨h.granted hc fun asset ha => (hlive asset ha).1, fun q hother hq written hw => ?_, by simp⟩
      refine (hq written hw).mono rfl fun r hr => ?_
      rcases List.mem_cons.mp hr with rfl | hr
      · exact .inr fun asset ha hallows => (hlive asset (hinput ▸ hallows)).2 q hother written hw ha
      · exact .inl hr

theorem revoking_goes {r : Revoking} (others : Process J → Prop) (h : Good before log db) : Goes before log others db (r.step db) := by
  unfold Revoking.step
  cases hp : r.phase with
  | reading =>
    simp only
    split
    · exact .fails h _
    · exact .goesOn h rfl
  | finding row =>
    simp only
    split
    · exact .fails h _
    · exact .goesOn h rfl
  | deleting =>
    simp only
    split
    · exact .fails h _
    · rename_i row db' hc
      obtain ⟨_, rfl⟩ := deleteGrant_ok hc
      refine ⟨h.revoked hc, fun q _ hq written hw => ?_, by simp⟩
      exact (hq written hw).mono rfl fun r hr => .inl (List.mem_filter.mp hr).1

end steps

theorem writing_keeps {w : Writing J} (h : Good before log db) (hw : ∀ written ∈ w.open, Sweeps db written) :
    Good before (log ++ (w.step db).1.toList) (w.step db).2.2 ∧
      (w.open = none → (w.step db).2.2 = db) ∧
      ∀ t' ∈ (w.step db).2.1, ∀ written ∈ t'.open, Sweeps (w.step db).2.2 written := by
  unfold Writing.step
  cases hp : w.phase with
  | locking =>
    simp only
    split
    · exact ⟨h.failed _, fun _ => rfl, by simp [fails]⟩
    · refine ⟨by simpa [goesOn] using h, fun _ => rfl, ?_⟩
      rintro _ ⟨⟩ _ ⟨⟩
      exact ⟨fun _ hd => .inr hd, by simp, by simp⟩
  | mutating mode written rest =>
    have hsweeps : Sweeps db written := hw written (by simp [Writing.open, hp])
    have hopen : w.open ≠ none := by simp [Writing.open, hp]
    cases rest with
    | nil =>
      simp only
      split
      · exact ⟨h.failed _, fun ho => absurd ho hopen, by simp [fails]⟩
      · exact ⟨h.written hsweeps, fun ho => absurd ho hopen, by simp⟩
    | cons m rest =>
      simp only
      split
      · exact ⟨h.failed _, fun ho => absurd ho hopen, by simp [fails]⟩
      · rename_i written' hm
        refine ⟨by simpa [goesOn] using h, fun ho => absurd ho hopen, ?_⟩
        rintro _ ⟨⟩ _ ⟨⟩
        exact mutate_sweeps hsweeps hm

theorem Goes.next_ok {others : Process J → Prop} {t : Process J} {r : StepResult J} (h : Goes before log others db r) :
    ∀ t' ∈ r.2.1, (assertions before).relies (log ++ r.1.toList) r.2.2 t' ∧
      ∀ q, (assertions before).relies log db q → (assertions before).apart t q → ¬ (grantSystem J).blocks q t →
        (assertions before).apart t' q := by
  intro t' ht'
  have hnone := h.next t' ht'
  refine ⟨fun written hw => ?_, fun _ _ _ _ => .inl (by simp [hnone])⟩
  rw [hnone] at hw
  cases hw

theorem follow_inductive (before : List GrantRow) :
    (grantSystem J).Inductive (assertions before) StoredWhileLive where
  symm _ _ h := h.symm
  start log s input _ _ := by
    refine ⟨fun written hw => ?_, fun _ => .inl ?_⟩
    · cases input <;> cases hw
    · cases input <;> rfl
  step log s pid t hs hlive hat ht hothers := by
    have hgood : Good before log s.store := hs.holds
    cases t with
    | granting g =>
      have hgoes := granting_goes (fun q => (assertions before).apart (.granting g) q ∧ ∃ p ∈ s.leave pid, p.2 = q)
        hgood fun grant hg asset ha => by
          obtain ⟨hno, hall⟩ := hlive _ hat grant hg asset ha.2.1 ha
          refine ⟨hno, ?_⟩
          rintro _ ⟨_, p, hp, rfl⟩
          exact hall p (mem_leave.mp hp).1
      exact ⟨⟨hgoes.good, hgoes.others⟩, hgoes.next_ok⟩
    | revoking r =>
      have hgoes := revoking_goes (r := r)
        (fun q => (assertions before).apart (.revoking r) q ∧ ∃ p ∈ s.leave pid, p.2 = q) hgood
      exact ⟨⟨hgoes.good, hgoes.others⟩, hgoes.next_ok⟩
    | writing w =>
      obtain ⟨hnext, hsame, hopen⟩ := writing_keeps hgood ht
      refine ⟨⟨hnext, fun q ⟨hap, _⟩ hq written hw => ?_⟩, fun t' ht' => ⟨hopen t' ht', fun q _ hap hb => ?_⟩⟩
      · rcases hap with hnone | hnone
        · change Sweeps (w.step s.store).2.2 written
          rw [hsame (Option.isNone_iff_eq_none.mp hnone)]
          exact hq written hw
        · rw [Option.isNone_iff_eq_none.mp hnone] at hw
          cases hw
      · refine .inr (hap.elim (fun hnone => ?_) id)
        cases q with
        | writing q => simpa [grantSystem, Process.open] using fun hq => hb ⟨hq, hnone⟩
        | granting _ | revoking _ => rfl
  env log s e hs _ := by
    have hgood : Good before log s.store := hs.holds
    refine ⟨?_, fun q _ hq written hw => (hq written hw).mono rfl fun r hr => .inl hr⟩
    change Good before (log ++ []) _
    rw [List.append_nil]
    exact hgood.same rfl rfl rfl

def Db.Ok (db : Db J) : Prop :=
  (db.grants.map (·.id)).Nodup ∧ (∀ row ∈ db.grants, row.id < db.nextGrantId) ∧
    ∀ row ∈ db.grants, ∀ asset, allowsOn row.toPermissionGrant asset → ¬ DeletedNow db.config asset

def grantMachine (J : Type) : Machine (Pool (Db J) (Process J)) (Move (Request J) Others) (Option Event) :=
  (grantSystem J).machine Db.Ok fun _ _ => True

/-- Deleted assets take their grants with them, as long as none is stored for an asset that is deleted or
that an open write has deleted. -/
theorem grants_follow {s₀ s : Pool (Db J) (Process J)} {h : List (Move (Request J) Others × Option Event)}
    (hi : (grantMachine J).init s₀) (hr : ((grantMachine J).when StoredWhileLive).Run s₀ h s) :
    GrantsFollow s₀.store.grants (answers h) s.store := by
  obtain ⟨⟨hnodup, hids, hlive⟩, hidle, _⟩ := hi
  have hgranted : ∀ row, GrantedIn s₀.store.grants [] row → row ∈ s₀.store.grants := fun row hr => hr.resolve_right (by simp)
  have hstart : Good s₀.store.grants [] s₀.store := by
    refine ⟨⟨fun l₁ l₂ row asset hl _ _ hd => ?_, hlive, fun row _ hr => .inl (hgranted row hr)⟩,
      fun row hr => hids row (hgranted row hr), fun row hr => .inl hr, hnodup⟩
    obtain ⟨_, rfl⟩ := List.append_eq_nil_iff.mp hl.symm
    obtain ⟨_, hmem, _⟩ := hd
    cases hmem
  have hok : (assertions s₀.store.grants).Ok [] s₀ := Assertions.Ok.of_idle hidle hstart
  exact ((follow_inductive s₀.store.grants).run_ok (run_of_when _ hr) hok).holds.toGrantsFollow

instance : Decidable (DeletedNow config asset) :=
  inferInstanceAs (Decidable (∃ a ∈ config.assets, assetId a = asset ∧ a.status = .deleted))

instance : ∀ q t, Decidable ((grantSystem J).blocks q t)
  | .writing q, .writing t => inferInstanceAs (Decidable (q.open.isSome ∧ t.open.isNone))
  | .writing _, .granting _ | .writing _, .revoking _ | .granting _, _ | .revoking _, _ => .isFalse id

instance : Decidable ((grantMachine J).enabled s a) :=
  inferInstanceAs (Decidable ((grantSystem J).Unblocked s a ∧ True))

instance : DecidablePred (StoredWhileLive s)
  | .advance pid => inferInstanceAs (Decidable (∀ t ∈ s.at? pid, ∀ grant ∈ t.stores s.store, ∀ asset ∈ grant.scopeId,
      allowsOn grant asset → ¬ DeletedNow s.store.config asset ∧
        ∀ q ∈ s.running, ∀ written ∈ q.2.open, asset ∉ written.deleted))
  | .start _ | .abort _ | .env _ => .isTrue trivial

instance : Decidable (((grantMachine J).when StoredWhileLive).enabled s a) :=
  inferInstanceAs (Decidable ((grantMachine J).enabled s a ∧ StoredWhileLive s a))

namespace Example

def store : Db String where
  clientInstanceId := "instance"
  config := ⟨[⟨0, (.skill, "s"), .ofInstance, .active, 1, [⟨1, 1, .create, some "s", 1⟩], none⟩], 1, none, 2⟩
  holders := [⟨"u", [], false⟩]
  namespaces := []
  grants := []
  nextGrantId := 0

def ready : Pool (Db String) (Process String) := ⟨store, [], 0⟩

abbrev Go := Move (Request String) Others

def grant : Go := .start (.grant ["superadmin"] ⟨.user, "u", "skill.read", .asset, some "cfga_0", none, .allow⟩)

def delete : Go := .start (.write { mutations := [.delete (.skill, "s") none] })

def steps (pid n : Nat) : List Go := List.replicate n (.advance pid)

def late : List Go := grant :: steps 0 2 ++ delete :: steps 1 3 ++ steps 0 1

def inTurn : List Go := grant :: steps 0 3 ++ delete :: steps 1 3

theorem ready_init : (grantMachine String).init ready :=
  ⟨⟨List.nodup_nil, fun _ h => (List.not_mem_nil h).elim, fun _ h => (List.not_mem_nil h).elim⟩, rfl, rfl⟩

end Example

/-- The late row is stored for an asset that is deleted. -/
theorem late_row_is_stored : ¬ ∀ (J : Type) (s₀ s : Pool (Db J) (Process J))
    (h : List (Move (Request J) Others × Option Event)), (grantMachine J).init s₀ → (grantMachine J).Run s₀ h s →
    GrantsFollow s₀.store.grants (answers h) s.store := by
  intro hall
  have hallows : (grantMachine String).Allows Example.ready Example.late := by decide
  have hfollow := hall String _ _ _ Example.ready_init hallows.run
  have hrow : ∃ row ∈ ((grantMachine String).after Example.ready Example.late).store.grants,
      allowsOn row.toPermissionGrant "cfga_0" := by decide
  obtain ⟨row, hr, hallowsOn⟩ := hrow
  exact hfollow.live row hr "cfga_0" hallowsOn (by decide)

theorem grants_follow_deleted :
    .granted ⟨⟨"instance", .user, "u", "skill.read", .allow, .asset, some "cfga_0", none⟩, 0⟩ ∈
        answers ((grantMachine String).history Example.ready Example.inTurn) ∧
      GrantsFollow [] (answers ((grantMachine String).history Example.ready Example.inTurn))
        ((grantMachine String).after Example.ready Example.inTurn).store := by
  have hallows : ((grantMachine String).when StoredWhileLive).Allows Example.ready Example.inTurn := by decide
  exact ⟨by decide, grants_follow Example.ready_init hallows.run⟩

end Catalyst.Grants
