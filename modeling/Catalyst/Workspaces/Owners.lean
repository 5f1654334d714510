import Catalyst.Workspaces.Model

/-!
# What a write does to owners

Of a workspace that another transaction has locked nobody becomes an owner and no active owner
is lost. A write that takes an owner away leaves another active one where it has looked for one.
-/

namespace Catalyst.Workspaces

open Library Library.Check

variable {db db' : Db} {w : WorkspaceId} {u : UserId}

def Owner (db : Db) (w : WorkspaceId) (u : UserId) : Prop := ⟨w, u, .owner⟩ ∈ db.memberships

def Active (db : Db) (u : UserId) : Prop := u ∈ activeUserIds db

def Open (db : Db) (w : WorkspaceId) : Prop := ∃ x ∈ db.workspaces, x.id = w ∧ x.kind = .shared ∧ x.notInDeletion

def HasActiveOwner (db : Db) (w : WorkspaceId) : Prop := ∃ u, Owner db w u ∧ Active db u

def Covered (db : Db) (w : WorkspaceId) (u : UserId) : Prop := ∃ v, v ≠ u ∧ Owner db w v ∧ Active db v

def WorkspaceMembership.key (m : WorkspaceMembership) : WorkspaceId × UserId := (m.workspaceId, m.userId)

structure Db.Ok (db : Db) : Prop where
  users : (db.users.map (·.id)).Nodup
  memberships : (db.memberships.map (·.key)).Nodup
  workspace_lt : ∀ x ∈ db.workspaces, x.id < db.fresh
  membership_lt : ∀ m ∈ db.memberships, m.workspaceId < db.fresh

theorem Owner.lt (h : Owner db w u) (hd : db.Ok) : w < db.fresh := hd.membership_lt _ h

theorem Open.getWorkspace (h : Open db w) : (getWorkspace db w).isSome := by
  obtain ⟨x, hx, hid, _, hopen⟩ := h
  exact List.find?_isSome.mpr ⟨x, hx, by simp [hid, hopen]⟩

theorem active_iff : Active db u ↔ ∃ x ∈ db.users, x.id = u ∧ x.isActive := by
  simp only [Active, activeUserIds, List.mem_map, List.mem_filter, decide_eq_true_eq]
  exact ⟨fun ⟨x, ⟨hx, ha⟩, hid⟩ => ⟨x, hx, hid, ha⟩, fun ⟨x, hx, hid, ha⟩ => ⟨x, ⟨hx, ha⟩, hid⟩⟩

/-- What a step leaves to a transaction that holds the locks `held`. -/
structure Quiet (held : WorkspaceId → Prop) (db db' : Db) : Prop where
  fresh : db.fresh ≤ db'.fresh
  opens : ∀ w, w < db.fresh → Open db' w → Open db w
  inactive : ∀ u, Active db' u → Active db u
  owner : ∀ w, held w → w < db.fresh → Open db' w → ∀ u, Owner db' w u → Owner db w u
  stays : ∀ w, held w → Open db' w → ∀ u, Owner db w u → Active db u → Owner db' w u ∧ Active db' u

/-- What a step of a process does that holds the locks `held` itself and may make `made` an owner. -/
structure Effect (held : List WorkspaceId) (made : Option UserId) (db db' : Db) : Prop where
  ok : db'.Ok
  quiet : ∀ other : WorkspaceId → Prop, (∀ w, other w → w ∉ held) → Quiet other db db'
  made : ∀ w u, Owner db' w u → Owner db w u ∨ u ∈ made
  kept : ∀ w, w < db.fresh → (Open db w → HasActiveOwner db w) → Open db' w → HasActiveOwner db' w

theorem Effect.refl {held : List WorkspaceId} {made : Option UserId} (hd : db.Ok) : Effect held made db db where
  ok := hd
  quiet _ _ := ⟨Nat.le_refl _, fun _ _ h => h, fun _ h => h, fun _ _ _ _ _ h => h, fun _ _ _ _ ho ha => ⟨ho, ha⟩⟩
  made _ _ h := .inl h
  kept _ _ h := h

section writes

variable {held : List WorkspaceId} {made : Option UserId}

theorem mem_append_iff_owner {m : WorkspaceMembership} {ms : List WorkspaceMembership} :
    ⟨w, u, .owner⟩ ∈ ms ++ [m] ↔ ⟨w, u, .owner⟩ ∈ ms ∨ m = ⟨w, u, .owner⟩ := by
  simp [eq_comm]

theorem createWorkspace_effect (hd : db.Ok) (h : createWorkspace db u = .ok db') : Effect held (some u) db db' := by
  obtain ⟨-, -, h⟩ := bind_ok.mp h
  obtain h := pure_ok.mp h
  have howner : ∀ w v, Owner db' w v ↔ Owner db w v ∨ (w = db.fresh ∧ v = u) := by
    intro w v
    subst h
    simp [Owner]
  have hactive : ∀ v, Active db' v ↔ Active db v := fun v => by subst h; exact Iff.rfl
  have hopen : ∀ w, w < db.fresh → Open db' w → Open db w := by
    rintro w hw ⟨x, hx, hid, hrest⟩
    subst h
    rcases List.mem_append.mp hx with hx | hx
    · exact ⟨x, hx, hid, hrest⟩
    · obtain rfl := List.mem_singleton.mp hx
      exact absurd hw (by simp [← hid])
  refine ⟨?_, fun other _ => ⟨?_, hopen, fun v hv => (hactive v).mp hv, ?_, ?_⟩, ?_, ?_⟩
  · subst h
    refine ⟨hd.users, ?_, ?_, ?_⟩
    · rw [List.map_append, List.nodup_append]
      refine ⟨hd.memberships, by simp, ?_⟩
      rintro k hk k' hk' rfl
      obtain ⟨m, hm, rfl⟩ := List.mem_map.mp hk
      have hlt := hd.membership_lt m hm
      simp [WorkspaceMembership.key] at hk'
      exact absurd hlt (by simp [hk'.1])
    · intro x hx
      rcases List.mem_append.mp hx with hx | hx
      · exact Nat.lt_succ_of_lt (hd.workspace_lt x hx)
      · obtain rfl := List.mem_singleton.mp hx
        exact Nat.lt_succ_self _
    · intro m hm
      rcases List.mem_append.mp hm with hm | hm
      · exact Nat.lt_succ_of_lt (hd.membership_lt m hm)
      · obtain rfl := List.mem_singleton.mp hm
        exact Nat.lt_succ_self _
  · subst h
    exact Nat.le_succ _
  · rintro w _ hw _ v hv
    exact ((howner w v).mp hv).resolve_right fun he => absurd hw (by simp [he.1])
  · exact fun w _ _ v ho ha => ⟨(howner w v).mpr (.inl ho), (hactive v).mpr ha⟩
  · intro w v hv
    exact ((howner w v).mp hv).imp_right fun he => by simp [he.2]
  · intro w hw hkept ho
    obtain ⟨v, hv, ha⟩ := hkept (hopen w hw ho)
    exact ⟨v, (howner w v).mpr (.inl hv), (hactive v).mpr ha⟩

theorem memberships_effect (hd : db.Ok) {ms : List WorkspaceMembership} (hkeys : (ms.map (·.key)).Nodup)
    (hlt : ∀ m ∈ ms, m.workspaceId < db.fresh)
    (hadds : ∀ w v, ⟨w, v, .owner⟩ ∈ ms → Owner db w v ∨ ((Open db w → w ∈ held) ∧ v ∈ made))
    (htakes : ∀ w v, Owner db w v → Active db v → Open db w → ⟨w, v, .owner⟩ ∈ ms ∨ (w ∈ held ∧ Covered db w v))
    (hcovers : ∀ w v v', v ≠ v' → Owner db w v → Active db v → Owner db w v' → ⟨w, v', .owner⟩ ∈ ms ∨ ⟨w, v, .owner⟩ ∈ ms) :
    Effect held made db { db with memberships := ms } := by
  refine ⟨⟨hd.users, hkeys, hd.workspace_lt, hlt⟩, fun other hother => ⟨Nat.le_refl _, fun _ _ h => h, fun _ h => h, ?_, ?_⟩,
    fun w v hv => (hadds w v hv).imp_right And.right, ?_⟩
  · intro w how _ hopen v hv
    exact (hadds w v hv).resolve_right fun h => hother w how (h.1 hopen)
  · intro w how hopen v ho ha
    exact ⟨(htakes w v ho ha hopen).resolve_right fun h => hother w how h.1, ha⟩
  · intro w _ hkept hopen
    obtain ⟨v, ho, ha⟩ := hkept hopen
    rcases htakes w v ho ha hopen with hms | ⟨_, v', hne, ho', ha'⟩
    · exact ⟨v, hms, ha⟩
    · rcases hcovers w v' v hne ho' ha' ho with h | h
      · exact ⟨v, h, ha⟩
      · exact ⟨v', h, ha'⟩

theorem insertMembership_effect (hd : db.Ok) (h : insertMembership db w u .member = .ok db') :
    Effect held made db db' := by
  obtain ⟨_, hkey, h⟩ := bind_ok.mp h
  obtain ⟨_, hexists, h⟩ := bind_ok.mp h
  obtain rfl := pure_ok.mp h
  have hkey := require_ok.mp hkey
  obtain ⟨⟨x, hx, hid⟩, _⟩ := require_ok.mp hexists
  refine memberships_effect hd ?_ ?_ ?_ ?_ ?_
  · rw [List.map_append, List.nodup_append]
    refine ⟨hd.memberships, by simp, ?_⟩
    rintro k hk k' hk' rfl
    obtain ⟨m, hm, he⟩ := List.mem_map.mp hk
    simp only [List.map_cons, List.map_nil, List.mem_singleton] at hk'
    exact hkey m hm (Prod.mk.inj (he.trans hk'))
  · intro m hm
    rcases List.mem_append.mp hm with hm | hm
    · exact hd.membership_lt m hm
    · obtain rfl := List.mem_singleton.mp hm
      exact hid ▸ hd.workspace_lt x hx
  · exact fun w v hv => .inl ((mem_append_iff_owner.mp hv).resolve_right (by simp))
  · exact fun w v ho _ _ => .inl (List.mem_append_left _ ho)
  · exact fun w v v' _ ho _ _ => .inr (List.mem_append_left _ ho)

theorem on_adds {w₀ : WorkspaceId} {u₀ : UserId} {change : MembershipChange} {ms : List WorkspaceMembership}
    (h : ⟨w, u, .owner⟩ ∈ change.on w₀ u₀ ms) :
    ⟨w, u, .owner⟩ ∈ ms ∨ (w = w₀ ∧ u = u₀ ∧ change = .role .owner) := by
  cases change with
  | remove => exact .inl (mem_deleteWhere.mp h).1
  | role newRole =>
    obtain ⟨m, hm, he⟩ := mem_updateWhere.mp h
    split at he
    · rename_i hk
      refine .inr ⟨?_, ?_, ?_⟩ <;> cases he
      · exact hk.1
      · exact hk.2
      · rfl
    · exact .inl (he ▸ hm)

theorem on_keeps {w₀ : WorkspaceId} {u₀ : UserId} {change : MembershipChange} {ms : List WorkspaceMembership}
    (h : ⟨w, u, .owner⟩ ∈ ms) (hne : ¬ (w = w₀ ∧ u = u₀)) : ⟨w, u, .owner⟩ ∈ change.on w₀ u₀ ms := by
  cases change with
  | remove => exact mem_deleteWhere.mpr ⟨h, hne⟩
  | role newRole => exact mem_updateWhere_of_not h hne

theorem on_mem_key {w₀ : WorkspaceId} {u₀ : UserId} {change : MembershipChange} {ms : List WorkspaceMembership}
    {m : WorkspaceMembership} (h : m ∈ change.on w₀ u₀ ms) : ∃ m' ∈ ms, m'.key = m.key := by
  cases change with
  | remove => exact ⟨m, (mem_deleteWhere.mp h).1, rfl⟩
  | role newRole =>
    obtain ⟨m', hm, rfl⟩ := mem_updateWhere.mp h
    refine ⟨m', hm, ?_⟩
    split <;> rfl

theorem on_keys {w₀ : WorkspaceId} {u₀ : UserId} {change : MembershipChange} {ms : List WorkspaceMembership}
    (h : (ms.map (·.key)).Nodup) : ((change.on w₀ u₀ ms).map (·.key)).Nodup := by
  cases change with
  | remove => exact map_deleteWhere_nodup _ h
  | role newRole =>
    have hmap : (MembershipChange.on w₀ u₀ ms (.role newRole)).map WorkspaceMembership.key = ms.map WorkspaceMembership.key :=
      map_updateWhere WorkspaceMembership.key fun _ _ => rfl
    exact hmap ▸ h

/-- The change of a membership in a workspace that is locked: another active owner stands by, or no owner
is changed. -/
theorem changeMembership_effect {w₀ : WorkspaceId} {u₀ : UserId} {change : MembershipChange} (hd : db.Ok)
    (hlock : Open db w₀ → w₀ ∈ held) (hcovered : Open db w₀ → Covered db w₀ u₀ ∨ ¬ Owner db w₀ u₀)
    (hmade : change = .role .owner → made = some u₀) (h : changeMembership db w₀ u₀ change = .ok db') :
    Effect held made db db' := by
  obtain ⟨_, _, h⟩ := bind_ok.mp h
  obtain ⟨_, _, h⟩ := bind_ok.mp h
  obtain ⟨_, _, h⟩ := bind_ok.mp h
  obtain rfl := pure_ok.mp h
  refine memberships_effect hd (on_keys hd.memberships) ?_ ?_ ?_ ?_
  · intro m hm
    obtain ⟨m', hm', he⟩ := on_mem_key hm
    exact (Prod.mk.inj he).1 ▸ hd.membership_lt m' hm'
  · intro w v hv
    refine (on_adds hv).imp_right ?_
    rintro ⟨rfl, rfl, he⟩
    exact ⟨hlock, by simp [hmade he]⟩
  · intro w v ho _ hopen
    by_cases hk : w = w₀ ∧ v = u₀
    · obtain ⟨rfl, rfl⟩ := hk
      exact .inr ⟨hlock hopen, (hcovered hopen).resolve_right fun hno => hno ho⟩
    · exact .inl (on_keeps ho hk)
  · intro w v v' hne ho _ ho'
    by_cases hk : w = w₀ ∧ v' = u₀
    · exact .inr (on_keeps ho fun he => hne (he.2.trans hk.2.symm))
    · exact .inl (on_keeps ho' hk)

theorem removeMemberships_effect (hd : db.Ok) (hclosed : ¬ Active db u) (shared : List WorkspaceId) :
    Effect held made db
      { db with memberships := deleteWhere (fun m => m.userId = u ∧ m.workspaceId ∈ shared) db.memberships } := by
  have hkeeps : ∀ w v, Owner db w v → Active db v → ⟨w, v, .owner⟩ ∈
      deleteWhere (fun m : WorkspaceMembership => m.userId = u ∧ m.workspaceId ∈ shared) db.memberships :=
    fun w v ho ha => mem_deleteWhere.mpr ⟨ho, fun hk => hclosed (hk.1 ▸ ha)⟩
  refine memberships_effect hd (map_deleteWhere_nodup _ hd.memberships)
    (fun m hm => hd.membership_lt m (mem_deleteWhere.mp hm).1) ?_ ?_ ?_
  · exact fun w v hv => .inl (mem_deleteWhere.mp hv).1
  · exact fun w v ho ha _ => .inl (hkeeps w v ho ha)
  · exact fun w v v' _ ho ha _ => .inr (hkeeps w v ho ha)

theorem users_effect (hd : db.Ok) {users : List ProductUser} (hids : (users.map (·.id)).Nodup)
    (hinactive : ∀ v, Active { db with users } v → Active db v)
    (hstays : ∀ v, Active db v → Active { db with users } v ∨
      (v = u ∧ ∀ w, Open db w → Owner db w v → w ∈ held ∧ Covered db w v)) :
    Effect held made db { db with users } := by
  refine ⟨⟨hids, hd.memberships, hd.workspace_lt, hd.membership_lt⟩,
    fun other hother => ⟨Nat.le_refl _, fun _ _ h => h, hinactive, fun _ _ _ _ _ h => h, ?_⟩, fun _ _ h => .inl h, ?_⟩
  · intro w how hopen v ho ha
    exact ⟨ho, (hstays v ha).resolve_right fun h => hother w how (h.2 w hopen ho).1⟩
  · intro w _ hkept hopen
    obtain ⟨v, ho, ha⟩ := hkept hopen
    rcases hstays v ha with hv | ⟨rfl, hcovered⟩
    · exact ⟨v, ho, hv⟩
    · obtain ⟨_, v', hne, ho', ha'⟩ := hcovered w hopen ho
      exact ⟨v', ho', (hstays v' ha').resolve_right fun h => hne h.1⟩

theorem markUserDeletionRequested_effect (hd : db.Ok)
    (hcovered : Active db u → ∀ w, Open db w → Owner db w u → w ∈ held ∧ Covered db w u)
    (h : markUserDeletionRequested db u = .ok db') : Effect held made db db' := by
  obtain ⟨_, _, h⟩ := bind_ok.mp h
  obtain rfl := pure_ok.mp h
  refine users_effect (u := u) hd ?_ ?_ ?_
  · have hmap : (updateWhere (·.id = u) (fun user => { user with deletionRequested := true }) db.users).map ProductUser.id =
        db.users.map ProductUser.id := map_updateWhere ProductUser.id fun _ _ => rfl
    exact hmap ▸ hd.users
  · intro v hv
    obtain ⟨x, hx, hid, ha⟩ := active_iff.mp hv
    obtain ⟨y, hy, rfl⟩ := mem_updateWhere.mp hx
    by_cases hu : y.id = u
    · simp [hu, ProductUser.isActive] at ha
    · exact active_iff.mpr ⟨y, hy, by simpa [hu] using hid, by simpa [hu] using ha⟩
  · intro v hv
    by_cases hu : v = u
    · exact .inr ⟨hu, fun w hopen ho => by subst hu; exact hcovered hv w hopen ho⟩
    · obtain ⟨x, hx, rfl, ha⟩ := active_iff.mp hv
      exact .inl (active_iff.mpr ⟨x, mem_updateWhere_of_not hx hu, rfl, ha⟩)

theorem deleteUser_effect (hd : db.Ok) (hclosed : ¬ Active db u) (h : deleteUser db u = .ok db') :
    Effect held made db db' := by
  obtain ⟨_, _, h⟩ := bind_ok.mp h
  obtain ⟨_, _, h⟩ := bind_ok.mp h
  obtain rfl := pure_ok.mp h
  refine users_effect (u := u) hd (map_deleteWhere_nodup _ hd.users) ?_ ?_
  · intro v hv
    obtain ⟨x, hx, hid, ha⟩ := active_iff.mp hv
    exact active_iff.mpr ⟨x, (mem_deleteWhere.mp hx).1, hid, ha⟩
  · intro v hv
    obtain ⟨x, hx, rfl, ha⟩ := active_iff.mp hv
    exact .inl (active_iff.mpr ⟨x, mem_deleteWhere.mpr ⟨hx, fun hid => hclosed (hid ▸ hv)⟩, rfl, ha⟩)

theorem deletion_effect (hd : db.Ok) (deletion : WorkspaceDeletion) : Effect held made db (deletion.run db) := by
  cases deletion with
  | requested w₀ =>
    have hopen : ∀ w, Open (WorkspaceDeletion.run db (.requested w₀)) w → Open db w := by
      rintro w ⟨x, hx, hid, hkind, ho⟩
      obtain ⟨y, hy, rfl⟩ := mem_updateWhere.mp hx
      by_cases hw : y.id = w₀ ∧ y.kind = .shared
      · simp [hw, CollaborationWorkspace.notInDeletion] at ho
      · exact ⟨y, hy, by simpa [hw] using hid, by simpa [hw] using hkind, by simpa [hw] using ho⟩
    refine ⟨⟨hd.users, hd.memberships, ?_, hd.membership_lt⟩, fun other _ => ⟨Nat.le_refl _, fun w _ => hopen w,
      fun _ h => h, fun _ _ _ _ _ h => h, fun _ _ _ _ ho ha => ⟨ho, ha⟩⟩, fun _ _ h => .inl h,
      fun w _ hkept ho => hkept (hopen w ho)⟩
    intro x hx
    obtain ⟨y, hy, rfl⟩ := mem_updateWhere.mp hx
    change _ < db.fresh
    split
    · exact hd.workspace_lt y hy
    · exact hd.workspace_lt y hy
  | completed w₀ =>
    by_cases hget : (getWorkspace db w₀).isSome
    · rw [show WorkspaceDeletion.run db (.completed w₀) = db by simp [WorkspaceDeletion.run, hget]]
      exact .refl hd
    · have hmember : ∀ m, m ∈ (WorkspaceDeletion.run db (.completed w₀)).memberships ↔
          m ∈ db.memberships ∧ m.workspaceId ≠ w₀ := by simp [WorkspaceDeletion.run, hget]
      have hworkspace : ∀ x, x ∈ (WorkspaceDeletion.run db (.completed w₀)).workspaces ↔
          x ∈ db.workspaces ∧ x.id ≠ w₀ := by simp [WorkspaceDeletion.run, hget]
      have hfresh : (WorkspaceDeletion.run db (.completed w₀)).fresh = db.fresh := by simp [WorkspaceDeletion.run, hget]
      have husers : (WorkspaceDeletion.run db (.completed w₀)).users = db.users := by simp [WorkspaceDeletion.run, hget]
      have hactive : ∀ v, Active (WorkspaceDeletion.run db (.completed w₀)) v ↔ Active db v := by
        simp [Active, activeUserIds, husers]
      have hopen : ∀ w, Open (WorkspaceDeletion.run db (.completed w₀)) w → Open db w ∧ w ≠ w₀ := by
        rintro w ⟨x, hx, rfl, hrest⟩
        obtain ⟨hx, hne⟩ := (hworkspace x).mp hx
        exact ⟨⟨x, hx, rfl, hrest⟩, hne⟩
      refine ⟨⟨husers ▸ hd.users, ?_, ?_, ?_⟩, fun other _ => ⟨hfresh ▸ Nat.le_refl _, fun w _ h => (hopen w h).1,
        fun v => (hactive v).mp, ?_, ?_⟩, fun w v h => .inl ((hmember _).mp h).1, ?_⟩
      · simpa [WorkspaceDeletion.run, hget] using map_deleteWhere_nodup _ hd.memberships
      · exact fun x hx => hfresh ▸ hd.workspace_lt x ((hworkspace x).mp hx).1
      · exact fun m hm => hfresh ▸ hd.membership_lt m ((hmember m).mp hm).1
      · exact fun w _ _ _ v h => ((hmember _).mp h).1
      · exact fun w _ ho v hv ha => ⟨(hmember _).mpr ⟨hv, (hopen w ho).2⟩, (hactive v).mpr ha⟩
      · intro w _ hkept ho
        obtain ⟨v, hv, ha⟩ := hkept (hopen w ho).1
        exact ⟨v, (hmember _).mpr ⟨hv, (hopen w ho).2⟩, (hactive v).mpr ha⟩

end writes

end Catalyst.Workspaces
