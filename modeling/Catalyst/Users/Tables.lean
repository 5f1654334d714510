import Catalyst.Users.SignIn

/-!
# What a step does to the tables

The keys of the two tables hold throughout. A step of a sign-in reads, ends or
writes, and a write touches the identity row it read, attaches an identity to a
user or creates the user with it.
-/

namespace Catalyst.Users

open Library Library.Check Library.Processes

structure Db.Ok (db : Db) : Prop where
  keys_nodup : (db.identities.map (·.key)).Nodup
  ids_nodup : (db.users.map (·.id)).Nodup
  owned : ∀ r ∈ db.identities, ∃ u ∈ db.users, u.id = r.userId
  fresh : ∀ u ∈ db.users, u.id < db.fresh

theorem Db.Ok.userOf (hd : Db.Ok db) :
    db.userOf userId = some u ↔ u ∈ db.users ∧ u.id = userId :=
  find?_key_eq_some hd.ids_nodup

theorem Db.Ok.identityOf (hd : Db.Ok db) :
    db.identityOf key = some r ↔ r ∈ db.identities ∧ r.key = key :=
  find?_key_eq_some hd.keys_nodup

theorem Db.Ok.userOf_ne_none (hd : Db.Ok db) (hr : r ∈ db.identities) :
    db.userOf r.userId ≠ none := by
  obtain ⟨u, hu, he⟩ := hd.owned r hr
  rw [hd.userOf.mpr ⟨hu, he⟩]
  simp

def Phase.Reads : Phase → Prop
  | .updating _ | .resolved _ _ | .committed _ => False
  | _ => True

def touchIdentity (input : ResolveUserIdentityInput) (db : Db) : Db :=
  { db with
    identities := updateWhere (·.key = input.key) input.touch db.identities }

def attachIdentity (t : SignIn) (userId : UserId) (db : Db) : Db :=
  { db with identities := upsertIdentity (t.identityRow userId) db.identities }

def createUser (email : Option String) (status : UserStatus) (db : Db) : Db :=
  { db with users := ⟨db.fresh, email, status, false⟩ :: db.users, fresh := db.fresh + 1 }

inductive Wrote (db : Db) (t : SignIn) : Written → Prop
  | touched (hp : t.phase = .updating u) (hr : db.identityOf t.input.key = some r) :
      Wrote db t ⟨u, t.input.touch r, false, false, touchIdentity t.input db⟩
  | attached (hp : t.phase = .resolved (some u) linked) (hu : db.userOf u = some row) :
      Wrote db t ⟨u, t.identityRow u, linked, false, attachIdentity t u db⟩
  | created (hp : t.phase = .resolved none linked) :
      Wrote db t ⟨db.fresh, t.identityRow db.fresh, linked, true,
        attachIdentity t db.fresh (createUser t.input.email .active db)⟩

theorem SignIn.write_ok {t : SignIn} (h : t.write db = .ok w) : Wrote db t w := by
  unfold SignIn.write at h
  split at h
  · rename_i u hp
    simp only [bind_ok, need_ok, pure_ok] at h
    obtain ⟨r, hr, rfl⟩ := h
    exact .touched hp hr
  · rename_i u linked hp
    simp only [bind_ok, need_ok, pure_ok] at h
    obtain ⟨row, hu, rfl⟩ := h
    exact .attached hp hu
  · rename_i linked hp
    cases h
    exact .created hp
  · cases h

inductive Stepped (text : EmailText) (db : Db) (t : SignIn) :
    Option Answer × Option SignIn × Db → Prop
  | reads (hp : t.phase.Reads) (h : t.read text db = .ok phase) :
      Stepped text db t (none, some { t with phase := phase }, db)
  | ends (ha : ∀ i u r l c, answer ≠ .signedIn i u r l c) : Stepped text db t (some answer, none, db)
  | writes (h : Wrote db t w) :
      Stepped text db t (some (.signedIn t.input w.userId w.identity w.linked w.created),
        some { t with phase := .committed w.userId }, w.db)

theorem step_cases (text : EmailText) (db : Db) (t : SignIn) :
    Stepped text db t (t.step text db) := by
  unfold SignIn.step
  cases hp : t.phase with
  | updating u =>
    simp only
    split
    · exact .writes (SignIn.write_ok ‹_›)
    · exact .ends (by simp)
  | resolved user linked =>
    simp only
    split
    · exact .writes (SignIn.write_ok ‹_›)
    · exact .ends (by simp)
  | committed u =>
    simp only
    split
    · exact .ends (by simp)
    · exact .ends (by simp)
  | _ =>
    simp only
    split
    · exact .reads (by simp [hp, Phase.Reads]) ‹_›
    · exact .ends (by simp)

theorem mem_touchIdentity : r' ∈ (touchIdentity input db).identities ↔
    ∃ r ∈ db.identities, r' = if r.key = input.key then input.touch r else r :=
  mem_updateWhere

theorem mem_attachIdentity {t : SignIn} : r ∈ (attachIdentity t u db).identities ↔
    r = t.identityRow u ∨ (r ∈ db.identities ∧ r.key ≠ t.input.key) :=
  mem_upsert

theorem Db.Ok.touchIdentity (hd : Db.Ok db) : Db.Ok (touchIdentity input db) where
  keys_nodup := by
    have hk := map_updateWhere (p := fun r => r.key = input.key) (t := db.identities)
      (f := input.touch) UserIdentity.key fun r _ => rfl
    exact hk.symm ▸ hd.keys_nodup
  ids_nodup := hd.ids_nodup
  owned := by
    intro r' hr'
    obtain ⟨r, hr, rfl⟩ := mem_touchIdentity.mp hr'
    obtain ⟨u, hu, he⟩ := hd.owned r hr
    exact ⟨u, hu, by split <;> exact he⟩
  fresh := hd.fresh

theorem Db.Ok.upsertIdentity (hd : Db.Ok db) (hu : ∃ u ∈ db.users, u.id = row.userId) :
    Db.Ok { db with identities := upsertIdentity row db.identities } where
  keys_nodup := nodup_upsert hd.keys_nodup
  ids_nodup := hd.ids_nodup
  owned := by
    intro r hr
    rcases mem_upsert.mp hr with rfl | ⟨hr, _⟩
    · exact hu
    · exact hd.owned r hr
  fresh := hd.fresh

theorem Db.Ok.createUser (hd : Db.Ok db) (email : Option String) (status : UserStatus) :
    Db.Ok (createUser email status db) where
  keys_nodup := hd.keys_nodup
  ids_nodup := by
    refine List.nodup_cons.mpr ⟨fun hm => ?_, hd.ids_nodup⟩
    obtain ⟨u, hu, he⟩ := List.mem_map.mp hm
    exact absurd (hd.fresh u hu) (by simp [he])
  owned := by
    intro r hr
    obtain ⟨u, hu, he⟩ := hd.owned r hr
    exact ⟨u, List.mem_cons_of_mem _ hu, he⟩
  fresh := by
    intro u hu
    rcases List.mem_cons.mp hu with rfl | hu
    · exact Nat.lt_succ_self _
    · exact Nat.lt_succ_of_lt (hd.fresh u hu)

theorem Db.Ok.changeUser (hd : Db.Ok db) (f : ProductUser → ProductUser)
    (hf : ∀ u, (f u).id = u.id) : Db.Ok (changeUser userId f db) where
  keys_nodup := hd.keys_nodup
  ids_nodup := by
    have hk := map_updateWhere (p := fun u => u.id = userId) (t := db.users) (f := f)
      ProductUser.id fun u _ => hf u
    exact hk.symm ▸ hd.ids_nodup
  owned := by
    intro r hr
    obtain ⟨u, hu, he⟩ := hd.owned r hr
    by_cases hid : u.id = userId
    · exact ⟨f u, mem_updateWhere_of_mem hu hid, (hf u).trans he⟩
    · exact ⟨u, mem_updateWhere_of_not hu hid, he⟩
  fresh := by
    intro u' hu'
    obtain ⟨u, hu, rfl⟩ := mem_updateWhere.mp hu'
    split
    · exact (hf u).symm ▸ hd.fresh u hu
    · exact hd.fresh u hu

theorem Wrote.ok (hd : Db.Ok db) (h : Wrote db t w) : Db.Ok w.db := by
  cases h with
  | touched => exact hd.touchIdentity
  | attached hp hu =>
    have hu := hd.userOf.mp hu
    exact hd.upsertIdentity ⟨_, hu⟩
  | created => exact (hd.createUser _ _).upsertIdentity ⟨_, List.mem_cons_self, rfl⟩

theorem Db.Ok.adminChange (hd : Db.Ok db) (change : AdminChange) :
    Db.Ok (adminChange db change).2 := by
  unfold Users.adminChange
  split
  · rename_i answer db' h
    cases change with
    | createUser email status =>
      cases h
      exact hd.createUser email status
    | updateUser userId email status =>
      simp only [AdminChange.run, bind_ok, pure_ok] at h
      obtain ⟨_, _, h⟩ := h
      cases h
      exact hd.changeUser _ fun _ => rfl
    | upsertUserIdentity identity =>
      simp only [AdminChange.run, lockUserNotInDeletion, bind_ok, need_ok, pure_ok] at h
      obtain ⟨_, ⟨user, hu, _⟩, h⟩ := h
      cases h
      exact hd.upsertIdentity ⟨user, hd.userOf.mp hu⟩
    | deleteUserIdentity userId key =>
      simp only [AdminChange.run, bind_ok, pure_ok] at h
      obtain ⟨_, _, _, _, h⟩ := h
      cases h
      exact ⟨map_deleteWhere_nodup _ hd.keys_nodup, hd.ids_nodup,
        fun r hr => hd.owned r (mem_deleteWhere.mp hr).1, hd.fresh⟩
    | markUserDeletionRequested userId =>
      simp only [AdminChange.run, bind_ok, pure_ok] at h
      obtain ⟨_, _, h⟩ := h
      cases h
      exact hd.changeUser _ fun _ => rfl
    | deleteUser userId =>
      simp only [AdminChange.run, bind_ok, pure_ok] at h
      obtain ⟨_, _, h⟩ := h
      cases h
      refine ⟨map_deleteWhere_nodup _ hd.keys_nodup, map_deleteWhere_nodup _ hd.ids_nodup, ?_,
        fun u hu => hd.fresh u (mem_deleteWhere.mp hu).1⟩
      intro r hr
      obtain ⟨hr, hne⟩ := mem_deleteWhere.mp hr
      obtain ⟨u, hu, he⟩ := hd.owned r hr
      exact ⟨u, mem_deleteWhere.mpr ⟨hu, fun h => hne (he.symm.trans h)⟩, he⟩
  · exact hd

end Catalyst.Users
