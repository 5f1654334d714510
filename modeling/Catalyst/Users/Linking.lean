import Catalyst.Users.Tables

/-!
# Linking sign-ins by e-mail

Every e-mail in the tables has a source in the history: an identity verified it,
an administrator set it, or a sign-in created its user with it. The locks keep
what a sign-in has read about its identity and its e-mail true until it commits.
-/

namespace Catalyst.Users

open Library Library.Check Library.Processes

def Answer.identity : Answer → Option UserIdentity
  | .signedIn _ _ identity _ _ => some identity
  | .mappedIdentity identity => some identity
  | _ => none

def VerifiedFor (log : List Answer) (userId : UserId) (email : String) : Prop :=
  ∃ answer ∈ log, ∃ r ∈ answer.identity,
    r.userId = userId ∧ r.email = some email ∧ r.emailVerified = true

def SetByAdmin (log : List Answer) (userId : UserId) (email : String) : Prop :=
  .createdUser userId (some email) ∈ log ∨ .updatedEmail userId (some email) ∈ log

def CreatedUnverified (log : List Answer) (userId : UserId) (email : String) : Prop :=
  ∃ input r linked, .signedIn input userId r linked true ∈ log ∧ input.email = some email ∧
    input.emailVerified = false

def Sourced (log : List Answer) (userId : UserId) (email : String) : Prop :=
  VerifiedFor log userId email ∨ SetByAdmin log userId email ∨ CreatedUnverified log userId email

def SourcedMatch (text : EmailText) (log : List Answer) (email : String) (userId : UserId) : Prop :=
  ∃ e, text.lower e = email ∧ Sourced log userId e

/-- A sign-in was attached by e-mail for a reason: its own e-mail is verified, and the same
e-mail was verified for the user or set by an administrator. -/
def LinkJustified (text : EmailText) (log : List Answer) (input : ResolveUserIdentityInput)
    (userId : UserId) : Prop :=
  input.linkByVerifiedEmail = true ∧ input.emailVerified = true ∧
    ∃ email, input.email.map text.normalize = some email ∧
      ((∀ e, text.lower e = email → ¬ CreatedUnverified log userId e) →
        ∃ e, text.lower e = email ∧ (VerifiedFor log userId e ∨ SetByAdmin log userId e))

theorem Sourced.mono (hsub : log ⊆ log') (h : Sourced log u e) : Sourced log' u e := by
  rcases h with ⟨a, ha, hr⟩ | (h | h) | ⟨i, r, l, h, hi⟩
  · exact .inl ⟨a, hsub ha, hr⟩
  · exact .inr (.inl (.inl (hsub h)))
  · exact .inr (.inl (.inr (hsub h)))
  · exact .inr (.inr ⟨i, r, l, hsub h, hi⟩)

theorem SourcedMatch.mono (hsub : log ⊆ log') (h : SourcedMatch text log n u) :
    SourcedMatch text log' n u := by
  obtain ⟨e, he, hs⟩ := h
  exact ⟨e, he, hs.mono hsub⟩

theorem linkingEmail_eq_some {input : ResolveUserIdentityInput}
    (h : input.linkingEmail text = some n) :
    input.linkByVerifiedEmail = true ∧ input.emailVerified = true ∧
      input.email.map text.normalize = some n := by
  unfold ResolveUserIdentityInput.linkingEmail at h
  split at h
  · rename_i hc
    exact ⟨hc.1, hc.2, (Option.filter_eq_some_iff.mp h).1⟩
  · cases h

theorem SourcedMatch.justified (hn : input.linkingEmail text = some n)
    (h : SourcedMatch text log n u) : LinkJustified text log input u := by
  obtain ⟨hl, hv, he⟩ := linkingEmail_eq_some hn
  refine ⟨hl, hv, n, he, fun hnone => ?_⟩
  obtain ⟨e, hm, hs | hs | hs⟩ := h
  · exact ⟨e, hm, .inl hs⟩
  · exact ⟨e, hm, .inr hs⟩
  · exact absurd hs (hnone e hm)

structure EmailsSourced (log : List Answer) (db : Db) : Prop where
  ok : Db.Ok db
  identities : ∀ r ∈ db.identities, r.emailVerified = true → ∀ e ∈ r.email, VerifiedFor log r.userId e
  users : ∀ u ∈ db.users, ∀ e ∈ u.email, Sourced log u.id e

def LinksJustified (text : EmailText) (log : List Answer) : Prop :=
  ∀ earlier input userId r created,
    earlier ++ [.signedIn input userId r true created] <+: log → LinkJustified text earlier input userId

def SignIn.ReadSourced (text : EmailText) (log : List Answer) (t : SignIn) : Prop :=
  match t.phase with
  | .unmatched n => t.input.linkingEmail text = some n
  | .identityMatched n ids => t.input.linkingEmail text = some n ∧ ∀ u ∈ ids, SourcedMatch text log n u
  | .candidate u | .resolved (some u) true =>
    ∃ n, t.input.linkingEmail text = some n ∧ SourcedMatch text log n u
  | .resolved none true => False
  | _ => True

def sourced (text : EmailText) : Assertions Db SignIn Answer where
  holds log db := EmailsSourced log db ∧ LinksJustified text log
  relies log _ t := t.ReadSourced text log
  apart _ _ := True

theorem SignIn.ReadSourced.mono (hsub : log ⊆ log') (h : SignIn.ReadSourced text log t) :
    t.ReadSourced text log' := by
  unfold SignIn.ReadSourced at *
  split at h
  · exact h
  · exact ⟨h.1, fun u hu => (h.2 u hu).mono hsub⟩
  · obtain ⟨n, hn, hs⟩ := h
    exact ⟨n, hn, hs.mono hsub⟩
  · obtain ⟨n, hn, hs⟩ := h
    exact ⟨n, hn, hs.mono hsub⟩
  · exact h
  · trivial

theorem LinksJustified.concat (h : LinksJustified text log)
    (ha : ∀ i u r c, answer = .signedIn i u r true c → LinkJustified text log i u) :
    LinksJustified text (log ++ [answer]) := by
  intro earlier i u r c hp
  rcases List.prefix_concat_iff.mp hp with he | hp
  · obtain ⟨hlog, hanswer⟩ := List.append_inj' he rfl
    exact hlog ▸ ha i u r c (List.singleton_inj.mp hanswer).symm
  · exact h earlier i u r c hp

theorem EmailsSourced.mono (hsub : log ⊆ log') (h : EmailsSourced log db) : EmailsSourced log' db where
  ok := h.ok
  identities := by
    intro r hr hv e he
    obtain ⟨a, ha, hx⟩ := h.identities r hr hv e he
    exact ⟨a, hsub ha, hx⟩
  users u hu e he := (h.users u hu e he).mono hsub

theorem EmailsSourced.upsertIdentity (h : EmailsSourced log db) (ha : answer ∈ log)
    (hr : answer.identity = some row) (hu : ∃ u ∈ db.users, u.id = row.userId) :
    EmailsSourced log { db with identities := upsertIdentity row db.identities } where
  ok := h.ok.upsertIdentity hu
  identities := by
    intro r hmem hv e he
    rcases mem_upsert.mp hmem with rfl | ⟨hmem, _⟩
    · exact ⟨answer, ha, r, hr, rfl, he, hv⟩
    · exact h.identities r hmem hv e he
  users := h.users

theorem EmailsSourced.createUser (h : EmailsSourced log db)
    (hs : ∀ e ∈ email, Sourced log db.fresh e) : EmailsSourced log (createUser email status db) where
  ok := h.ok.createUser email status
  identities := h.identities
  users := by
    intro u hu e he
    rcases List.mem_cons.mp hu with rfl | hu
    · exact hs e he
    · exact h.users u hu e he

theorem EmailsSourced.changeUser (h : EmailsSourced log db) (f : ProductUser → ProductUser)
    (hid : ∀ u, (f u).id = u.id)
    (hs : ∀ u ∈ db.users, u.id = userId → ∀ e ∈ (f u).email, e ∈ u.email ∨ Sourced log u.id e) :
    EmailsSourced log (changeUser userId f db) where
  ok := h.ok.changeUser f hid
  identities := h.identities
  users := by
    intro u' hu' e he
    obtain ⟨u, hu, rfl⟩ := mem_updateWhere.mp hu'
    split at he
    · rename_i hi
      rw [if_pos hi, hid]
      rcases hs u hu hi e he with he | hs
      · exact h.users u hu e he
      · exact hs
    · rename_i hi
      rw [if_neg hi]
      exact h.users u hu e he

theorem Wrote.sourced (hw : Wrote db t w) (h : EmailsSourced log db)
    (ha : .signedIn t.input w.userId w.identity w.linked w.created ∈ log) :
    EmailsSourced log w.db := by
  cases hw with
  | @touched u r hp hr =>
    obtain ⟨hr, hk⟩ := h.ok.identityOf.mp hr
    refine ⟨h.ok.touchIdentity, fun r' hr' hv e he => ?_, h.users⟩
    obtain ⟨x, hx, rfl⟩ := mem_touchIdentity.mp hr'
    split at hv
    · rename_i hxk
      have hxr : x = r := eq_of_key h.ok.keys_nodup hx hr (hxk.trans hk.symm)
      rw [if_pos hxk] at he ⊢
      exact ⟨_, ha, _, rfl, by rw [hxr], he, hv⟩
    · rename_i hxk
      rw [if_neg hxk] at he ⊢
      exact h.identities x hx hv e he
  | attached hp hu => exact h.upsertIdentity ha rfl ⟨_, h.ok.userOf.mp hu⟩
  | created hp =>
    refine (h.createUser fun e he => ?_).upsertIdentity ha rfl ⟨_, List.mem_cons_self, rfl⟩
    cases hv : t.input.emailVerified with
    | true => exact .inl ⟨_, ha, _, rfl, rfl, he, hv⟩
    | false => exact .inr (.inr ⟨_, _, _, ha, he, hv⟩)

theorem AdminChange.run_sourced {change : AdminChange} (h : change.run db = .ok (answer, db'))
    (hs : EmailsSourced log db) (ha : answer ∈ log) :
    EmailsSourced log db' ∧ ∀ i u r l c, answer ≠ .signedIn i u r l c := by
  cases change with
  | createUser email status =>
    cases h
    refine ⟨hs.createUser fun e he => ?_, by simp⟩
    cases he
    exact .inr (.inl (.inl ha))
  | updateUser userId email status =>
    simp only [AdminChange.run, bind_ok, pure_ok] at h
    obtain ⟨_, _, h⟩ := h
    cases h
    refine ⟨hs.changeUser _ (fun _ => rfl) fun u _ hid e he => ?_, by cases email <;> simp⟩
    cases email with
    | none => exact .inl he
    | some email =>
      cases he
      exact .inr (.inr (.inl (.inr (hid ▸ ha))))
  | upsertUserIdentity identity =>
    simp only [AdminChange.run, lockUserNotInDeletion, bind_ok, need_ok, pure_ok] at h
    obtain ⟨_, ⟨user, hu, _⟩, h⟩ := h
    cases h
    exact ⟨hs.upsertIdentity ha rfl ⟨user, hs.ok.userOf.mp hu⟩, by simp⟩
  | markUserDeletionRequested userId =>
    simp only [AdminChange.run, bind_ok, pure_ok] at h
    obtain ⟨_, _, h⟩ := h
    cases h
    exact ⟨hs.changeUser _ (fun _ => rfl) fun u _ _ e he => .inl he, by simp⟩
  | deleteUserIdentity userId key =>
    have hok := hs.ok.adminChange (.deleteUserIdentity userId key)
    rw [adminChange, h] at hok
    simp only [AdminChange.run, bind_ok, pure_ok] at h
    obtain ⟨_, _, _, _, h⟩ := h
    cases h
    exact ⟨⟨hok, fun r hr => hs.identities r (mem_deleteWhere.mp hr).1, hs.users⟩, by simp⟩
  | deleteUser userId =>
    have hok := hs.ok.adminChange (.deleteUser userId)
    rw [adminChange, h] at hok
    simp only [AdminChange.run, bind_ok, pure_ok] at h
    obtain ⟨_, _, h⟩ := h
    cases h
    exact ⟨⟨hok, fun r hr => hs.identities r (mem_deleteWhere.mp hr).1,
      fun u hu => hs.users u (mem_deleteWhere.mp hu).1⟩, by simp⟩

theorem found_ok (h : found user linked = .ok phase) : phase = .resolved (some user.id) linked := by
  simp only [found, bind_ok, pure_ok] at h
  obtain ⟨_, _, rfl⟩ := h
  rfl

theorem identityMatches_sourced (hs : EmailsSourced log db) (hu : u ∈ identityMatches text db n) :
    SourcedMatch text log n u := by
  simp only [identityMatches, List.mem_map, List.mem_filter, decide_eq_true_eq,
    Option.map_eq_some_iff] at hu
  obtain ⟨r, ⟨hr, hv, e, he, hm⟩, rfl⟩ := hu
  exact ⟨e, hm, .inl (hs.identities r hr hv e he)⟩

theorem userMatches_sourced (hs : EmailsSourced log db) (hu : u ∈ userMatches text db n) :
    SourcedMatch text log n u.id := by
  simp only [userMatches, List.mem_filter, decide_eq_true_eq, Option.map_eq_some_iff] at hu
  obtain ⟨hu, e, he, hm⟩ := hu
  exact ⟨e, hm, hs.users u hu e he⟩

theorem singleton_eraseDups {l : List UserId} (h : l.eraseDups = [u]) : u ∈ l :=
  List.mem_eraseDups.mp (h ▸ List.mem_singleton_self u)

theorem SignIn.read_sourced {t : SignIn} {phase : Phase} (h : t.read text db = .ok phase)
    (hs : EmailsSourced log db) (ht : t.ReadSourced text log) (hr : t.phase.Reads) :
    SignIn.ReadSourced text log { t with phase := phase } := by
  unfold SignIn.read at h
  unfold SignIn.ReadSourced at ht
  cases hp : t.phase with
  | begun | identityLocked =>
    simp only [hp] at h
    cases h
    trivial
  | locked =>
    simp only [hp] at h
    split at h <;> cases h <;> trivial
  | existing u =>
    simp only [hp, bind_ok, pure_ok] at h
    obtain ⟨_, _, _, _, rfl⟩ := h
    trivial
  | unknown =>
    simp only [hp] at h
    split at h
    · rw [found_ok h]
      trivial
    · rename_i hn
      cases h
      exact hn
    · cases h
      trivial
  | unmatched n =>
    simp only [hp] at h ht
    cases h
    exact ⟨ht, fun u hu => identityMatches_sourced hs hu⟩
  | identityMatched n ids =>
    simp only [hp] at h ht
    split at h
    · rename_i u hu
      have hmatch : SourcedMatch text log n u := by
        rcases List.mem_append.mp (singleton_eraseDups hu) with hm | hm
        · exact ht.2 u hm
        · obtain ⟨user, huser, rfl⟩ := List.mem_map.mp hm
          exact userMatches_sourced hs huser
      split at h
      · rename_i user huser
        rw [found_ok h]
        have hid : user.id = u := by simpa using List.find?_some huser
        exact ⟨n, ht.1, hid ▸ hmatch⟩
      · cases h
        exact ⟨n, ht.1, hmatch⟩
    · cases h
      trivial
  | candidate u =>
    simp only [hp] at h ht
    split at h
    · rename_i user huser
      rw [found_ok h]
      exact (hs.ok.userOf.mp huser).2.symm ▸ ht
    · cases h
      trivial
  | updating | resolved | committed => exact absurd hr (by simp [hp, Phase.Reads])

theorem Stepped.sourced (hc : Stepped text db t out) (hs : (sourced text).holds log db)
    (ht : t.ReadSourced text log) :
    (sourced text).holds (log ++ out.1.toList) out.2.2 ∧
      ∀ t' ∈ out.2.1, t'.ReadSourced text (log ++ out.1.toList) := by
  obtain ⟨hsrc, hjust⟩ := hs
  cases hc with
  | reads hr h =>
    simp only [Option.toList_none, List.append_nil]
    refine ⟨⟨hsrc, hjust⟩, fun t' ht' => ?_⟩
    obtain rfl := Option.some.inj ht'
    exact SignIn.read_sourced h hsrc ht hr
  | ends ha =>
    refine ⟨⟨hsrc.mono (List.subset_append_left _ _), hjust.concat fun i u r c he => ?_⟩, by simp⟩
    exact absurd he (ha _ _ _ _ _)
  | @writes w hw =>
    refine ⟨⟨hw.sourced (hsrc.mono (List.subset_append_left _ _)) (by simp), hjust.concat ?_⟩, ?_⟩
    · intro i u r c he
      cases hw with
      | touched => cases he
      | attached hp =>
        cases he
        rw [SignIn.ReadSourced, hp] at ht
        obtain ⟨n, hn, hm⟩ := ht
        exact hm.justified hn
      | created hp =>
        cases he
        rw [SignIn.ReadSourced, hp] at ht
        exact ht.elim
    · intro t' ht'
      obtain rfl := Option.some.inj ht'
      trivial

theorem sourced_inductive (text : EmailText) :
    (signIns text).Inductive (sourced text) fun _ _ => True where
  symm _ _ _ := trivial
  start _ _ _ _ _ := ⟨trivial, fun _ => trivial⟩
  step := by
    intro log s pid t hs _ _ ht _
    obtain ⟨hholds, hnext⟩ := (step_cases text s.store t).sourced hs.holds ht
    refine ⟨⟨hholds, fun q _ hq => hq.mono (List.subset_append_left _ _)⟩, fun t' ht' => ?_⟩
    exact ⟨hnext t' ht', fun _ _ _ _ => trivial⟩
  env := by
    intro log s change hs _
    obtain ⟨hsrc, hjust⟩ := hs.holds
    refine ⟨?_, fun q _ hq => hq.mono (List.subset_append_left _ _)⟩
    change (sourced text).holds (log ++ (adminChange s.store change).1.toList)
      (adminChange s.store change).2
    cases h : change.run s.store with
    | error e =>
      rw [adminChange, h]
      exact ⟨hsrc.mono (List.subset_append_left _ _), hjust.concat (by simp)⟩
    | ok out =>
      obtain ⟨answer, db'⟩ := out
      rw [adminChange, h]
      have hanswer : answer ∈ log ++ [answer] := by simp
      obtain ⟨hsrc', hne⟩ :=
        AdminChange.run_sourced h (hsrc.mono (List.subset_append_left _ _)) hanswer
      exact ⟨hsrc', hjust.concat fun i u r c he => absurd he (hne _ _ _ _ _)⟩

end Catalyst.Users
