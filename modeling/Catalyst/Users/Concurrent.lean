import Catalyst.Users.Linking

/-!
# Concurrent sign-ins

Between two changes of administrators only sign-ins go. Under its locks a
sign-in commits on the identity rows and the candidates it read, so one identity
keeps its user, and one e-mail that leads to at most one user leads all its
verified sign-ins to the same one.
-/

namespace Catalyst.Users

open Library Library.Check Library.Processes

-- -----------------
-- Locks
-- -----------------

def Apart (text : EmailText) (p q : SignIn) : Prop :=
  (p.HoldsIdentity → q.HoldsIdentity → p.input.key ≠ q.input.key) ∧
  (p.HoldsEmail → q.HoldsEmail → p.input.linkingEmail text ≠ none →
    p.input.linkingEmail text ≠ q.input.linkingEmail text)

theorem Apart.symm (h : Apart text p q) : Apart text q p :=
  ⟨fun hq hp he => h.1 hp hq he.symm, fun hq hp hn he => h.2 hp hq (he ▸ hn) he.symm⟩

theorem Apart.start (text : EmailText) (input : ResolveUserIdentityInput) (q : SignIn) :
    Apart text ⟨input, .begun⟩ q :=
  ⟨fun h _ => absurd rfl h.1, fun h _ => absurd rfl h.1.1⟩

theorem SignIn.read_phase {t : SignIn} {phase : Phase} (h : t.read text db = .ok phase)
    (hr : t.phase.Reads) :
    (t.phase = .begun ∧ phase = .identityLocked) ∨ (t.phase = .identityLocked ∧ phase = .locked) ∨
      t.HoldsEmail := by
  unfold SignIn.read at h
  cases hp : t.phase with
  | begun =>
    simp only [hp, Except.ok.injEq] at h
    exact .inl ⟨rfl, h.symm⟩
  | identityLocked =>
    simp only [hp, Except.ok.injEq] at h
    exact .inr (.inl ⟨rfl, h.symm⟩)
  | committed u => exact absurd hr (by simp [hp, Phase.Reads])
  | _ => exact .inr (.inr ⟨⟨by simp [hp], by simp [hp]⟩, by simp [hp]⟩)

theorem Stepped.apart (hc : Stepped text db t out) (ha : Apart text t q)
    (hb : ¬ SignIn.blocks text q t) : ∀ t' ∈ out.2.1, Apart text t' q := by
  intro t' ht'
  cases hc with
  | ends => cases ht'
  | writes =>
    obtain rfl := Option.some.inj ht'
    exact ⟨fun h _ => absurd rfl (h.2 _), fun h _ => absurd rfl (h.1.2 _)⟩
  | reads hr h =>
    obtain rfl := Option.some.inj ht'
    rcases SignIn.read_phase h hr with ⟨hp, rfl⟩ | ⟨hp, rfl⟩ | hold
    · refine ⟨fun _ hq he => hb (.inl ⟨hp, hq, he.symm⟩), fun h _ => absurd rfl h.2⟩
    · have hid : t.HoldsIdentity := ⟨by simp [hp], by simp [hp]⟩
      exact ⟨fun _ hq => ha.1 hid hq, fun _ hq hn he => hb (.inr ⟨hp, hq, hn, he.symm⟩)⟩
    · exact ⟨fun _ hq => ha.1 hold.1 hq, fun _ hq hn => ha.2 hold hq hn⟩

theorem Wrote.holds (hw : Wrote db t w) : t.HoldsEmail := by
  cases hw with
  | touched hp | attached hp | created hp => exact ⟨⟨by simp [hp], by simp [hp]⟩, by simp [hp]⟩

def HasIdentity (db : Db) (key : IdentityKey) (userId : UserId) : Prop :=
  ∃ r ∈ db.identities, r.key = key ∧ r.userId = userId

def SignIn.KnowsIdentity (db : Db) (t : SignIn) : Prop :=
  match t.phase with
  | .existing u | .updating u => HasIdentity db t.input.key u
  | .unknown | .unmatched _ | .identityMatched _ _ | .candidate _ | .resolved _ _ =>
    ∀ r ∈ db.identities, r.key ≠ t.input.key
  | _ => True

def SignedInTo (log : List Answer) (db : Db) : Prop :=
  ∀ input userId r linked created, .signedIn input userId r linked created ∈ log →
    HasIdentity db input.key userId

def known (text : EmailText) : Assertions Db SignIn Answer where
  holds log db := db.Ok ∧ SignedInTo log db
  relies _ db t := t.KnowsIdentity db
  apart := Apart text

def SignInsOnly (_ : Pool Db SignIn) : Move ResolveUserIdentityInput AdminChange → Prop
  | .env _ => False
  | _ => True

theorem Wrote.mem_other (hw : Wrote db t w) (hk : r.key ≠ t.input.key) :
    r ∈ w.db.identities ↔ r ∈ db.identities := by
  cases hw with
  | touched =>
    rw [mem_touchIdentity]
    constructor
    · rintro ⟨x, hx, rfl⟩
      split at hk
      · rename_i hxk
        exact absurd hxk hk
      · rename_i hxk
        rwa [if_neg hxk]
    · intro hr
      exact ⟨r, hr, by rw [if_neg hk]⟩
  | attached | created =>
    rw [mem_attachIdentity]
    constructor
    · rintro (rfl | hr)
      · exact absurd rfl hk
      · exact hr.1
    · intro hr
      exact .inr ⟨hr, hk⟩

theorem Wrote.hasIdentity_other (hw : Wrote db t w) (hk : key ≠ t.input.key) :
    HasIdentity w.db key u ↔ HasIdentity db key u := by
  refine exists_congr fun r => ?_
  constructor
  · rintro ⟨hr, rfl, hu⟩
    exact ⟨(hw.mem_other hk).mp hr, rfl, hu⟩
  · rintro ⟨hr, rfl, hu⟩
    exact ⟨(hw.mem_other hk).mpr hr, rfl, hu⟩

theorem Wrote.hasIdentity_own (hw : Wrote db t w) (hknow : t.KnowsIdentity db) :
    HasIdentity w.db t.input.key w.userId := by
  unfold SignIn.KnowsIdentity at hknow
  cases hw with
  | touched hp =>
    rw [hp] at hknow
    obtain ⟨r, hr, hk, hu⟩ := hknow
    exact ⟨t.input.touch r, mem_touchIdentity.mpr ⟨r, hr, by rw [if_pos hk]⟩, hk, hu⟩
  | attached | created => exact ⟨_, mem_attachIdentity.mpr (.inl rfl), rfl, rfl⟩

theorem Wrote.hasIdentity_mono (hw : Wrote db t w) (hknow : t.KnowsIdentity db)
    (h : HasIdentity db key u) : HasIdentity w.db key u := by
  by_cases hk : key = t.input.key
  · unfold SignIn.KnowsIdentity at hknow
    obtain ⟨r, hr, hrk, hu⟩ := h
    cases hw with
    | touched hp =>
      have hrt : r.key = t.input.key := hrk.trans hk
      exact ⟨t.input.touch r, mem_touchIdentity.mpr ⟨r, hr, by rw [if_pos hrt]⟩, hrk, hu⟩
    | attached hp | created hp =>
      rw [hp] at hknow
      exact absurd (hrk.trans hk) (hknow r hr)
  · exact (hw.hasIdentity_other hk).mpr h

theorem SignIn.KnowsIdentity.other {q : SignIn} (hw : Wrote db t w) (ha : Apart text t q)
    (hq : q.KnowsIdentity db) : q.KnowsIdentity w.db := by
  have hne : q.HoldsIdentity → q.input.key ≠ t.input.key := fun hold =>
    (ha.1 hw.holds.1 hold).symm
  unfold SignIn.KnowsIdentity at *
  cases hp : q.phase with
  | existing u | updating u =>
    rw [hp] at hq
    exact (hw.hasIdentity_other (hne ⟨by simp [hp], by simp [hp]⟩)).mpr hq
  | begun | identityLocked | locked | committed => trivial
  | _ =>
    rw [hp] at hq
    intro r hr hk
    have hrk : r.key ≠ t.input.key := hk ▸ hne ⟨by simp [hp], by simp [hp]⟩
    exact hq r ((hw.mem_other hrk).mp hr) hk

theorem SignIn.read_known {t : SignIn} {phase : Phase} (h : t.read text db = .ok phase)
    (hd : db.Ok) (ht : t.KnowsIdentity db) (hr : t.phase.Reads) :
    SignIn.KnowsIdentity db { t with phase := phase } := by
  unfold SignIn.read at h
  unfold SignIn.KnowsIdentity at ht
  cases hp : t.phase with
  | begun | identityLocked =>
    simp only [hp] at h
    cases h
    trivial
  | locked =>
    simp only [hp] at h
    split at h
    · rename_i r hr
      cases h
      exact ⟨r, (hd.identityOf.mp hr).1, (hd.identityOf.mp hr).2, rfl⟩
    · rename_i hr
      cases h
      exact find?_key_eq_none.mp hr
  | existing u =>
    simp only [hp, bind_ok, pure_ok] at h ht
    obtain ⟨_, _, _, _, rfl⟩ := h
    exact ht
  | unknown =>
    simp only [hp] at h ht
    split at h
    · rw [found_ok h]
      exact ht
    · cases h
      exact ht
    · cases h
      exact ht
  | unmatched n =>
    simp only [hp] at h ht
    cases h
    exact ht
  | identityMatched n ids =>
    simp only [hp] at h ht
    split at h
    · split at h
      · rw [found_ok h]
        exact ht
      · cases h
        exact ht
    · cases h
      exact ht
  | candidate u =>
    simp only [hp] at h ht
    split at h
    · rw [found_ok h]
      exact ht
    · cases h
      exact ht
  | updating | resolved | committed => exact absurd hr (by simp [hp, Phase.Reads])

theorem SignedInTo.write (hw : Wrote db t w) (hknow : t.KnowsIdentity db) (h : SignedInTo log db) :
    SignedInTo (log ++ [.signedIn t.input w.userId w.identity w.linked w.created]) w.db := by
  intro input u r l c hm
  rcases List.mem_append.mp hm with hm | hm
  · exact hw.hasIdentity_mono hknow (h input u r l c hm)
  · cases List.mem_singleton.mp hm
    exact hw.hasIdentity_own hknow

theorem SignedInTo.concat {answer : Answer} (h : SignedInTo log db)
    (ha : ∀ i u r l c, answer ≠ .signedIn i u r l c) : SignedInTo (log ++ [answer]) db := by
  intro input u r l c hm
  rcases List.mem_append.mp hm with hm | hm
  · exact h input u r l c hm
  · exact absurd (List.mem_singleton.mp hm).symm (ha _ _ _ _ _)

theorem Stepped.known (hc : Stepped text db t out) (hs : (known text).holds log db)
    (ht : t.KnowsIdentity db) :
    (Users.known text).Keeps log db (Apart text t) out.1 out.2.2 ∧
      ∀ t' ∈ out.2.1, t'.KnowsIdentity out.2.2 := by
  obtain ⟨hd, hlog⟩ := hs
  cases hc with
  | reads hr h =>
    simp only [Option.mem_def, Option.some.injEq, forall_eq']
    refine ⟨⟨?_, fun q _ hq => hq⟩, SignIn.read_known h hd ht hr⟩
    simpa using ⟨hd, hlog⟩
  | ends ha =>
    exact ⟨⟨⟨hd, SignedInTo.concat hlog ha⟩, fun q _ hq => hq⟩, by simp⟩
  | writes hw =>
    simp only [Option.mem_def, Option.some.injEq, forall_eq']
    exact ⟨⟨⟨hw.ok hd, SignedInTo.write hw ht hlog⟩, fun q ha hq => hq.other hw ha⟩, trivial⟩

theorem known_inductive (text : EmailText) : (signIns text).Inductive (known text) SignInsOnly where
  symm _ _ h := h.symm
  start _ _ input _ _ := ⟨trivial, Apart.start text input⟩
  step := by
    intro log s pid t hs _ _ ht _
    have hc := step_cases text s.store t
    obtain ⟨hkeeps, hnext⟩ := hc.known hs.holds ht
    exact ⟨hkeeps.mono fun _ hq => hq.1, fun t' ht' => ⟨hnext t' ht', fun q _ ha hb => hc.apart ha hb t' ht'⟩⟩
  env _ _ _ _ h := h.elim

-- -----------------
-- One e-mail
-- -----------------

def UserIdentity.Matches (text : EmailText) (email : String) (r : UserIdentity) : Prop :=
  r.emailVerified = true ∧ r.email.map text.lower = some email

def IdentityCandidate (text : EmailText) (db : Db) (email : String) (userId : UserId) : Prop :=
  ∃ r ∈ db.identities, r.Matches text email ∧ r.userId = userId

/-- The users `findSingleUserByVerifiedEmail` finds. -/
def Candidate (text : EmailText) (db : Db) (email : String) (userId : UserId) : Prop :=
  IdentityCandidate text db email userId ∨
    ∃ u ∈ db.users, u.email.map text.lower = some email ∧ u.id = userId

def OneCandidate (text : EmailText) (db : Db) (email : String) : Prop :=
  ∀ u v, Candidate text db email u → Candidate text db email v → u = v

def ResolveUserIdentityInput.Carries (text : EmailText) (email : String)
    (input : ResolveUserIdentityInput) : Prop :=
  input.email.map text.lower = some email ∨ input.email.map text.normalize = some email

def ResolveUserIdentityInput.Clean (text : EmailText) (email : String)
    (input : ResolveUserIdentityInput) : Prop :=
  input.Carries text email →
    input.linkingEmail text = some email ∧ input.email.map text.lower = some email

/-- The step of the sign-in goes by no user of its own where it may link by the e-mail, and gives
a known identity neither the e-mail nor takes it away. -/
def SignIn.Leaves (text : EmailText) (db : Db) (email : String) (t : SignIn) : Prop :=
  (t.phase = .unknown → t.input.linkingEmail text = some email →
    t.input.sourceUserId.bind db.userOf = none) ∧
  (∀ u r, t.phase = .updating u → db.identityOf t.input.key = some r →
    (t.input.email.map text.lower = some email ↔ r.Matches text email))

/-- Only sign-ins go, and they leave the e-mail to those that may link by it. -/
def Undisturbed (text : EmailText) (email : String) (s : Pool Db SignIn) :
    Move ResolveUserIdentityInput AdminChange → Prop
  | .start input => input.Clean text email
  | .advance pid => ∀ t ∈ s.at? pid, t.Leaves text s.store email
  | .abort _ => True
  | .env _ => False

theorem mem_identityMatches :
    u ∈ identityMatches text db email ↔ IdentityCandidate text db email u := by
  simp only [identityMatches, List.mem_map, List.mem_filter, decide_eq_true_eq, and_assoc,
    IdentityCandidate, UserIdentity.Matches]

theorem mem_userMatches : u ∈ userMatches text db email ↔
    u ∈ db.users ∧ u.email.map text.lower = some email := by
  simp only [userMatches, List.mem_filter, decide_eq_true_eq]

/-- What a sign-in that may link by the e-mail has read about it. -/
def SignIn.KnowsCandidates (text : EmailText) (db : Db) (email : String) (t : SignIn) : Prop :=
  match t.phase with
  | .unmatched n => t.input.linkingEmail text = some n
  | .identityMatched n ids => t.input.linkingEmail text = some n ∧
    (n = email → ∀ u, u ∈ ids ↔ IdentityCandidate text db email u)
  | .candidate u | .resolved (some u) _ =>
    t.input.linkingEmail text = some email → Candidate text db email u
  | .resolved none _ =>
    t.input.linkingEmail text = some email → ∀ u, ¬ Candidate text db email u
  | _ => True

def candidates (text : EmailText) (email : String) : Assertions Db SignIn Answer where
  holds log db := OneCandidate text db email ∧
    ∀ input userId r linked created, .signedIn input userId r linked created ∈ log →
      input.linkingEmail text = some email → Candidate text db email userId
  relies _ db t := t.input.Clean text email ∧ t.KnowsCandidates text db email
  apart := Apart text

theorem ResolveUserIdentityInput.Clean.matches_iff {input : ResolveUserIdentityInput}
    (hc : input.Clean text n) (k : IdentityKey) (u : UserId) :
    UserIdentity.Matches text n ⟨k, u, input.email, input.emailVerified⟩ ↔
      input.email.map text.lower = some n := by
  constructor
  · exact And.right
  · intro h
    exact ⟨(linkingEmail_eq_some (hc (.inl h)).1).2.1, h⟩

theorem touchIdentity_candidates (hd : db.Ok) (hr : db.identityOf input.key = some r)
    (hc : input.Clean text n)
    (hiff : input.email.map text.lower = some n ↔ r.Matches text n) :
    IdentityCandidate text (touchIdentity input db) n u ↔ IdentityCandidate text db n u := by
  obtain ⟨hr, hk⟩ := hd.identityOf.mp hr
  have hrow : ∀ x ∈ db.identities, ((if x.key = input.key then input.touch x else x).Matches text n ↔
      x.Matches text n) := by
    intro x hx
    by_cases hxk : x.key = input.key
    · obtain rfl : x = r := eq_of_key hd.keys_nodup hx hr (hxk.trans hk.symm)
      rw [if_pos hxk, ← hiff]
      exact hc.matches_iff _ _
    · rw [if_neg hxk]
  have huser : ∀ x : UserIdentity, (if x.key = input.key then input.touch x else x).userId = x.userId := by
    intro x
    split <;> rfl
  constructor
  · rintro ⟨r', hr', hm, hu⟩
    obtain ⟨x, hx, rfl⟩ := mem_touchIdentity.mp hr'
    exact ⟨x, hx, (hrow x hx).mp hm, (huser x).symm.trans hu⟩
  · rintro ⟨x, hx, hm, hu⟩
    exact ⟨_, mem_touchIdentity.mpr ⟨x, hx, rfl⟩, (hrow x hx).mpr hm, (huser x).trans hu⟩

theorem attachIdentity_candidates {t : SignIn} (hnew : ∀ r ∈ db.identities, r.key ≠ t.input.key)
    (hc : t.input.Clean text n) :
    IdentityCandidate text (attachIdentity t v db) n u ↔
      IdentityCandidate text db n u ∨ (t.input.email.map text.lower = some n ∧ v = u) := by
  constructor
  · rintro ⟨r, hr, hm, hu⟩
    rcases mem_attachIdentity.mp hr with rfl | ⟨hr, _⟩
    · exact .inr ⟨(hc.matches_iff _ _).mp hm, hu⟩
    · exact .inl ⟨r, hr, hm, hu⟩
  · rintro (⟨r, hr, hm, hu⟩ | ⟨he, rfl⟩)
    · exact ⟨r, mem_attachIdentity.mpr (.inr ⟨hr, hnew r hr⟩), hm, hu⟩
    · exact ⟨_, mem_attachIdentity.mpr (.inl rfl), (hc.matches_iff _ _).mpr he, rfl⟩

/-- How a write moves the candidates: only one that carries the e-mail adds its own user. -/
theorem Wrote.candidates (hw : Wrote db t w) (hd : db.Ok) (hknow : t.KnowsIdentity db)
    (hc : t.input.Clean text n) (hl : t.Leaves text db n) :
    (t.input.linkingEmail text ≠ some n →
      ∀ u, (IdentityCandidate text w.db n u ↔ IdentityCandidate text db n u) ∧
        (Candidate text w.db n u ↔ Candidate text db n u)) ∧
    (t.input.linkingEmail text = some n → t.KnowsCandidates text db n →
      ∀ u, Candidate text w.db n u ↔ Candidate text db n u ∨ u = w.userId) := by
  have hnot : t.input.linkingEmail text ≠ some n → t.input.email.map text.lower ≠ some n :=
    fun hne he => hne (hc (.inl he)).1
  have hcarry : t.input.linkingEmail text = some n → t.input.email.map text.lower = some n :=
    fun h => (hc (.inr (linkingEmail_eq_some h).2.2)).2
  unfold SignIn.KnowsIdentity at hknow
  cases hw with
  | @touched v r hp hr =>
    have hsame : ∀ u, IdentityCandidate text (touchIdentity t.input db) n u ↔
        IdentityCandidate text db n u := fun u => touchIdentity_candidates hd hr hc (hl.2 v r hp hr)
    refine ⟨fun _ u => ⟨hsame u, or_congr_left (hsame u)⟩, fun h _ u => ?_⟩
    rw [hp] at hknow
    obtain ⟨x, hx, hk, rfl⟩ := hknow
    obtain rfl : r = x := eq_of_key hd.keys_nodup (hd.identityOf.mp hr).1 hx
      ((hd.identityOf.mp hr).2.trans hk.symm)
    have hown : Candidate text db n r.userId :=
      .inl ⟨r, hx, (hl.2 _ r hp hr).mp (hcarry h), rfl⟩
    refine (or_congr_left (hsame u)).trans ⟨.inl, ?_⟩
    rintro (hu | rfl)
    · exact hu
    · exact hown
  | @attached v linked row hp hv =>
    rw [hp] at hknow
    refine ⟨fun h u => ?_, fun h hcand u => ?_⟩
    · have hid := attachIdentity_candidates (v := v) (u := u) hknow hc
      simp only [hnot h, false_and, or_false] at hid
      exact ⟨hid, or_congr_left hid⟩
    · refine (or_congr_left (attachIdentity_candidates hknow hc)).trans ?_
      simp only [hcarry h, true_and, eq_comm (a := v)]
      exact or_right_comm
  | @created linked hp =>
    rw [hp] at hknow
    have hid : ∀ u, IdentityCandidate text
        (attachIdentity t db.fresh (createUser t.input.email .active db)) n u ↔
        IdentityCandidate text db n u ∨ (t.input.email.map text.lower = some n ∧ db.fresh = u) :=
      fun u => attachIdentity_candidates hknow hc
    have husers : ∀ u, (∃ x ∈ (createUser t.input.email .active db).users,
        x.email.map text.lower = some n ∧ x.id = u) ↔
        (∃ x ∈ db.users, x.email.map text.lower = some n ∧ x.id = u) ∨
          (t.input.email.map text.lower = some n ∧ db.fresh = u) := by
      intro u
      simp only [createUser, List.mem_cons, exists_eq_or_imp]
      exact or_comm
    refine ⟨fun h u => ?_, fun h _ u => ?_⟩
    · have hid' := hid u
      have husers' := husers u
      simp only [hnot h, false_and, or_false] at hid' husers'
      exact ⟨hid', or_congr hid' husers'⟩
    · refine (or_congr (hid u) (husers u)).trans ?_
      simp only [hcarry h, true_and, eq_comm (a := db.fresh)]
      exact or_or_distrib_right.symm

theorem Candidate.userOf (hd : db.Ok) (h : Candidate text db n u) : db.userOf u ≠ none := by
  rcases h with ⟨r, hr, _, rfl⟩ | ⟨x, hx, _, rfl⟩
  · exact hd.userOf_ne_none hr
  · simp [hd.userOf.mpr ⟨hx, rfl⟩]

theorem mem_candidateIds (hids : ∀ u, u ∈ ids ↔ IdentityCandidate text db n u) :
    u ∈ (ids ++ (userMatches text db n).map (·.id)).eraseDups ↔ Candidate text db n u := by
  rw [List.mem_eraseDups, List.mem_append, hids, List.mem_map]
  refine or_congr_right (exists_congr fun x => ?_)
  rw [mem_userMatches, and_assoc]

theorem eq_nil_of_not_singleton {l : List UserId} (h1 : ∀ u ∈ l.eraseDups, ∀ v ∈ l.eraseDups, u = v)
    (h : ∀ u, l.eraseDups ≠ [u]) : l.eraseDups = [] := by
  cases hl : l.eraseDups with
  | nil => rfl
  | cons a rest =>
    cases rest with
    | nil => exact absurd hl (h a)
    | cons b rest =>
      have hn := nodup_eraseDups l
      rw [hl] at h1 hn
      have hab : a = b := h1 a (by simp) b (by simp)
      exact absurd hn (by simp [hab])

theorem SignIn.read_candidates {t : SignIn} {phase : Phase} (h : t.read text db = .ok phase)
    (hd : db.Ok) (hone : OneCandidate text db n) (ht : t.KnowsCandidates text db n)
    (hl : t.Leaves text db n) (hr : t.phase.Reads) :
    SignIn.KnowsCandidates text db n { t with phase := phase } := by
  unfold SignIn.read at h
  unfold SignIn.KnowsCandidates at ht
  cases hp : t.phase with
  | begun | identityLocked =>
    simp only [hp] at h
    cases h
    trivial
  | locked =>
    simp only [hp] at h
    split at h <;> cases h <;> trivial
  | existing u =>
    simp only [hp, bind_ok, pure_ok] at h
    obtain ⟨_, _, _, _, rfl⟩ := h
    trivial
  | unknown =>
    simp only [hp] at h
    split at h
    · rename_i hsource
      rw [found_ok h]
      intro hn
      rw [hl.1 hp hn] at hsource
      cases hsource
    · rename_i hlink
      cases h
      exact hlink
    · rename_i hlink
      cases h
      intro hn
      exact absurd (hlink.symm.trans hn) (by simp)
  | unmatched m =>
    simp only [hp] at h ht
    cases h
    refine ⟨ht, ?_⟩
    rintro rfl u
    exact mem_identityMatches
  | identityMatched m ids =>
    simp only [hp] at h ht
    obtain ⟨hm, hids⟩ := ht
    have hmem : t.input.linkingEmail text = some n → ∀ u,
        u ∈ (ids ++ (userMatches text db m).map (·.id)).eraseDups ↔ Candidate text db n u := by
      intro hn u
      obtain rfl := Option.some.inj (hm.symm.trans hn)
      exact mem_candidateIds (hids rfl)
    split at h
    · rename_i v hv
      have hcand : t.input.linkingEmail text = some n → Candidate text db n v := fun hn =>
        (hmem hn v).mp (by rw [hv]; simp)
      split at h
      · rename_i user huser
        have hid : user.id = v := by simpa using List.find?_some huser
        rw [found_ok h, hid]
        exact hcand
      · cases h
        exact hcand
    · rename_i hv
      cases h
      intro hn u hu
      have hnil := eq_nil_of_not_singleton
        (fun a ha b hb => hone a b ((hmem hn a).mp ha) ((hmem hn b).mp hb)) hv
      have hu' := (hmem hn u).mpr hu
      rw [hnil] at hu'
      cases hu'
  | candidate v =>
    simp only [hp] at h ht
    split at h
    · rename_i user huser
      rw [found_ok h, (hd.userOf.mp huser).2]
      exact ht
    · rename_i hnone
      cases h
      intro hn
      exact absurd hnone ((ht hn).userOf hd)
  | updating | resolved | committed => exact absurd hr (by simp [hp, Phase.Reads])

/-- What a sign-in has read about its e-mail, another one with another e-mail does not change. -/
theorem SignIn.KnowsCandidates.other {q : SignIn} (hw : Wrote db t w) (ha : Apart text t q)
    (hsame : t.input.linkingEmail text ≠ some n →
      ∀ u, (IdentityCandidate text w.db n u ↔ IdentityCandidate text db n u) ∧
        (Candidate text w.db n u ↔ Candidate text db n u))
    (hq : q.KnowsCandidates text db n) : q.KnowsCandidates text w.db n := by
  have hne : q.HoldsEmail → q.input.linkingEmail text = some n →
      t.input.linkingEmail text ≠ some n := fun hold hqn htn =>
    ha.2 hw.holds hold (by simp [htn]) (htn.trans hqn.symm)
  unfold SignIn.KnowsCandidates at *
  cases hp : q.phase with
  | begun | identityLocked | locked | existing | updating | unknown | committed => trivial
  | unmatched m =>
    rw [hp] at hq
    exact hq
  | identityMatched m ids =>
    rw [hp] at hq
    refine ⟨hq.1, fun hm u => ?_⟩
    have hn := hsame (hne ⟨⟨by simp [hp], by simp [hp]⟩, by simp [hp]⟩ (hm ▸ hq.1))
    exact (hq.2 hm u).trans (hn u).1.symm
  | candidate v =>
    rw [hp] at hq
    intro hqn
    exact (hsame (hne ⟨⟨by simp [hp], by simp [hp]⟩, by simp [hp]⟩ hqn) v).2.mpr (hq hqn)
  | resolved user linked =>
    rw [hp] at hq
    have hold : q.HoldsEmail := ⟨⟨by simp [hp], by simp [hp]⟩, by simp [hp]⟩
    cases user with
    | some v =>
      intro hqn
      exact (hsame (hne hold hqn) v).2.mpr (hq hqn)
    | none =>
      intro hqn v hv
      exact hq hqn v ((hsame (hne hold hqn) v).2.mp hv)

/-- A write adds the user it answers only where it is the candidate or there is none. -/
theorem Wrote.oneCandidate (hw : Wrote db t w) (hd : db.Ok) (hknow : t.KnowsIdentity db)
    (hc : t.input.Clean text n) (hl : t.Leaves text db n) (ht : t.KnowsCandidates text db n)
    (hone : OneCandidate text db n) :
    OneCandidate text w.db n ∧ (∀ u, Candidate text db n u → Candidate text w.db n u) ∧
      (t.input.linkingEmail text = some n → Candidate text w.db n w.userId) := by
  obtain ⟨hother, hown⟩ := hw.candidates hd hknow hc hl
  by_cases hn : t.input.linkingEmail text = some n
  · have hmem := hown hn ht
    have huser : ∀ u, Candidate text db n u → u = w.userId := by
      intro u hu
      unfold SignIn.KnowsIdentity at hknow
      unfold SignIn.KnowsCandidates at ht
      cases hw with
      | @touched v r hp hr =>
        rw [hp] at hknow
        obtain ⟨x, hx, hk, rfl⟩ := hknow
        obtain rfl : r = x := eq_of_key hd.keys_nodup (hd.identityOf.mp hr).1 hx
          ((hd.identityOf.mp hr).2.trans hk.symm)
        have hlower := (hc (.inr (linkingEmail_eq_some hn).2.2)).2
        exact hone u _ hu (.inl ⟨r, hx, (hl.2 _ r hp hr).mp hlower, rfl⟩)
      | @attached v linked row hp hv =>
        rw [hp] at ht
        exact hone u v hu (ht hn)
      | created hp =>
        rw [hp] at ht
        exact absurd hu (ht hn u)
    have hall : ∀ u, Candidate text w.db n u → u = w.userId := fun u hu =>
      ((hmem u).mp hu).elim (huser u) id
    exact ⟨fun u v hu hv => (hall u hu).trans (hall v hv).symm,
      fun u hu => (hmem u).mpr (.inl hu), fun _ => (hmem _).mpr (.inr rfl)⟩
  · have hsame := fun u => (hother hn u).2
    exact ⟨fun u v hu hv => hone u v ((hsame u).mp hu) ((hsame v).mp hv),
      fun u hu => (hsame u).mpr hu, fun h => absurd h hn⟩

theorem Stepped.candidates (hc : Stepped text db t out) (hs : (candidates text n).holds log db)
    (hd : db.Ok) (hknow : t.KnowsIdentity db) (hl : t.Leaves text db n)
    (ht : (candidates text n).relies log db t) :
    (Users.candidates text n).Keeps log db (Apart text t) out.1 out.2.2 ∧
      ∀ t' ∈ out.2.1, t'.input.Clean text n ∧ t'.KnowsCandidates text out.2.2 n := by
  obtain ⟨hone, hlog⟩ := hs
  obtain ⟨hclean, ht⟩ := ht
  cases hc with
  | reads hr h =>
    simp only [Option.mem_def, Option.some.injEq, forall_eq']
    refine ⟨⟨?_, fun q _ hq => hq⟩, hclean, SignIn.read_candidates h hd hone ht hl hr⟩
    simpa using ⟨hone, hlog⟩
  | ends ha =>
    refine ⟨⟨⟨hone, fun i u r l c hm => ?_⟩, fun q _ hq => hq⟩, by simp⟩
    rcases List.mem_append.mp hm with hm | hm
    · exact hlog i u r l c hm
    · exact absurd (List.mem_singleton.mp hm).symm (ha _ _ _ _ _)
  | @writes w hw =>
    simp only [Option.mem_def, Option.some.injEq, forall_eq']
    obtain ⟨hone', hmono, hown⟩ := hw.oneCandidate hd hknow hclean hl ht hone
    have hother := (hw.candidates hd hknow hclean hl).1
    refine ⟨⟨⟨hone', fun i u r l c hm hn => ?_⟩, fun q ha hq => ⟨hq.1, hq.2.other hw ha hother⟩⟩,
      hclean, trivial⟩
    rcases List.mem_append.mp hm with hm | hm
    · exact hmono u (hlog i u r l c hm hn)
    · cases List.mem_singleton.mp hm
      exact hown hn

theorem candidates_inductive (text : EmailText) (n : String) :
    (signIns text).Inductive (candidates text n) fun s a =>
      Undisturbed text n s a ∧ ∃ log, (known text).Ok log s where
  symm _ _ h := h.symm
  start _ _ input _ ha := ⟨⟨ha.1, trivial⟩, Apart.start text input⟩
  step := by
    intro log s pid t hs ⟨ha, log', hknown⟩ hat ht _
    have hc := step_cases text s.store t
    obtain ⟨hkeeps, hnext⟩ := hc.candidates hs.holds hknown.holds.1
      (hknown.relies _ (at?_mem hat)) (ha t hat) ht
    exact ⟨hkeeps.mono fun _ hq => hq.1, fun t' ht' => ⟨hnext t' ht', fun q _ ha hb => hc.apart ha hb t' ht'⟩⟩
  env _ _ _ _ h := h.1.elim

def WentTo (log : List Answer) (input : ResolveUserIdentityInput) (userId : UserId) : Prop :=
  ∃ r linked created, .signedIn input userId r linked created ∈ log

/-- What holds of a history of sign-ins and changes that ends in `s`, and of every run of
concurrent sign-ins that begins there. -/
structure SignInsSound (text : EmailText) (log : List Answer) (s : Pool Db SignIn) : Prop where
  links : LinksJustified text log
  one_row : (s.store.identities.map (·.key)).Nodup
  one_user : ∀ r ∈ s.store.identities, ∃ u ∈ s.store.users, u.id = r.userId
  same_identity : s.running = [] → ∀ h t,
    ((signIns text).machine Db.Empty SignInsOnly).Run s h t →
    ∀ i j u v, WentTo (answers h) i u → WentTo (answers h) j v → i.key = j.key → u = v
  same_email : ∀ n, s.running = [] → OneCandidate text s.store n → ∀ h t,
    ((signIns text).machine Db.Empty (Undisturbed text n)).Run s h t →
    ∀ i j u v, WentTo (answers h) i u → WentTo (answers h) j v →
      i.linkingEmail text = some n → j.linkingEmail text = some n → u = v

theorem sourced_empty (text : EmailText) (hs : (userSystem text).init s) :
    (sourced text).Ok [] s := by
  obtain ⟨⟨hu, hi⟩, hr, _⟩ := hs
  refine .of_idle hr ⟨⟨⟨?_, ?_, ?_, ?_⟩, ?_, ?_⟩, ?_⟩ <;> simp [hu, hi, LinksJustified]

theorem sign_ins_sound (hs : (userSystem text).init s₀) (hr : (userSystem text).Run s₀ h s) :
    SignInsSound text (answers h) s := by
  have hok := (sourced_inductive text).run_ok hr (sourced_empty text hs)
  rw [List.nil_append] at hok
  have hd : s.store.Ok := hok.holds.1.ok
  refine ⟨hok.holds.2, hd.keys_nodup, hd.owned, ?_, ?_⟩
  · intro hidle w t hw i j u v hi hj hk
    have hstart : (known text).Ok [] s := .of_idle hidle ⟨hd, by simp [SignedInTo]⟩
    have hend := (known_inductive text).run_ok hw hstart
    obtain ⟨_, _, _, hi⟩ := hi
    obtain ⟨_, _, _, hj⟩ := hj
    obtain ⟨r, hr, hrk, rfl⟩ := hend.holds.2 _ _ _ _ _ hi
    obtain ⟨r', hr', hrk', rfl⟩ := hend.holds.2 _ _ _ _ _ hj
    rw [eq_of_key hend.holds.1.keys_nodup hr hr' (by rw [hrk, hrk', hk])]
  · intro n hidle hone w t hw i j u v hi hj hin hjn
    have hstart : (known text).Ok [] s := .of_idle hidle ⟨hd, by simp [SignedInTo]⟩
    have hstart' : (candidates text n).Ok [] s := .of_idle hidle ⟨hone, by simp⟩
    have hknown : (signIns text).Inductive (known text) (Undisturbed text n) := by
      have hk := known_inductive text
      exact ⟨hk.symm, fun log s input hs _ => hk.start log s input hs trivial,
        fun log s pid t hs _ => hk.step log s pid t hs trivial, fun _ _ _ _ h => h.elim⟩
    have hend := (candidates_inductive text n).run_ok (hknown.run_of_ok hw hstart) hstart'
    obtain ⟨_, _, _, hi⟩ := hi
    obtain ⟨_, _, _, hj⟩ := hj
    exact hend.holds.1 u v (hend.holds.2 _ _ _ _ _ hi hin) (hend.holds.2 _ _ _ _ _ hj hjn)

namespace Example

def lower (e : List Char) : List Char := e.map Char.toLower

def trim (e : List Char) : List Char :=
  ((e.dropWhile (· = ' ')).reverse.dropWhile (· = ' ')).reverse

def text : EmailText where
  normalize e := String.ofList (lower (trim e.toList))
  lower e := String.ofList (lower e.toList)

def signIn (source externalUserId : String) : ResolveUserIdentityInput :=
  ⟨⟨source, externalUserId⟩, none, some "Jane@example.test", true, true⟩

def identity (source externalUserId : String) (userId : UserId) : UserIdentity :=
  ⟨⟨source, externalUserId⟩, userId, some "Jane@example.test", true⟩

def empty : Pool Db SignIn := ⟨⟨[], [], 0⟩, [], 0⟩

instance : Decidable ((signIns text).blocks q t) :=
  inferInstanceAs (Decidable (SignIn.blocks text q t))

instance : Decidable ((userSystem text).enabled s a) :=
  inferInstanceAs (Decidable (((signIns text).machine Db.Empty fun _ _ => True).enabled s a))

abbrev Moves := List (Move ResolveUserIdentityInput AdminChange)

def createJane : Moves := [.env (.createUser (some "jane@example.test") .active)]

def steps (pid n : Nat) : Moves := List.replicate n (.advance pid)

def ambiguous : Moves :=
  createJane ++ createJane ++ .start (signIn "a" "1") :: steps 0 7 ++
    .start (signIn "b" "2") :: steps 1 7

def concurrent : Moves :=
  createJane ++ .start (signIn "a" "1") :: .start (signIn "b" "2") :: steps 0 3 ++ steps 1 1 ++
    steps 0 4 ++ steps 1 6

def history (moves : Moves) : List Answer := answers ((userSystem text).history empty moves)

end Example

/-- Two verified sign-ins with an e-mail of two users go to neither and to two new ones. -/
theorem ambiguous_email_shares_no_user :
    (userSystem Example.text).init Example.empty ∧
      (userSystem Example.text).Run Example.empty
        ((userSystem Example.text).history Example.empty Example.ambiguous)
        ((userSystem Example.text).after Example.empty Example.ambiguous) ∧
      WentTo (Example.history Example.ambiguous) (Example.signIn "a" "1") 2 ∧
      WentTo (Example.history Example.ambiguous) (Example.signIn "b" "2") 3 ∧
      (Example.signIn "a" "1").linkingEmail Example.text = some "jane@example.test" ∧
      (Example.signIn "b" "2").linkingEmail Example.text = some "jane@example.test" := by
  have hrun : (userSystem Example.text).Allows Example.empty Example.ambiguous := by decide
  refine ⟨⟨⟨rfl, rfl⟩, rfl, rfl⟩, hrun.run, ⟨Example.identity "a" "1" 2, false, true, ?_⟩,
    ⟨Example.identity "b" "2" 3, false, true, ?_⟩, ?_, ?_⟩
  all_goals decide

theorem sign_ins_sound_concurrent :
    WentTo (Example.history Example.concurrent) (Example.signIn "a" "1") 0 ∧
      WentTo (Example.history Example.concurrent) (Example.signIn "b" "2") 0 ∧
      SignInsSound Example.text (Example.history Example.concurrent)
        ((userSystem Example.text).after Example.empty Example.concurrent) := by
  have hrun : (userSystem Example.text).Allows Example.empty Example.concurrent := by decide
  refine ⟨⟨Example.identity "a" "1" 0, true, false, ?_⟩, ⟨Example.identity "b" "2" 0, true, false, ?_⟩,
    sign_ins_sound ⟨⟨rfl, rfl⟩, rfl, rfl⟩ hrun.run⟩
  all_goals decide

end Catalyst.Users
