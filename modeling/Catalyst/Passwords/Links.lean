import Catalyst.Passwords.Model

/-!
# A link sets a password once

A link that may still be used is the last one issued, and no password was written after it
whose statement that deletes links is over. That is kept as long as calls that do not lock a
common row go one after the other where they clash.
-/

namespace Catalyst.Passwords

open Library Library.Processes

variable {db db' : Db} {g g' : Going} {log : List Answer} {token : Token} {x : Answer}
  {verifyPassword : Hash → String → Bool}

-- -----------------
-- What happened since a link was issued
-- -----------------

def Answer.Issues (token : Token) : Answer → Prop
  | issued t _ => t = token
  | _ => False

instance : DecidablePred (Answer.Issues token) := fun x => by
  unfold Answer.Issues
  split <;> infer_instance

def Answer.Completes (token : Token) : Answer → Prop
  | completed t _ _ => t = token
  | _ => False

instance : DecidablePred (Answer.Completes token) := fun x => by
  unfold Answer.Completes
  split <;> infer_instance

def Answer.Supersedes : Answer → Prop
  | issued _ _ | completed _ _ _ | wrote _ _ _ => True
  | _ => False

def since (token : Token) (log : List Answer) : List Answer := log.reverse.takeWhile fun x => ¬ x.Issues token

theorem since_append : since token (log ++ [x]) = if x.Issues token then [] else x :: since token log := by
  simp only [since, List.reverse_append, List.reverse_cons, List.reverse_nil, List.nil_append, List.singleton_append,
    List.takeWhile_cons]
  by_cases h : x.Issues token <;> simp [h]

theorem mem_since_append {y : Answer} (h : y ∈ since token (log ++ [x])) : y = x ∨ y ∈ since token log := by
  rw [since_append] at h
  split at h
  · cases h
  · exact List.mem_cons.mp h

def Fresh (log : List Answer) (token : Token) (expiresAt : Time) : Prop :=
  .issued token expiresAt ∈ log ∧ ∀ x ∈ since token log, ¬ x.Supersedes

def IssuedAfter (log : List Answer) (write : Nat) (link : Link) : Prop :=
  ∀ verified replaced, .wrote write verified replaced ∉ since link.token log

theorem Fresh.append (h : Fresh log token expiresAt) (hx : ¬ x.Supersedes) : Fresh (log ++ [x]) token expiresAt := by
  refine ⟨List.mem_append_left _ h.1, fun y hy => ?_⟩
  rcases mem_since_append hy with rfl | hy
  · exact hx
  · exact h.2 y hy

theorem IssuedAfter.append {link : Link} {write : Nat} (h : IssuedAfter log write link)
    (hx : ∀ verified replaced, x ≠ .wrote write verified replaced) : IssuedAfter (log ++ [x]) write link := by
  intro v r hy
  rcases mem_since_append hy with he | hy
  · exact hx v r he.symm
  · exact h v r hy

theorem issuedAfter_new (token : Token) (expiresAt : Time) (write : Nat) :
    IssuedAfter (log ++ [.issued token expiresAt]) write ⟨token, expiresAt⟩ := by
  have hnone : since token (log ++ [.issued token expiresAt]) = [] := by
    rw [since_append, if_pos (show Answer.Issues token (.issued token expiresAt) from rfl)]
  intro v r hy
  rw [hnone] at hy
  cases hy

def Going.lists? : Going → Option (List Token)
  | issuing _ (.deleting _ tokens) | issuing _ (.inserting _ tokens) => some tokens
  | _ => none

def Going.taken? : Going → Option Taken
  | completing _ _ (.taken t) | completing _ _ (.profiled t) | completing _ _ (.written t)
  | completing _ _ (.revoking t _) | completing _ _ (.revoked t _) | completing _ _ (.committing t _ _) => some t
  | _ => none

def Going.revokes? : Going → Option (List Nat)
  | completing _ _ (.committing _ _ sessions) => some sessions
  | _ => none

def Going.owes? : Going → Option Nat
  | changing _ _ (.outdating write) | changing _ _ (.erasing write _) => some write
  | _ => none

def Going.erases? : Going → Option (Nat × List Token)
  | changing _ _ (.erasing write tokens) => some (write, tokens)
  | _ => none

def Going.signsOut? : Going → Option Nat
  | changing _ _ (.signingOut write) => some write
  | _ => none

def Going.verified? : Going → Option Hash
  | changing _ _ (.writing verified) => verified
  | _ => none

/-- Where the first call stands, the second one should not go on. -/
def Going.Clashes (p : Going) : Going → Prop
  | issuing _ (.listing _) => p.lists?.isSome
  | completing _ _ .taking => p.owes?.isSome
  | completing _ _ (.committing _ _ _) => p.verified?.isSome
  | changing _ _ (.writing _) => p.taken?.isSome ∨ p.verified?.isSome
  | signingIn _ true => p.revokes?.isSome
  | _ => False

instance : Decidable (Going.Clashes p g) := by
  unfold Going.Clashes
  split <;> infer_instance

def Settles (s : PasswordPool) : PasswordMove → Prop
  | .abort pid => ∀ g ∈ s.at? pid, g.owes? = none
  | _ => True

instance : DecidablePred (Settles s)
  | .abort pid => inferInstanceAs (Decidable (∀ g ∈ s.at? pid, g.owes? = none))
  | .start _ | .advance _ | .env _ => .isTrue trivial

def Undisturbed (s : PasswordPool) (a : PasswordMove) : Prop := Clear Going.Clashes s a ∧ Settles s a

instance : DecidablePred (Undisturbed s) := fun _ => inferInstanceAs (Decidable (_ ∧ _))

def Answer.Leaves (owed : List Nat) : Answer → Prop
  | issued _ _ | completed _ _ _ => False
  | wrote write _ _ => write ∈ owed
  | _ => True

structure Db.Ok (log : List Answer) (db : Db) : Prop where
  single : db.links.length ≤ 1
  links : ∀ l ∈ db.links, .issued l.token l.expiresAt ∈ log ∧ ∀ x ∈ since l.token log, x.Leaves db.owed
  /-- A token is to be stored, or stored, or used up. -/
  once : ∀ t, log.countP (·.Completes t) + db.tokens.count t + (if db.nextToken ≤ t then 1 else 0) ≤ 1
  written : ∀ write v r, .wrote write v r ∈ log → write < db.writes
  completed : ∀ before t e c after, log = before ++ .completed t e c :: after → c < e ∧ Fresh before t e
  replaced : ∀ write v r, .wrote write (some v) r ∈ log → r = some v

structure Taken.Relies (log : List Answer) (db : Db) (t : Taken) : Prop where
  stored : t.link ∈ db.links
  valid : t.checkedAt < t.link.expiresAt
  fresh : Fresh log t.link.token t.link.expiresAt

structure Going.Relies (log : List Answer) (db : Db) (g : Going) : Prop where
  lists : ∀ tokens ∈ g.lists?, ∀ l ∈ db.links, l.token ∈ tokens
  taken : ∀ t ∈ g.taken?, t.Relies log db
  revokes : ∀ sessions ∈ g.revokes?, ∀ s ∈ db.sessions, s ∈ sessions
  verified : ∀ hash ∈ g.verified?, db.user = true → db.password = some hash
  owes : ∀ write ∈ g.owes?, write < db.writes
  erases : ∀ e ∈ g.erases?, ∀ l ∈ db.links, l.token ∉ e.2 → IssuedAfter log e.1 l
  signsOut : ∀ write ∈ g.signsOut?, write < db.writes ∧ ∀ l ∈ db.links, IssuedAfter log write l

structure Going.Apart (p q : Going) : Prop where
  issues : ¬ (p.lists?.isSome ∧ q.lists?.isSome)
  locks : ∀ row ∈ p.locks, row ∉ q.locks

def lastLink : Assertions Db Going Answer where
  holds := fun log db => db.Ok log
  relies log db g := g.Relies log db
  apart := Going.Apart

theorem erases_owes {e : Nat × List Token} (h : e ∈ g.erases?) : e.1 ∈ g.owes? := by
  unfold Going.erases? at h
  split at h
  · obtain rfl := Option.some.inj h
    rfl
  · cases h

theorem revokes_taken (h : sessions ∈ g.revokes?) : ∃ t, t ∈ g.taken? := by
  unfold Going.revokes? at h
  split at h
  · exact ⟨_, rfl⟩
  · cases h

theorem taken_locks {t : Taken} (h : t ∈ g.taken?) : .link t.link.token ∈ g.locks := by
  unfold Going.taken? at h
  split at h <;> first
    | obtain rfl := Option.some.inj h
      exact List.mem_cons_self
    | cases h

/-- What another call relies on is kept by a step that respects where it stands. -/
theorem Going.Relies.beside (hr : g.Relies log db) (hlists : g.lists?.isSome → ∀ l ∈ db'.links, l ∈ db.links)
    (htaken : ∀ t ∈ g.taken?, t.Relies log db → t.Relies log' db')
    (hsessions : g.revokes?.isSome → ∀ s ∈ db'.sessions, s ∈ db.sessions)
    (hverified : g.verified?.isSome → db'.user = true → db.user = true ∧ db'.password = db.password)
    (hwrites : db.writes ≤ db'.writes)
    (hafter : ∀ write < db.writes, ∀ l ∈ db'.links,
      IssuedAfter log' write l ∨ l ∈ db.links ∧ (IssuedAfter log write l → IssuedAfter log' write l)) :
    g.Relies log' db' where
  lists tokens ht l hl := hr.lists tokens ht l (hlists (Option.isSome_iff_exists.mpr ⟨_, ht⟩) l hl)
  taken t ht := htaken t ht (hr.taken t ht)
  revokes sessions hs s h := hr.revokes sessions hs s (hsessions (Option.isSome_iff_exists.mpr ⟨_, hs⟩) s h)
  verified hash hv hu := by
    obtain ⟨hu, he⟩ := hverified (Option.isSome_iff_exists.mpr ⟨_, hv⟩) hu
    exact he.trans (hr.verified hash hv hu)
  owes write hw := Nat.lt_of_lt_of_le (hr.owes write hw) hwrites
  erases e he l hl hn := by
    rcases hafter e.1 (hr.owes _ (erases_owes he)) l hl with h | ⟨hold, h⟩
    · exact h
    · exact h (hr.erases e he l hold hn)
  signsOut write hw := by
    obtain ⟨hlt, hall⟩ := hr.signsOut write hw
    refine ⟨Nat.lt_of_lt_of_le hlt hwrites, fun l hl => ?_⟩
    rcases hafter write hlt l hl with h | ⟨hold, h⟩
    · exact h
    · exact h (hall l hold)

structure StepOk (log : List Answer) (db : Db) (g : Going) (r : StepResult) : Prop where
  holds : r.2.2.Ok (log ++ r.1.toList)
  others : ∀ q : Going, g.Apart q → ¬ (∃ row ∈ q.locks, row ∈ g.wants) → ¬ q.Clashes g → q.Relies log db →
    q.Relies (log ++ r.1.toList) r.2.2
  next : ∀ g' ∈ r.2.1, g'.Relies (log ++ r.1.toList) r.2.2 ∧
    (g'.lists?.isSome → g.lists?.isSome ∨ ∀ q : Going, q.lists?.isSome → q.Clashes g) ∧
    ∀ row ∈ g'.locks, row ∈ g.locks ∨ row ∈ g.wants

theorem Db.Ok.append (hd : db.Ok log) (hx : ¬ x.Supersedes) : db.Ok (log ++ [x]) where
  single := hd.single
  links l hl := by
    obtain ⟨hissued, hleaves⟩ := hd.links l hl
    refine ⟨List.mem_append_left _ hissued, fun y hy => ?_⟩
    rcases mem_since_append hy with rfl | hy
    · cases y <;> first | trivial | exact absurd trivial hx
    · exact hleaves y hy
  once t := by
    have hnot : ¬ x.Completes t := by
      cases x <;> first | exact id | exact fun _ => hx trivial
    simpa [List.countP_append, hnot] using hd.once t
  written write v r h := by
    rcases List.mem_append.mp h with h | h
    · exact hd.written write v r h
    · exact absurd (List.mem_singleton.mp h ▸ trivial) hx
  completed before t e c after h := by
    rcases List.eq_nil_or_concat after with rfl | ⟨after, y, rfl⟩
    · obtain ⟨-, hy⟩ := List.append_inj' h rfl
      exact absurd (List.singleton_inj.mp hy ▸ trivial) hx
    · have h : log ++ [x] = (before ++ .completed t e c :: after) ++ [y] := by simpa using h
      exact hd.completed before t e c after (List.append_inj' h rfl).1
  replaced write v r h := by
    rcases List.mem_append.mp h with h | h
    · exact hd.replaced write v r h
    · exact absurd (List.mem_singleton.mp h ▸ trivial) hx

theorem Taken.Relies.append {t : Taken} (h : t.Relies log db) (hx : ¬ x.Supersedes) : t.Relies (log ++ [x]) db :=
  ⟨h.stored, h.valid, h.fresh.append hx⟩

theorem not_wrote (hx : ¬ x.Supersedes) (write : Nat) (v r : Option Hash) : x ≠ .wrote write v r := by
  rintro rfl
  exact hx trivial

theorem Going.Relies.append (hr : g.Relies log db) (hx : ¬ x.Supersedes) : g.Relies (log ++ [x]) db :=
  hr.beside (fun _ _ h => h) (fun _ _ ht => ht.append hx) (fun _ _ h => h) (fun _ h => ⟨h, rfl⟩) (Nat.le_refl _)
    fun _ _ _ hl => .inr ⟨hl, fun h => h.append (not_wrote hx _)⟩

theorem StepOk.answers (hd : db.Ok log) (hx : ¬ x.Supersedes) : StepOk log db g (answered db x) :=
  ⟨hd.append hx, fun _ _ _ _ hq => hq.append hx, fun _ h => absurd h (Option.not_mem_none _)⟩

theorem StepOk.goesTo (hd : db.Ok log) (hr : g'.Relies log db)
    (hl : g'.lists?.isSome → g.lists?.isSome ∨ ∀ q : Going, q.lists?.isSome → q.Clashes g)
    (hk : ∀ row ∈ g'.locks, row ∈ g.locks ∨ row ∈ g.wants) : StepOk log db g (goesTo db g') := by
  refine ⟨by simpa [Passwords.goesTo] using hd, fun _ _ _ _ hq => by simpa [Passwords.goesTo] using hq, fun g'' hg => ?_⟩
  obtain rfl := Option.some.inj hg
  exact ⟨by simpa [Passwords.goesTo] using hr, hl, hk⟩

theorem Going.Relies.idle (h₁ : g.lists? = none) (h₂ : g.taken? = none) (h₃ : g.verified? = none) (h₄ : g.owes? = none)
    (h₅ : g.signsOut? = none) : g.Relies log db where
  lists := by simp [h₁]
  taken := by simp [h₂]
  revokes sessions hs := by
    obtain ⟨t, ht⟩ := revokes_taken hs
    simp [h₂] at ht
  verified := by simp [h₃]
  owes := by simp [h₄]
  erases e he := by
    have := erases_owes he
    simp [h₄] at this
  signsOut := by simp [h₅]

theorem Going.Relies.completing {hash : Hash} {phase : CompletionPhase} {t : Taken} (ht : t.Relies log db)
    (h₁ : (Going.completing token hash phase).taken? = some t)
    (h₂ : ∀ sessions ∈ (Going.completing token hash phase).revokes?, ∀ s ∈ db.sessions, s ∈ sessions) :
    (Going.completing token hash phase).Relies log db where
  lists _ h := absurd h (Option.not_mem_none _)
  taken t' ht' := by
    rw [h₁] at ht'
    obtain rfl := Option.some.inj ht'
    exact ht
  revokes := h₂
  verified _ h := absurd h (Option.not_mem_none _)
  owes _ h := absurd h (Option.not_mem_none _)
  erases _ h := absurd h (Option.not_mem_none _)
  signsOut _ h := absurd h (Option.not_mem_none _)

theorem filter_listed {tokens : List Token} (h : ∀ l ∈ db.links, l.token ∈ tokens) :
    db.links.filter (·.token ∉ tokens) = [] := by
  simpa [List.filter_eq_nil_iff] using h

theorem tokens_count_le (hd : db.Ok log) (h : l ∈ db.links) : log.countP (·.Completes l.token) = 0 ∧
    db.tokens.count l.token = 1 ∧ ¬ db.nextToken ≤ l.token := by
  have honce := hd.once l.token
  have hpos : 0 < db.tokens.count l.token := List.count_pos_iff.mpr (List.mem_map_of_mem h)
  split at honce
  · omega
  · rename_i hlt
    exact ⟨by omega, by omega, hlt⟩

theorem completed_append (hd : db.Ok log) (hx : ∀ t e c, x ≠ .completed t e c) (before : List Answer) (t : Token)
    (e c : Time) (after : List Answer) (h : log ++ [x] = before ++ .completed t e c :: after) :
    c < e ∧ Fresh before t e := by
  rcases List.eq_nil_or_concat after with rfl | ⟨after, y, rfl⟩
  · obtain ⟨-, hy⟩ := List.append_inj' h rfl
    exact absurd (List.singleton_inj.mp hy) (hx t e c)
  · have h : log ++ [x] = (before ++ .completed t e c :: after) ++ [y] := by simpa using h
    exact hd.completed before t e c after (List.append_inj' h rfl).1

theorem inserting_ok (hd : db.Ok log) (hr : (Going.issuing ttlMs (.inserting now tokens)).Relies log db) :
    StepOk log db (.issuing ttlMs (.inserting now tokens)) (issueStep db ttlMs (.inserting now tokens)) := by
  have hnone := filter_listed (hr.lists tokens rfl)
  simp only [issueStep, hnone, List.nil_append]
  have hnew : ∀ t, (Answer.issued db.nextToken (now + ttlMs)).Completes t ↔ False := fun t => Iff.rfl
  refine ⟨⟨Nat.le_refl 1, ?_, ?_, ?_, ?_, ?_⟩, fun q hq _ _ hrq => ?_, fun _ h => absurd h (Option.not_mem_none _)⟩
  · intro l hl
    obtain rfl := List.mem_singleton.mp hl
    refine ⟨by simp, fun y hy => ?_⟩
    rw [Option.toList_some, since_append, if_pos (show Answer.Issues db.nextToken (.issued _ _) from rfl)] at hy
    cases hy
  · intro t
    have honce := hd.once t
    simp only [Option.toList_some, List.countP_append, List.countP_singleton, hnew, decide_false, Db.tokens,
      List.map_cons, List.map_nil, List.count_singleton, beq_iff_eq] at honce ⊢
    rcases eq_or_ne db.nextToken t with rfl | hne
    · simp only [Nat.le_refl, if_true, Nat.not_succ_le_self, if_false, Bool.false_eq_true] at honce ⊢
      omega
    · have hnext : db.nextToken + 1 ≤ t ↔ db.nextToken ≤ t :=
        ⟨Nat.le_of_succ_le, fun h => Nat.lt_of_le_of_ne h hne⟩
      simp only [hne, hnext, if_false, Bool.false_eq_true]
      omega
  · intro write v r h
    rcases List.mem_append.mp h with h | h
    · exact hd.written write v r h
    · simp at h
  · exact completed_append hd nofun
  · intro write v r h
    rcases List.mem_append.mp h with h | h
    · exact hd.replaced write v r h
    · simp at h
  · refine hrq.beside (fun h => absurd ⟨rfl, h⟩ hq.issues) (fun t ht h => ?_) (fun _ _ h => h) (fun _ h => ⟨h, rfl⟩)
      (Nat.le_refl _) fun write _ l hl => ?_
    · -- its link is among those found, and locked by both
      refine absurd (taken_locks ht) (hq.locks _ ?_)
      exact List.mem_map_of_mem (hr.lists tokens rfl _ h.stored)
    · obtain rfl := List.mem_singleton.mp hl
      exact .inl (issuedAfter_new _ _ _)

theorem issueStep_ok (hd : db.Ok log) (hr : (Going.issuing ttlMs phase).Relies log db) :
    StepOk log db (.issuing ttlMs phase) (issueStep db ttlMs phase) := by
  cases phase with
  | starting =>
    simp only [issueStep]
    split
    · exact .goesTo hd (.idle rfl rfl rfl rfl rfl) nofun nofun
    · exact .answers hd id
  | listing now =>
    refine .goesTo hd ⟨fun tokens ht l hl => ?_, nofun, nofun, nofun, nofun, nofun, nofun⟩ (fun _ => .inr fun _ h => h) nofun
    obtain rfl := Option.some.inj ht
    exact List.mem_map_of_mem hl
  | deleting now tokens =>
    refine .goesTo hd ⟨fun tokens' ht l hl => ?_, nofun, nofun, nofun, nofun, nofun, nofun⟩ (fun _ => .inl rfl) ?_
    · obtain rfl := Option.some.inj ht
      exact List.mem_filter.mpr ⟨List.mem_map_of_mem hl, by simpa using hr.lists tokens rfl l hl⟩
    · intro row hrow
      obtain ⟨t, ht, rfl⟩ := List.mem_map.mp hrow
      exact .inr (List.mem_map_of_mem (by simpa using (List.mem_filter.mp ht).2))
  | inserting now tokens => exact inserting_ok hd hr

theorem link?_some (h : db.link? token = some l) : l ∈ db.links ∧ l.token = token :=
  ⟨List.mem_of_find?_eq_some h, by simpa using List.find?_some h⟩

theorem Db.Ok.fresh (hd : db.Ok log) (hl : l ∈ db.links) (ho : db.owed = []) : Fresh log l.token l.expiresAt := by
  obtain ⟨hissued, hleaves⟩ := hd.links l hl
  refine ⟨hissued, fun y hy hs => ?_⟩
  have h := hleaves y hy
  rw [ho] at h
  cases y <;> first | exact h | exact List.not_mem_nil h | exact hs

theorem taking_ok {hash : Hash} (hd : db.Ok log) (ho : db.owed = []) :
    StepOk log db (.completing token hash .taking) (completionStep db token hash .taking) := by
  simp only [completionStep, take]
  split
  · rename_i l hl
    obtain ⟨hmem, rfl⟩ := link?_some hl
    split
    · rename_i hlt
      refine .goesTo hd (.completing ⟨hmem, hlt, hd.fresh hmem ho⟩ rfl nofun) nofun fun row hrow => .inr hrow
    · exact .answers hd id
  · exact .answers hd id

theorem Taken.Relies.only {t : Taken} (hd : db.Ok log) (ht : t.Relies log db) : db.links = [t.link] := by
  have hone : db.links.length = 1 := Nat.le_antisymm hd.single (List.length_pos_of_mem ht.stored)
  obtain ⟨l, hl⟩ := List.length_eq_one_iff.mp hone
  have hmem := ht.stored
  rw [hl] at hmem ⊢
  rw [List.mem_singleton.mp hmem]

theorem complete_links {t : Taken} {hash : Hash} (hd : db.Ok log) (ht : t.Relies log db) :
    (complete db t tokens sessions hash).links = [] := by
  simp only [complete, ht.only hd, List.filter_cons, List.filter_nil]
  simp

theorem complete_sessions {t : Taken} {hash : Hash} (hs : ∀ s ∈ db.sessions, s ∈ sessions) : (complete db t tokens sessions hash).sessions = [] := by
  simpa [complete, List.filter_eq_nil_iff] using hs

theorem committing_ok {hash : Hash} {t : Taken}
    (hd : db.Ok log) (hr : (Going.completing token hash (.committing t tokens sessions)).Relies log db) :
    StepOk log db (.completing token hash (.committing t tokens sessions))
      (completionStep db token hash (.committing t tokens sessions)) := by
  have ht : t.Relies log db := hr.taken t rfl
  have hnone : (complete db t tokens sessions hash).links = [] := complete_links hd ht
  obtain ⟨hunused, -, hnext⟩ := tokens_count_le hd ht.stored
  simp only [completionStep]
  refine ⟨⟨by simp [hnone], by simp [hnone], fun t' => ?_, ?_, ?_, ?_⟩, fun q hq _ hc hrq => ?_,
    fun _ h => absurd h (Option.not_mem_none _)⟩
  · have honce := hd.once t'
    have hsame : (if (complete db t tokens sessions hash).nextToken ≤ t' then 1 else 0) =
        if db.nextToken ≤ t' then 1 else 0 := rfl
    simp only [Option.toList_some, List.countP_append, List.countP_singleton, Db.tokens, hnone, List.map_nil,
      List.count_nil, Nat.add_zero, hsame] at honce ⊢
    rcases eq_or_ne t.link.token t' with rfl | hne
    · simp only [hunused, Nat.zero_add, hnext, if_false, Nat.add_zero]
      split <;> omega
    · have hnot : ¬ (Answer.completed t.link.token t.link.expiresAt t.checkedAt).Completes t' := hne
      simp only [hnot, decide_false, Bool.false_eq_true, if_false, Nat.add_zero]
      omega
  · intro write v r h
    rcases List.mem_append.mp h with h | h
    · exact hd.written write v r h
    · simp at h
  · intro before t' e c after h
    rcases List.eq_nil_or_concat after with rfl | ⟨after, y, rfl⟩
    · obtain ⟨rfl, hy⟩ := List.append_inj' h rfl
      obtain ⟨rfl, rfl, rfl⟩ := Answer.completed.inj (List.singleton_inj.mp hy)
      exact ⟨ht.valid, ht.fresh⟩
    · have h : log ++ [.completed t.link.token t.link.expiresAt t.checkedAt] =
          (before ++ .completed t' e c :: after) ++ [y] := by simpa using h
      exact hd.completed before t' e c after (List.append_inj' h rfl).1
  · intro write v r h
    rcases List.mem_append.mp h with h | h
    · exact hd.replaced write v r h
    · simp at h
  · refine hrq.beside (fun _ => by simp [hnone]) (fun t' ht' h => ?_) (fun _ s hs => (List.mem_filter.mp hs).1)
      (fun h => absurd h hc) (Nat.le_refl _) (by simp [hnone])
    · -- both would have taken the one link there is
      have hsame : t'.link = t.link := List.mem_singleton.mp (ht.only hd ▸ h.stored)
      refine absurd (taken_locks ht') (hq.locks _ ?_)
      rw [hsame]
      exact List.mem_cons_self

theorem completionStep_ok {hash : Hash} {phase : CompletionPhase} (hd : db.Ok log)
    (hr : (Going.completing token hash phase).Relies log db) (ho : phase = .taking → db.owed = []) :
    StepOk log db (.completing token hash phase) (completionStep db token hash phase) := by
  cases phase with
  | starting =>
    simp only [completionStep]
    split
    · split
      · exact .answers hd id
      · exact .goesTo hd (.idle rfl rfl rfl rfl rfl) nofun nofun
    · exact .answers hd id
  | taking => exact taking_ok hd (ho rfl)
  | taken t =>
    simp only [completionStep]
    split
    · exact .goesTo hd (.completing (hr.taken t rfl) rfl nofun) nofun fun _ h => .inl h
    · exact .answers hd id
  | profiled t =>
    simp only [completionStep]
    split
    · refine .goesTo hd (.completing (hr.taken t rfl) rfl nofun) nofun fun row h => ?_
      rcases List.mem_cons.mp h with rfl | h
      · exact .inl List.mem_cons_self
      · exact .inr h
    · exact .answers hd id
  | written t => exact .goesTo hd (.completing (hr.taken t rfl) rfl nofun) nofun fun _ h => .inl h
  | revoking t tokens =>
    refine .goesTo hd (.completing (hr.taken t rfl) rfl nofun) nofun fun row h => ?_
    rcases List.mem_cons.mp h with rfl | h
    · exact .inl List.mem_cons_self
    · rcases List.mem_cons.mp h with rfl | h
      · exact .inl (List.mem_cons_of_mem _ List.mem_cons_self)
      · obtain ⟨t', ht', rfl⟩ := List.mem_map.mp h
        exact .inr (List.mem_map_of_mem (by simpa using (List.mem_filter.mp ht').2))
  | revoked t tokens =>
    refine .goesTo hd (.completing (hr.taken t rfl) rfl fun sessions hs s h => ?_) nofun fun _ h => .inl h
    obtain rfl := Option.some.inj hs
    exact h
  | committing t tokens sessions => exact committing_ok hd hr

-- -----------------
-- Passwords
-- -----------------

theorem writing_ok {change : PasswordChange} {hash : Hash} {verified : Option Hash} (hd : db.Ok log)
    (hr : (Going.changing change hash (.writing verified)).Relies log db) (hu : db.user = true) :
    StepOk log db (.changing change hash (.writing verified))
      (some (.wrote db.writes verified db.password), some (.changing change hash (.outdating db.writes)),
        db.written hash) := by
  refine ⟨⟨hd.single, fun l hl => ?_, fun t => ?_, ?_, completed_append hd nofun, ?_⟩, fun q _ _ hc hrq => ?_,
    fun g' hg' => ?_⟩
  · obtain ⟨hissued, hleaves⟩ := hd.links l hl
    refine ⟨List.mem_append_left _ hissued, fun y hy => ?_⟩
    rcases mem_since_append hy with rfl | hy
    · exact List.mem_cons_self
    · have h := hleaves y hy
      cases y <;> first | exact h | exact List.mem_cons_of_mem _ h
  · have hnot : ¬ (Answer.wrote db.writes verified db.password).Completes t := id
    have hsame : (log ++ [Answer.wrote db.writes verified db.password]).countP (fun x => x.Completes t) =
        log.countP (fun x => x.Completes t) := by simp [List.countP_append, hnot]
    simp only [Option.toList_some, hsame]
    exact hd.once t
  · intro write v r h
    rcases List.mem_append.mp h with h | h
    · exact Nat.lt_succ_of_lt (hd.written write v r h)
    · obtain ⟨rfl, -, -⟩ := Answer.wrote.inj (List.mem_singleton.mp h)
      exact Nat.lt_succ_self _
  · intro write v r h
    rcases List.mem_append.mp h with h | h
    · exact hd.replaced write v r h
    · obtain ⟨-, rfl, rfl⟩ := Answer.wrote.inj (List.mem_singleton.mp h)
      exact hr.verified v rfl hu
  · refine hrq.beside (fun _ _ h => h) (fun t ht _ => absurd (.inl (Option.isSome_iff_exists.mpr ⟨t, ht⟩)) hc)
      (fun _ _ h => h) (fun h => absurd (.inr h) hc) (Nat.le_succ _) fun write hlt l hl => .inr ⟨hl, fun h => ?_⟩
    refine h.append fun v r he => ?_
    obtain ⟨rfl, -, -⟩ := Answer.wrote.inj he
    exact Nat.lt_irrefl _ hlt
  · obtain rfl := Option.some.inj hg'
    refine ⟨⟨nofun, nofun, nofun, nofun, fun write hw => ?_, nofun, nofun⟩, nofun, nofun⟩
    obtain rfl := Option.some.inj hw
    exact Nat.lt_succ_self _

/-- The links that a password found are gone; those that are left were issued after it. -/
theorem erased_ok {change : PasswordChange} {hash : Hash} {write : Nat} {tokens : List Token} (hd : db.Ok log)
    (hr : (Going.changing change hash (.erasing write tokens)).Relies log db) :
    (db.erased write tokens).Ok log ∧ (∀ l ∈ (db.erased write tokens).links, IssuedAfter log write l) ∧
      ∀ q : Going, ¬ (∃ row ∈ q.locks, row ∈ (Going.changing change hash (.erasing write tokens)).wants) →
        q.Relies log db → q.Relies log (db.erased write tokens) := by
  have hkept : ∀ l ∈ (db.erased write tokens).links, l ∈ db.links ∧ l.token ∉ tokens := fun l hl => by
    simpa [Db.erased] using hl
  have hafter : ∀ l ∈ (db.erased write tokens).links, IssuedAfter log write l := fun l hl =>
    hr.erases (write, tokens) rfl l (hkept l hl).1 (hkept l hl).2
  refine ⟨⟨?_, fun l hl => ?_, fun t => ?_, hd.written, hd.completed, hd.replaced⟩, hafter, fun q hw hrq => ?_⟩
  · exact Nat.le_trans (List.length_filter_le _ _) hd.single
  · obtain ⟨hissued, hleaves⟩ := hd.links l (hkept l hl).1
    refine ⟨hissued, fun y hy => ?_⟩
    have h := hleaves y hy
    cases y with
    | wrote n v r =>
      refine List.mem_filter.mpr ⟨h, ?_⟩
      simp only [ne_eq, decide_not, Bool.not_eq_true', decide_eq_false_iff_not]
      rintro rfl
      exact hafter l hl v r hy
    | issued | completed => exact h
    | passwordSet | done | refused => trivial
  · have hle : (db.erased write tokens).tokens.count t ≤ db.tokens.count t :=
      (List.filter_sublist.map _).count_le t
    have honce := hd.once t
    have hsame : (if (db.erased write tokens).nextToken ≤ t then 1 else 0) = if db.nextToken ≤ t then 1 else 0 := rfl
    rw [hsame]
    omega
  · refine hrq.beside (fun _ l hl => (hkept l hl).1) (fun t ht h => ⟨?_, h.valid, h.fresh⟩) (fun _ _ h => h)
      (fun _ h => ⟨h, rfl⟩) (Nat.le_refl _) fun _ _ l hl => .inr ⟨(hkept l hl).1, id⟩
    refine List.mem_filter.mpr ⟨h.stored, ?_⟩
    simp only [decide_not, Bool.not_eq_true', decide_eq_false_iff_not]
    exact fun hm => hw ⟨_, taken_locks ht, List.mem_map_of_mem hm⟩

theorem writeStep_ok {change : PasswordChange} {hash : Hash} {phase : WritePhase} (hd : db.Ok log)
    (hr : (Going.changing change hash phase).Relies log db) :
    StepOk log db (.changing change hash phase) (writeStep verifyPassword db change hash phase) := by
  cases phase with
  | starting =>
    simp only [writeStep]
    split
    · split <;> exact .goesTo hd (.idle rfl rfl rfl rfl rfl) nofun nofun
    · exact .answers hd id
  | reading currentPassword =>
    simp only [writeStep, read]
    split
    · exact .answers hd id
    · rename_i verified hp
      split
      · refine .goesTo hd ⟨nofun, nofun, nofun, fun h hv _ => ?_, nofun, nofun, nofun⟩ nofun nofun
        rw [hp, ← Option.mem_def.mp hv]
        rfl
      · exact .answers hd id
  | writing verified =>
    simp only [writeStep]
    split
    · exact writing_ok hd hr ‹_›
    · exact .answers hd id
  | outdating write =>
    refine .goesTo hd ⟨nofun, nofun, nofun, nofun, fun w hw => ?_, fun e he l hl hn => ?_, nofun⟩ nofun nofun
    · exact hr.owes w hw
    · obtain rfl := Option.some.inj he
      exact absurd (List.mem_map_of_mem hl) hn
  | erasing write tokens =>
    obtain ⟨hok, hafter, hothers⟩ := erased_ok hd hr
    have hlt : write < db.writes := hr.owes write rfl
    cases change with
    | set =>
      simp only [writeStep, goesTo]
      refine ⟨?_, ?_, fun g' hg' => ?_⟩ <;> simp only [Option.toList_none, List.append_nil]
      · exact hok
      · exact fun q _ hw _ hrq => hothers q hw hrq
      · obtain rfl := Option.some.inj hg'
        refine ⟨⟨nofun, nofun, nofun, nofun, nofun, nofun, fun w hw => ?_⟩, nofun, nofun⟩
        obtain rfl := Option.some.inj hw
        exact ⟨hlt, hafter⟩
    | change _ =>
      exact ⟨hok.append id, fun q _ hw _ hrq => (hothers q hw hrq).append id, fun _ h => absurd h (Option.not_mem_none _)⟩
  | signingOut write =>
    refine ⟨?_, fun q _ _ _ hrq => ?_, fun _ h => absurd h (Option.not_mem_none _)⟩
    · have h := hd.append (x := .passwordSet write) id
      exact ⟨h.single, h.links, h.once, h.written, h.completed, h.replaced⟩
    · refine hrq.beside (fun _ _ h => h) (fun _ _ h => ?_) (fun _ _ h => absurd h List.not_mem_nil) (fun _ h => ⟨h, rfl⟩)
        (Nat.le_refl _) fun w _ l hl => .inr ⟨hl, fun h => h.append nofun⟩
      exact ⟨h.stored, h.valid, h.fresh.append id⟩

theorem signInStep_ok (hd : db.Ok log) :
    StepOk log db (.signingIn password verified) (signInStep verifyPassword db password verified) := by
  cases verified with
  | true =>
    simp only [signInStep, if_true]
    split
    · refine ⟨?_, fun q _ _ hc hrq => ?_, fun _ h => absurd h (Option.not_mem_none _)⟩
      · have h := hd.append (x := .done) id
        exact ⟨h.single, h.links, h.once, h.written, h.completed, h.replaced⟩
      · refine hrq.beside (fun _ _ h => h) (fun _ _ h => ⟨h.stored, h.valid, h.fresh.append id⟩) (fun h => absurd h hc)
          (fun _ h => ⟨h, rfl⟩) (Nat.le_refl _) fun w _ l hl => .inr ⟨hl, fun h => h.append nofun⟩
    · exact .answers hd id
  | false =>
    simp only [signInStep, Bool.false_eq_true, if_false]
    split
    · exact .goesTo hd (.idle rfl rfl rfl rfl rfl) nofun nofun
    · exact .answers hd id

theorem leaveStep_ok (hd : db.Ok log) : StepOk log db (.leaving profiled) (leaveStep db profiled) := by
  cases profiled with
  | true =>
    refine ⟨?_, fun q _ _ _ hrq => ?_, fun _ h => absurd h (Option.not_mem_none _)⟩
    · have h := hd.append (x := .done) id
      exact ⟨h.single, h.links, h.once, h.written, h.completed, h.replaced⟩
    · refine hrq.beside (fun _ _ h => h) (fun _ _ h => ⟨h.stored, h.valid, h.fresh.append id⟩)
        (fun _ _ h => absurd h List.not_mem_nil) (fun _ hu => ?_) (Nat.le_refl _) fun w _ l hl => .inr ⟨hl, fun h => h.append nofun⟩
      obtain ⟨hu, ho⟩ := Bool.and_eq_true_iff.mp hu
      exact ⟨hu, if_pos ho⟩
  | false =>
    simp only [leaveStep, Bool.false_eq_true, if_false]
    split
    · exact .goesTo hd (.idle rfl rfl rfl rfl rfl) nofun nofun
    · exact .answers hd id

theorem step_ok (hd : db.Ok log) (hr : g.Relies log db)
    (ho : ∀ token hash, g = .completing token hash .taking → db.owed = []) :
    StepOk log db g (step verifyPassword db g) := by
  cases g with
  | issuing ttlMs phase => exact issueStep_ok hd hr
  | completing token hash phase => exact completionStep_ok hd hr fun h => ho token hash (h ▸ rfl)
  | changing change hash phase => exact writeStep_ok hd hr
  | signingIn password verified => exact signInStep_ok hd
  | leaving profiled => exact leaveStep_ok hd

structure Owned (s : PasswordPool) : Prop where
  started : ∀ p ∈ s.running, p.1 < s.started
  owed : ∀ write ∈ s.store.owed, ∃ pid g, s.at? pid = some g ∧ g.owes? = some write

/-- What a step adds to the passwords with links to delete, its call takes over. -/
theorem step_owes (verifyPassword : Hash → String → Bool) (db : Db) (g : Going) :
    ∀ write ∈ (step verifyPassword db g).2.2.owed,
      (write ∈ db.owed ∧ g.owes? ≠ some write) ∨ ∃ g' ∈ (step verifyPassword db g).2.1, g'.owes? = some write := by
  intro write hw
  cases g with
  | issuing ttlMs phase =>
    refine .inl ⟨?_, nofun⟩
    revert hw
    cases phase <;> simp only [step, issueStep] <;> (try split) <;> exact id
  | completing token hash phase =>
    refine .inl ⟨?_, nofun⟩
    revert hw
    cases phase <;> simp only [step, completionStep, take] <;> (repeat' split) <;> exact id
  | signingIn password verified =>
    refine .inl ⟨?_, nofun⟩
    revert hw
    simp only [step, signInStep]
    repeat' split
    all_goals exact id
  | leaving profiled =>
    refine .inl ⟨?_, nofun⟩
    revert hw
    simp only [step, leaveStep]
    repeat' split
    all_goals exact id
  | changing change hash phase =>
    cases phase with
    | starting =>
      refine .inl ⟨?_, nofun⟩
      revert hw
      simp only [step, writeStep]
      repeat' split
      all_goals exact id
    | reading currentPassword =>
      refine .inl ⟨?_, nofun⟩
      revert hw
      simp only [step, writeStep, read]
      repeat' split
      all_goals exact id
    | writing verified =>
      simp only [step, writeStep] at hw ⊢
      split at hw
      · rcases List.mem_cons.mp hw with rfl | hw
        · rw [if_pos ‹_›]
          exact .inr ⟨_, rfl, rfl⟩
        · exact .inl ⟨hw, nofun⟩
      · exact .inl ⟨hw, nofun⟩
    | outdating n =>
      by_cases h : n = write
      · exact .inr ⟨_, rfl, congrArg some h⟩
      · exact .inl ⟨hw, fun he => h (Option.some.inj he)⟩
    | erasing n tokens =>
      have hw : write ∈ (db.erased n tokens).owed := by
        cases change <;> exact hw
      obtain ⟨hold, hne⟩ := List.mem_filter.mp hw
      refine .inl ⟨hold, fun he => ?_⟩
      obtain rfl := Option.some.inj he
      simp at hne
    | signingOut n => exact .inl ⟨hw, nofun⟩

theorem owned_preserved (verifyPassword : Hash → String → Bool) :
    (((passwordCalls verifyPassword).serialised Going.Clashes).machine init Settles).Preserves Owned := by
  intro s a hs ha
  cases a with
  | env later => exact ⟨hs.started, hs.owed⟩
  | start call =>
    refine ⟨fun p hp => ?_, fun write hw => ?_⟩
    · rcases List.mem_cons.mp hp with rfl | hp
      · exact Nat.lt_succ_self _
      · exact Nat.lt_succ_of_lt (hs.started p hp)
    · obtain ⟨pid, g, hat, ho⟩ := hs.owed write hw
      have hne : s.started ≠ pid := Nat.ne_of_gt (hs.started _ (at?_mem hat))
      exact ⟨pid, g, (at?_cons_ne hne _ _ _ _).trans hat, ho⟩
  | abort pid =>
    refine ⟨fun p hp => hs.started p (mem_leave.mp hp).1, fun write hw => ?_⟩
    obtain ⟨pid', g, hat, ho⟩ := hs.owed write hw
    have hne : pid' ≠ pid := by
      rintro rfl
      have hnone : g.owes? = none := ha.2 g hat
      rw [hnone] at ho
      cases ho
    exact ⟨pid', g, (at?_leave_ne hne _ _).trans hat, ho⟩
  | advance pid =>
    cases hat : s.at? pid with
    | none =>
      have hsame : ((passwordCalls verifyPassword).advance s pid).2 = s := by simp only [advance, hat]
      show Owned ((passwordCalls verifyPassword).advance s pid).2
      rwa [hsame]
    | some g =>
      refine ⟨fun p hp => ?_, fun write hw => ?_⟩
      · simp only [Machine.next, machine, move, advance, hat] at hp ⊢
        rcases List.mem_append.mp hp with hp | hp
        · obtain ⟨g', -, rfl⟩ := List.mem_map.mp hp
          exact hs.started (pid, g) (at?_mem hat)
        · exact hs.started p (mem_leave.mp hp).1
      · simp only [Machine.next, machine, move, advance, hat] at hw
        rcases step_owes verifyPassword s.store g write hw with ⟨hold, hne⟩ | ⟨g', hg', ho⟩
        · obtain ⟨pid', q, hatq, ho⟩ := hs.owed write hold
          have hpid : pid' ≠ pid := by
            rintro rfl
            obtain rfl := Option.some.inj (hat.symm.trans hatq)
            exact hne ho
          exact ⟨pid', q, (advance_at?_ne hpid).trans hatq, ho⟩
        · exact ⟨pid, g', advance_at?_self hat hg', ho⟩

def Settled (s : PasswordPool) (a : PasswordMove) : Prop := Settles s a ∧ Owned s

theorem owed_nil {s : PasswordPool} {hash : Hash} (hs : Owned s) (hat : s.at? pid = some (.completing token hash .taking))
    (hothers : ∀ q ∈ s.leave pid, ¬ q.2.owes?.isSome) : s.store.owed = [] := by
  refine List.eq_nil_iff_forall_not_mem.mpr fun write hw => ?_
  obtain ⟨pid', q, hatq, ho⟩ := hs.owed write hw
  by_cases hpid : pid' = pid
  · rw [hpid, hat] at hatq
    obtain rfl := Option.some.inj hatq
    cases ho
  · exact hothers (pid', q) (mem_leave.mpr ⟨at?_mem hatq, hpid⟩) (by rw [ho]; rfl)

theorem lastLink_inductive (verifyPassword : Hash → String → Bool) :
    ((passwordCalls verifyPassword).serialised Going.Clashes).Inductive lastLink Settled where
  symm p q h := ⟨fun hh => h.issues ⟨hh.2, hh.1⟩, fun row hp hq => h.locks row hq hp⟩
  start log s call _ _ := by
    cases call <;> exact ⟨.idle rfl rfl rfl rfl rfl, fun q => ⟨nofun, nofun⟩⟩
  step log s pid g hs ha hat hg hothers := by
    have ho : ∀ token hash, g = .completing token hash .taking → s.store.owed = [] := by
      rintro token hash rfl
      exact owed_nil ha.2 hat fun q hq hsome => (hothers q hq).2 (.inr hsome)
    have hstep : StepOk log s.store g (step verifyPassword s.store g) := step_ok hs.holds hg ho
    refine ⟨⟨hstep.holds, fun q hq hrelies => ?_⟩, fun g' hg' => ?_⟩
    · obtain ⟨hapart, p, hp, rfl⟩ := hq
      exact hstep.others _ hapart (fun h => (hothers p hp).2 (.inl h)) (fun h => (hothers p hp).2 (.inr h)) hrelies
    · obtain ⟨hrelies, hissues, hlocks⟩ := hstep.next g' hg'
      refine ⟨hrelies, fun q _ hapart hfree => ⟨fun hboth => ?_, fun row hrow hq => ?_⟩⟩
      · rcases hissues hboth.1 with h | h
        · exact hapart.issues ⟨h, hboth.2⟩
        · exact hfree (.inr (h q hboth.2))
      · rcases hlocks row hrow with h | h
        · exact hapart.locks row h hq
        · exact hfree (.inl ⟨row, hq, h⟩)
  env log s later hs _ := by
    have hd : s.store.Ok log := hs.holds
    refine ⟨?_, fun q _ hrelies => ?_⟩ <;>
      simp only [serialised, passwordCalls, Option.toList_none, List.append_nil]
    · exact ⟨hd.single, hd.links, hd.once, hd.written, hd.completed, hd.replaced⟩
    · exact hrelies.beside (fun _ _ h => h) (fun _ _ h => ⟨h.stored, h.valid, h.fresh⟩) (fun _ _ h => h)
        (fun _ h => ⟨h, rfl⟩) (Nat.le_refl _) fun _ _ _ hl => .inr ⟨hl, id⟩

def passwordSystem (verifyPassword : Hash → String → Bool) : Machine PasswordPool PasswordMove (Option Answer) :=
  (passwordCalls verifyPassword).machine (fun db => db.links = [] ∧ db.owed = []) fun _ _ => True

theorem passwordSystem_ok (hs : (passwordSystem verifyPassword).init s₀)
    (hr : ((passwordSystem verifyPassword).when Undisturbed).Run s₀ h s) :
    lastLink.Ok (answers h) s ∧ Owned s := by
  obtain ⟨⟨hlinks, howed⟩, hidle, -⟩ := hs
  have hrun := serialised_run _ (run_of_when _ hr)
  have hstart : Owned s₀ := ⟨by simp [hidle], by simp [howed]⟩
  refine ⟨?_, hrun.preserves (owned_preserved verifyPassword) hstart⟩
  have hok : lastLink.Ok [] s₀ := by
    refine .of_idle hidle ⟨by simp [hlinks], by simp [hlinks], fun t => ?_, nofun, fun before t e c after h => ?_, nofun⟩
    · simp only [Db.tokens, hlinks, List.countP_nil, List.map_nil, List.count_nil]
      split <;> omega
    · simp at h
  simpa using (lastLink_inductive verifyPassword).run_ok
    (run_of_allowed_when _ (hrun.when_preserved (owned_preserved verifyPassword) hstart)) hok

theorem step_completed (h : (step verifyPassword db g).1 = some (.completed token e c)) :
    ∃ token' hash t tokens sessions, g = .completing token' hash (.committing t tokens sessions) := by
  revert h
  cases g with
  | completing token' hash phase =>
    cases phase with
    | committing t tokens sessions => exact fun _ => ⟨token', hash, t, tokens, sessions, rfl⟩
    | starting | taking | taken | profiled | written | revoking | revoked =>
      simp only [step, completionStep, take]
      repeat' split
      all_goals exact fun h => by cases h
  | issuing ttlMs phase =>
    cases phase <;> simp only [step, issueStep] <;> (try split) <;> exact fun h => by cases h
  | changing change hash phase =>
    cases phase <;> simp only [step, writeStep, read] <;> (repeat' split) <;> exact fun h => by cases h
  | signingIn password verified =>
    simp only [step, signInStep]
    repeat' split
    all_goals exact fun h => by cases h
  | leaving profiled =>
    simp only [step, leaveStep]
    repeat' split
    all_goals exact fun h => by cases h

theorem step_passwordSet (h : (step verifyPassword db g).1 = some (.passwordSet write)) :
    ∃ change hash, g = .changing change hash (.signingOut write) := by
  revert h
  cases g with
  | changing change hash phase =>
    cases phase with
    | signingOut n =>
      intro h
      obtain rfl := Answer.passwordSet.inj (Option.some.inj h)
      exact ⟨change, hash, rfl⟩
    | starting | reading | writing | outdating | erasing =>
      simp only [step, writeStep, read]
      repeat' split
      all_goals exact fun h => by cases h
  | completing token' hash phase =>
    cases phase <;> simp only [step, completionStep, take] <;> (repeat' split) <;> exact fun h => by cases h
  | issuing ttlMs phase =>
    cases phase <;> simp only [step, issueStep] <;> (try split) <;> exact fun h => by cases h
  | signingIn password verified =>
    simp only [step, signInStep]
    repeat' split
    all_goals exact fun h => by cases h
  | leaving profiled =>
    simp only [step, leaveStep]
    repeat' split
    all_goals exact fun h => by cases h

theorem completion_failed {hash : Hash} {phase : CompletionPhase}
    (h : ∀ t e c, (completionStep db token hash phase).1 ≠ some (.completed t e c)) :
    (completionStep db token hash phase).2.2 = db := by
  revert h
  cases phase with
  | committing t tokens sessions => exact fun h => absurd rfl (h _ _ _)
  | starting | taking | taken | profiled | written | revoking | revoked =>
    simp only [completionStep, take]
    repeat' split
    all_goals exact fun _ => rfl

theorem advance_of_answer {s : PasswordPool} (ha : (passwordSystem verifyPassword).answer s a = some x) :
    ∃ pid g, a = .advance pid ∧ s.at? pid = some g ∧ (step verifyPassword s.store g).1 = some x ∧
      ((passwordSystem verifyPassword).next s a).store = (step verifyPassword s.store g).2.2 := by
  cases a with
  | start call | abort pid | env later => cases ha
  | advance pid =>
    simp only [Machine.answer, Machine.next, passwordSystem, machine, move, advance] at ha ⊢
    cases hat : s.at? pid with
    | none => simp [hat] at ha
    | some g =>
      simp only [hat] at ha
      exact ⟨pid, g, rfl, hat, ha, rfl⟩

theorem completed_leaves {s : PasswordPool} (hs : lastLink.Ok log s)
    (ha : (passwordSystem verifyPassword).answer s a = some (.completed token e c)) :
    ((passwordSystem verifyPassword).next s a).store.links = [] ∧
      ((passwordSystem verifyPassword).next s a).store.sessions = [] := by
  obtain ⟨pid, g, -, hat, hx, hnext⟩ := advance_of_answer ha
  obtain ⟨token', hash, t, tokens, sessions, rfl⟩ := step_completed hx
  have hr : (Going.completing token' hash (.committing t tokens sessions)).Relies log s.store := hs.relies _ (at?_mem hat)
  rw [hnext]
  exact ⟨complete_links hs.holds (hr.taken t rfl), complete_sessions (hr.revokes sessions rfl)⟩

theorem passwordSet_leaves {s : PasswordPool} (hs : lastLink.Ok log s)
    (ha : (passwordSystem verifyPassword).answer s a = some (.passwordSet write)) :
    ((passwordSystem verifyPassword).next s a).store.sessions = [] ∧
      ∀ l ∈ ((passwordSystem verifyPassword).next s a).store.links, IssuedAfter log write l := by
  obtain ⟨pid, g, -, hat, hx, hnext⟩ := advance_of_answer ha
  obtain ⟨change, hash, rfl⟩ := step_passwordSet hx
  have hr : (Going.changing change hash (.signingOut write)).Relies log s.store := hs.relies _ (at?_mem hat)
  rw [hnext]
  exact ⟨rfl, (hr.signsOut write rfl).2⟩

/-- Where calls that clash go one after the other: a link sets a password once, before its expiry and
before anything supersedes it; a change replaces the password it verified; after a completed link or a
set password no earlier session and no earlier link is left. A completion that fails changes nothing. -/
theorem password_links_ok (hs : (passwordSystem verifyPassword).init s₀)
    (hr : ((passwordSystem verifyPassword).when Undisturbed).Run s₀ h s) :
    (∀ before token e c after, answers h = before ++ .completed token e c :: after → c < e ∧ Fresh before token e) ∧
    (∀ token, (answers h).countP (·.Completes token) ≤ 1) ∧
    (∀ write verified replaced, .wrote write (some verified) replaced ∈ answers h → replaced = some verified) ∧
    (∀ a token e c, (passwordSystem verifyPassword).answer s a = some (.completed token e c) →
      ((passwordSystem verifyPassword).next s a).store.links = [] ∧
      ((passwordSystem verifyPassword).next s a).store.sessions = []) ∧
    (∀ a write, (passwordSystem verifyPassword).answer s a = some (.passwordSet write) →
      ((passwordSystem verifyPassword).next s a).store.sessions = [] ∧
      ∀ l ∈ ((passwordSystem verifyPassword).next s a).store.links, IssuedAfter (answers h) write l) ∧
    ∀ pid token hash phase, s.at? pid = some (.completing token hash phase) →
      ((passwordSystem verifyPassword).next s (.abort pid)).store = s.store ∧
      ((∀ t e c, (passwordSystem verifyPassword).answer s (.advance pid) ≠ some (.completed t e c)) →
        ((passwordSystem verifyPassword).next s (.advance pid)).store = s.store) := by
  obtain ⟨hok, -⟩ := passwordSystem_ok hs hr
  have hd : s.store.Ok (answers h) := hok.holds
  refine ⟨hd.completed, fun token => ?_, hd.replaced, fun a token e c ha => completed_leaves hok ha,
    fun a write ha => passwordSet_leaves hok ha, fun pid token hash phase hat => ⟨rfl, fun hn => ?_⟩⟩
  · have honce := hd.once token
    omega
  · simp only [Machine.answer, Machine.next, passwordSystem, machine, move, advance, hat] at hn ⊢
    exact completion_failed hn

namespace Example

def verify (hash : Hash) (password : String) : Bool := hash = "scrypt:" ++ password

def hashed (password : String) : Hash := "scrypt:" ++ password

def start : PasswordPool := ⟨⟨0, true, false, true, some (hashed "old"), [], [], 0, 0, 0, []⟩, [], 0⟩

abbrev Moves := List PasswordMove

def steps (pid n : Nat) : Moves := List.replicate n (.advance pid)

def overtaken : Moves :=
  .start (.changePassword "old" (hashed "new")) :: steps 0 2 ++ .start (.setPassword (hashed "other")) :: steps 1 5 ++
    steps 0 1

def completed : Moves :=
  .start (.signIn "old") :: steps 0 2 ++ .start (.createPasswordSetupToken 1000) :: steps 1 4 ++
    .start (.completePasswordSetup 0 (hashed "new")) :: steps 2 8

instance : Decidable ((passwordCalls verifyPassword).blocks p q) :=
  inferInstanceAs (Decidable (∃ row ∈ p.locks, row ∈ q.wants))

instance : Decidable ((passwordSystem verifyPassword).enabled s a) :=
  inferInstanceAs (Decidable (((passwordCalls verifyPassword).machine _ fun _ _ => True).enabled s a))

instance : Decidable (((passwordSystem verifyPassword).when Undisturbed).enabled s a) :=
  inferInstanceAs (Decidable ((passwordSystem verifyPassword).enabled s a ∧ Undisturbed s a))

theorem start_ok : (passwordSystem verify).init start := ⟨⟨rfl, rfl⟩, rfl, rfl⟩

end Example

/-- A change of the password replaces one that it has not verified. -/
theorem unverified_password_replaced :
    ¬ ∀ s h t, (passwordSystem Example.verify).init s → (passwordSystem Example.verify).Run s h t →
      ∀ write verified replaced, .wrote write (some verified) replaced ∈ answers h → replaced = some verified := by
  intro hall
  have hrun : (passwordSystem Example.verify).Allows Example.start Example.overtaken := by decide
  have hwrote : .wrote 1 (some (Example.hashed "old")) (some (Example.hashed "other")) ∈
      answers ((passwordSystem Example.verify).history Example.start Example.overtaken) := by decide
  have hsame := hall _ _ _ Example.start_ok hrun.run 1 _ _ hwrote
  exact absurd (Option.some.inj hsame) (by decide)

theorem password_links_ok_completed :
    (answers ((passwordSystem Example.verify).history Example.start Example.completed)).countP (·.Completes 0) = 1 ∧
      Fresh [.done, .issued 0 1000] 0 1000 := by
  have hrun : ((passwordSystem Example.verify).when Undisturbed).Allows Example.start Example.completed := by
    decide
  have hanswers : answers ((passwordSystem Example.verify).history Example.start Example.completed) =
      [.done, .issued 0 1000] ++ .completed 0 1000 0 :: [] := by decide
  obtain ⟨hcompleted, honce, -⟩ := password_links_ok Example.start_ok hrun.run
  exact ⟨Nat.le_antisymm (honce 0) (by rw [hanswers]; decide), (hcompleted _ _ _ _ _ hanswers).2⟩

end Catalyst.Passwords
