import Catalyst.Closing.Model

/-!
# What a mark closes

A write holds the rows that say whose its conversation is, and those of the users it looked at,
until it is committed: no move and no mark of them is committed in between. It does not look at
the user of a personal workspace who did not create the conversation, nor at the user whose run
makes it unless it names that user.
-/

namespace Catalyst.Closing

open Library Library.Processes

variable {Id : Type} [LinearOrder Id] {db db' : Db Id} {w : Writing Id} {place : Place Id} {locked rest : List Id} {marked : Bool}

-- -----------------
-- What is closed
-- -----------------

/-- Whose conversation it is: its creator's when it is private, and in a personal workspace that
of the workspace's user and its creator. -/
def Place.belongsTo (place : Place Id) : List Id :=
  (if place.conversation.visibility = .private then [place.conversation.createdByUserId] else []) ++
    match place.workspace.kind with
    | .shared => []
    | .personal personalUserId => [personalUserId, place.conversation.createdByUserId]

def Db.Accepts (db : Db Id) (w : Written Id) : Prop :=
  ∃ c ∈ db.conversation? w.conversationId, c.active = true ∧
    ∃ workspace ∈ db.workspace? c.collaborationWorkspaceId, workspace.deletionRequested = false ∧
      (∀ u ∈ Place.belongsTo ⟨c, workspace⟩, ¬ db.UserMarked u) ∧ ∀ u ∈ w.madeFor, ¬ db.UserMarked u

instance (w : Written Id) : Decidable (db.Accepts w) := by
  unfold Db.Accepts
  infer_instance

/-- The users that the write looked at are all that a mark may concern: of the workspace's user and
of the user whose run writes, the one who is marked was looked at. -/
def Place.Concerns (place : Place Id) (db : Db Id) (w : Writing Id) : Prop :=
  ∀ u ∈ place.belongsTo ++ w.madeFor.toList, u ∈ place.userIds w.runOwnerUserId ∨ ¬ db.UserMarked u

instance : Decidable (place.Concerns db w) := inferInstanceAs (Decidable (∀ u ∈ _, _))

def Going.MayCommit (db : Db Id) : Going Id → Prop
  | writing w place _ => place.Concerns db w
  | _ => True

instance (g : Going Id) : Decidable (g.MayCommit db) := by
  unfold Going.MayCommit
  split <;> infer_instance

def LooksAtOwners (s : ClosingPool Id) : ClosingMove Id → Prop
  | .advance pid => ∀ g ∈ s.at? pid, g.MayCommit s.store
  | _ => True

instance (s : ClosingPool Id) : DecidablePred (LooksAtOwners s)
  | .advance pid => inferInstanceAs (Decidable (∀ g ∈ s.at? pid, g.MayCommit s.store))
  | .start _ | .abort _ | .env _ => .isTrue trivial

theorem Row.lt_of_table {a b : Row Id} (h : (ofLex a.key).1 < (ofLex b.key).1) : a < b :=
  Prod.Lex.lt_iff.mpr (.inl h)

theorem Row.user_lt {u v : Id} (h : u < v) : Row.user u < Row.user v := Prod.Lex.lt_iff.mpr (.inr ⟨rfl, h⟩)

theorem Row.workspace_lt {v v' : Id} (h : v < v') : Row.workspace v < Row.workspace v' :=
  Prod.Lex.lt_iff.mpr (.inr ⟨rfl, h⟩)

structure Taking (locked rest : List Id) : Prop where
  sorted : rest.Pairwise (· < ·)
  after : ∀ u ∈ locked, ∀ v ∈ rest, u < v

theorem sorted_lt (l : List Id) : (l.dedup.mergeSort (· ≤ ·)).Pairwise (· < ·) := by
  have htrans : ∀ a b c : Id, decide (a ≤ b) = true → decide (b ≤ c) = true → decide (a ≤ c) = true := fun a b c h h' =>
    decide_eq_true (le_trans (of_decide_eq_true h) (of_decide_eq_true h'))
  have htotal : ∀ a b : Id, (decide (a ≤ b) || decide (b ≤ a)) = true := fun a b => by
    simp only [Bool.or_eq_true, decide_eq_true_eq]
    exact le_total a b
  have hle := List.pairwise_mergeSort htrans htotal l.dedup
  have hne : (l.dedup.mergeSort (· ≤ ·)).Nodup := (List.mergeSort_perm _ _).nodup_iff.mpr l.nodup_dedup
  exact (hle.and hne).imp fun h => lt_of_le_of_ne (of_decide_eq_true h.1) h.2

theorem Taking.begin (h : rest.Pairwise (· < ·)) : Taking [] rest := ⟨h, by simp⟩

theorem Taking.take {u : Id} (h : Taking locked (u :: rest)) : Taking (locked ++ [u]) rest where
  sorted := h.sorted.of_cons
  after v hv v' hv' := by
    rcases List.mem_append.mp hv with hv | hv
    · exact h.after v hv v' (List.mem_cons_of_mem _ hv')
    · exact List.mem_singleton.mp hv ▸ List.rel_of_pairwise_cons h.sorted hv'

theorem Taking.skip {u : Id} (h : Taking locked (u :: rest)) : Taking locked rest :=
  ⟨h.sorted.of_cons, fun v hv v' hv' => h.after v hv v' (List.mem_cons_of_mem _ hv')⟩

def Going.Takes : Going Id → Prop
  | .lockingUsers _ _ locked _ rest | .lockingOwned _ locked rest => Taking locked rest
  | _ => True

omit [LinearOrder Id] in
theorem mem_ownedLocks {l : RowLock (Row Id)} : l ∈ ownedLocks locked ↔ ∃ v ∈ locked, l = ⟨.workspace v, .update⟩ := by
  simp only [ownedLocks, List.mem_map, eq_comm]

omit [LinearOrder Id] in
theorem Place.mem_locks {l : RowLock (Row Id)} :
    l ∈ place.locks w locked ↔ l ∈ claimLocks w.claim ∨ l = ⟨.conversation w.conversationId, .update⟩ ∨
      l = ⟨.workspace place.conversation.collaborationWorkspaceId, .share⟩ ∨ ∃ u ∈ locked, l = ⟨.user u, .share⟩ := by
  simp only [Place.locks, Writing.locks, List.mem_append, List.mem_cons, List.not_mem_nil, or_false, List.mem_map, or_assoc,
    eq_comm (a := l)]

theorem claimLocks_lt {l : RowLock (Row Id)} {claim : Option (ClaimedRun Id)} (hl : l ∈ claimLocks claim) {r : Row Id}
    (hr : 2 ≤ (ofLex r.key).1) : l.row < r := by
  cases claim with
  | none => exact absurd hl List.not_mem_nil
  | some claim =>
    simp only [claimLocks, List.mem_cons, List.not_mem_nil, or_false] at hl
    rcases hl with rfl | rfl
    · exact Row.lt_of_table (lt_of_lt_of_le Nat.two_pos hr)
    · exact Row.lt_of_table (lt_of_lt_of_le Nat.one_lt_two hr)

theorem ordered_of_takes {g : Going Id} (h : g.Takes) : rowLocking.Ordered g := by
  intro k hk l hl
  cases g with
  | lockingRun claim c content =>
    cases Option.mem_some.mp hk
    obtain rfl := List.mem_singleton.mp hl
    exact Row.lt_of_table Nat.zero_lt_one
  | lockingConversation w =>
    cases Option.mem_some.mp hk
    exact claimLocks_lt hl (Nat.le_refl 2)
  | lockingWorkspace w c =>
    cases Option.mem_some.mp hk
    rcases List.mem_append.mp hl with hl | hl
    · exact claimLocks_lt hl (by decide : 2 ≤ 3)
    · obtain rfl := List.mem_singleton.mp hl
      exact Row.lt_of_table (by decide : 2 < 3)
  | lockingUsers w place locked marked rest =>
    cases rest with
    | nil => exact absurd hk (Option.not_mem_none _)
    | cons u rest =>
      cases Option.mem_some.mp hk
      rcases Place.mem_locks.mp hl with hl | rfl | rfl | ⟨v, hv, rfl⟩
      · exact claimLocks_lt hl (by decide : 2 ≤ 4)
      · exact Row.lt_of_table (by decide : 2 < 4)
      · exact Row.lt_of_table (by decide : 3 < 4)
      · exact Row.user_lt (h.after v hv u List.mem_cons_self)
  | checkingWorkspace m =>
    cases Option.mem_some.mp hk
    obtain rfl := List.mem_singleton.mp hl
    exact Row.lt_of_table (by decide : 2 < 3)
  | lockingOwned u locked rest =>
    cases rest with
    | nil => exact absurd hk (Option.not_mem_none _)
    | cons v rest =>
      cases Option.mem_some.mp hk
      obtain ⟨v', hv', rfl⟩ := mem_ownedLocks.mp hl
      exact Row.workspace_lt (h.after v' hv' v List.mem_cons_self)
  | updatingUser u locked =>
    cases Option.mem_some.mp hk
    obtain ⟨v, -, rfl⟩ := mem_ownedLocks.mp hl
    exact Row.lt_of_table (by decide : 3 < 4)
  | lockingJob | updatingConversation | listingOwned | updatingWorkspace => exact absurd hl List.not_mem_nil
  | writing | committingMove | checkingOwners | committingUser | committingWorkspace =>
    exact absurd hk (Option.not_mem_none _)

structure Writing.On (db : Db Id) (w : Writing Id) (c : Conversation Id) : Prop where
  conversation : db.conversation? w.conversationId = some c
  active : c.active = true

structure Place.Ok (db : Db Id) (w : Writing Id) (place : Place Id) (locked : List Id) (marked : Bool) (rest : List Id) :
    Prop where
  on : w.On db place.conversation
  workspace : db.workspace? place.conversation.collaborationWorkspaceId = some place.workspace
  unmarked : place.workspace.deletionRequested = false
  users : marked = false → ∀ u ∈ place.userIds w.runOwnerUserId, u ∉ rest →
    ¬ db.UserMarked u ∧ (u ∈ locked ∨ db.user? u = none)

def Going.Relies (db : Db Id) : Going Id → Prop
  | lockingWorkspace w c => w.On db c
  | lockingUsers w place locked marked rest => place.Ok db w locked marked rest
  | writing w place locked => place.Ok db w locked false []
  | _ => True

structure Frame (db db' : Db Id) (g : Going Id) : Prop where
  conversation : ∀ c, ⟨.conversation c, .update⟩ ∈ g.holds → db'.conversation? c = db.conversation? c
  workspace : ∀ v, ⟨.workspace v, .share⟩ ∈ g.holds → db'.workspace? v = db.workspace? v
  user : ∀ u, ⟨.user u, .share⟩ ∈ g.holds → db'.UserMarked u → db.UserMarked u
  users : ∀ u, db.user? u = none → db'.user? u = none

theorem Db.not_marked_of_none {u : Id} (h : db.user? u = none) : ¬ db.UserMarked u := by
  rintro ⟨user, hu, -⟩
  exact absurd hu (h ▸ Option.not_mem_none _)

theorem Place.Ok.frame (hp : place.Ok db w locked marked rest) {g : Going Id} (hg : g.holds = place.locks w locked)
    (hf : Frame db db' g) : place.Ok db' w locked marked rest where
  on := ⟨(hf.conversation _ (by rw [hg]; exact Place.mem_locks.mpr (by simp))).trans hp.on.conversation, hp.on.active⟩
  workspace := (hf.workspace _ (by rw [hg]; exact Place.mem_locks.mpr (by simp))).trans hp.workspace
  unmarked := hp.unmarked
  users hm u hu hrest := by
    obtain ⟨hmarked, hlocked | hnone⟩ := hp.users hm u hu hrest
    · have hmem : ⟨.user u, .share⟩ ∈ g.holds := by
        rw [hg]
        exact Place.mem_locks.mpr (.inr (.inr (.inr ⟨u, hlocked, rfl⟩)))
      exact ⟨fun h => hmarked (hf.user u hmem h), .inl hlocked⟩
    · exact ⟨Db.not_marked_of_none (hf.users u hnone), .inr (hf.users u hnone)⟩

theorem Going.Relies.frame {g : Going Id} (hg : g.Relies db) (hf : Frame db db' g) : g.Relies db' := by
  cases g with
  | lockingWorkspace w c =>
    exact ⟨(hf.conversation _ (by simp [Going.holds, Writing.locks])).trans hg.conversation, hg.active⟩
  | lockingUsers w place locked marked rest => exact Place.Ok.frame hg rfl hf
  | writing w place locked => exact Place.Ok.frame hg rfl hf
  | _ => trivial

theorem Db.conversation?_move_ne {c c' v : Id} {visibility : ConversationVisibility} (h : c ≠ c') :
    (db.move c v visibility).conversation? c' = db.conversation? c' := find?_updateWhere_key_ne (fun _ => rfl) h

theorem Db.workspace?_markWorkspace {v v' : Id} : (db.markWorkspace v).workspace? v' =
    (db.workspace? v').map fun r => if v = v' then { r with deletionRequested := true } else r :=
  find?_updateWhere_key fun _ => rfl

theorem Db.user?_markUser {u u' : Id} : (db.markUser u).user? u' =
    (db.user? u').map fun r => if u = u' then { r with deletionRequested := true } else r :=
  find?_updateWhere_key fun _ => rfl

theorem Db.UserMarked.markUser {u u' : Id} (h : db.UserMarked u') : (db.markUser u).UserMarked u' := by
  obtain ⟨user, hu, hm⟩ := h
  rw [UserMarked, user?_markUser, Option.mem_def.mp hu]
  refine ⟨_, rfl, ?_⟩
  split
  · rfl
  · exact hm

theorem Db.WorkspaceMarked.markWorkspace {v v' : Id} (h : db.WorkspaceMarked v') :
    (db.markWorkspace v).WorkspaceMarked v' := by
  obtain ⟨workspace, hw, hm⟩ := h
  rw [WorkspaceMarked, workspace?_markWorkspace, Option.mem_def.mp hw]
  refine ⟨_, rfl, ?_⟩
  split
  · rfl
  · exact hm

theorem Db.userMarked_markUser_ne {u u' : Id} (hne : u ≠ u') (h : (db.markUser u).UserMarked u') : db.UserMarked u' := by
  simpa [UserMarked, user?_markUser, hne] using h

-- -----------------
-- Steps
-- -----------------

def Going.Commits : Going Id → Prop
  | writing _ _ _ | committingMove _ | committingUser _ _ | committingWorkspace _ => True
  | _ => False

/-- A step that changes no row: the transaction ends, or goes on where `P` says. -/
inductive Reads (db : Db Id) (P : Going Id → Prop) : StepResult Id → Prop
  | ends (h : answer ≠ .written) : Reads db P (ends db answer)
  | goesTo (h : P g) : Reads db P (goesTo db g)

omit [LinearOrder Id] in
theorem Reads.refuses {P : Going Id → Prop} (why : Refusal Id) : Reads db P (refuses db why) := .ends nofun

structure Next (db : Db Id) (g g' : Going Id) : Prop where
  relies : g'.Relies db
  takes : g'.Takes
  holds : ∀ l ∈ g'.holds, l ∈ g.holds ∨ l ∈ g.wants

theorem locksJob_reads (claim : ClaimedRun Id) (c : Id) (content : String) :
    Reads db (Next db (.lockingJob claim c content)) (locksJob db claim c content) := by
  unfold locksJob
  split
  · exact .goesTo ⟨trivial, trivial, fun l hl => .inr (by simpa [Going.holds, Going.wants, eq_comm] using hl)⟩
  · exact .refuses _

theorem locksRun_reads (claim : ClaimedRun Id) (c : Id) (content : String) :
    Reads db (Next db (.lockingRun claim c content)) (locksRun db claim c content) := by
  unfold locksRun
  split
  · exact .refuses _
  · split
    · exact .refuses _
    · refine .goesTo ⟨trivial, trivial, fun l hl => ?_⟩
      simpa [Going.holds, Going.wants, claimLocks, eq_comm] using hl

theorem lockActiveConversation_reads (w : Writing Id) :
    Reads db (Next db (.lockingConversation w)) (lockActiveConversation db w) := by
  unfold lockActiveConversation
  split
  · exact .refuses _
  · rename_i c hc
    split
    · rename_i hactive
      refine .goesTo ⟨⟨hc, hactive⟩, trivial, fun l hl => ?_⟩
      simpa [Going.holds, Going.wants, Writing.locks, eq_comm] using hl
    · exact .refuses _

theorem readPlace_reads {c : Conversation Id} (hon : w.On db c) :
    Reads db (Next db (.lockingWorkspace w c)) (readPlace db w c) := by
  unfold readPlace
  split
  · exact .refuses _
  · rename_i workspace hw
    split
    · exact .refuses _
    · rename_i hmarked
      refine .goesTo ⟨⟨hon, hw, Bool.not_eq_true _ ▸ hmarked, fun _ u hu hrest => absurd hu hrest⟩,
        .begin (sorted_lt _), fun l hl => ?_⟩
      simpa [Going.holds, Going.wants, Place.locks, eq_comm] using hl

theorem locksUsers_reads (hp : place.Ok db w locked marked rest) (ht : Taking locked rest) :
    Reads db (Next db (.lockingUsers w place locked marked rest)) (locksUsers db w place locked marked rest) := by
  unfold locksUsers
  split
  · split
    · exact .refuses _
    · rename_i hmarked
      obtain rfl : marked = false := Bool.not_eq_true _ ▸ hmarked
      exact .goesTo ⟨hp, trivial, fun l hl => .inl hl⟩
  · rename_i u rest
    have hpassed : ∀ v ∈ place.userIds w.runOwnerUserId, v ∉ rest → v = u ∨ v ∉ u :: rest := fun v _ hv => by
      by_cases h : v = u
      · exact .inl h
      · exact .inr (by simp [h, hv])
    split
    · rename_i hnone
      refine .goesTo ⟨⟨hp.on, hp.workspace, hp.unmarked, fun hm v hv hrest => ?_⟩, ht.skip, fun l hl => .inl hl⟩
      rcases hpassed v hv hrest with rfl | h
      · exact ⟨Db.not_marked_of_none hnone, .inr hnone⟩
      · exact hp.users hm v hv h
    · rename_i user huser
      refine .goesTo ⟨⟨hp.on, hp.workspace, hp.unmarked, fun hm v hv hrest => ?_⟩, ht.take, fun l hl => ?_⟩
      · obtain ⟨hm, hunmarked⟩ : marked = false ∧ user.deletionRequested = false := by simpa using hm
        rcases hpassed v hv hrest with rfl | h
        · refine ⟨fun hmarked => ?_, .inl (by simp)⟩
          obtain ⟨user', huser', hm'⟩ := hmarked
          rw [huser, Option.mem_some] at huser'
          exact absurd (huser' ▸ hm') (by simp [hunmarked])
        · obtain ⟨hnot, hlocked⟩ := hp.users hm v hv h
          exact ⟨hnot, hlocked.imp_left (List.mem_append_left _)⟩
      · rcases Place.mem_locks.mp hl with h | h | h | ⟨v, hv, rfl⟩
        · exact .inl (Place.mem_locks.mpr (.inl h))
        · exact .inl (Place.mem_locks.mpr (.inr (.inl h)))
        · exact .inl (Place.mem_locks.mpr (.inr (.inr (.inl h))))
        · rcases List.mem_append.mp hv with hv | hv
          · exact .inl (Place.mem_locks.mpr (.inr (.inr (.inr ⟨v, hv, rfl⟩))))
          · exact .inr (by simp [Going.wants, List.mem_singleton.mp hv])

theorem updatesConversation_reads (m : Moving Id) :
    Reads db (Next db (.updatingConversation m)) (updatesConversation db m) := by
  unfold updatesConversation
  split
  · exact .refuses _
  · split
    · refine .goesTo ⟨trivial, trivial, fun l hl => .inr ?_⟩
      simpa [Going.holds, Going.wants, eq_comm] using hl
    · exact .refuses _

theorem checksWorkspace_reads (m : Moving Id) : Reads db (Next db (.checkingWorkspace m)) (checksWorkspace db m) := by
  unfold checksWorkspace
  split
  · exact .refuses _
  · refine .goesTo ⟨trivial, trivial, fun l hl => ?_⟩
    simpa [Going.holds, Going.wants, eq_comm] using hl

theorem updatesUser_reads (u : Id) (locked : List Id) :
    Reads db (Next db (.updatingUser u locked)) (updatesUser db u locked) := by
  unfold updatesUser
  split
  · exact .refuses _
  · split
    · exact .ends nofun
    · refine .goesTo ⟨trivial, trivial, fun l hl => ?_⟩
      simpa [Going.holds, Going.wants, eq_comm] using hl

theorem updatesWorkspace_reads (v : Id) : Reads db (Next db (.updatingWorkspace v)) (updatesWorkspace db v) := by
  unfold updatesWorkspace
  split
  · exact .refuses _
  · split
    · exact .refuses _
    · split
      · exact .ends nofun
      · refine .goesTo ⟨trivial, trivial, fun l hl => .inr ?_⟩
        simpa [Going.holds, Going.wants, eq_comm] using hl

theorem lockingOwned_reads (u : Id) (ht : Taking locked rest) :
    Reads db (Next db (.lockingOwned u locked rest)) (step db (.lockingOwned u locked rest)) := by
  cases rest with
  | nil => exact .goesTo ⟨trivial, trivial, fun l hl => .inl hl⟩
  | cons v rest =>
    simp only [step]
    split
    · refine .goesTo ⟨trivial, ht.take, fun l hl => ?_⟩
      simpa [Going.holds, Going.wants, ownedLocks, or_comm, eq_comm] using hl
    · exact .goesTo ⟨trivial, ht.skip, fun l hl => .inl hl⟩

theorem checkingOwners_reads (u : Id) (locked : List Id) :
    Reads db (Next db (.checkingOwners u locked)) (step db (.checkingOwners u locked)) := by
  simp only [step]
  split
  · exact .refuses _
  · exact .goesTo ⟨trivial, trivial, fun l hl => .inl hl⟩

theorem step_reads {g : Going Id} (hg : g.Relies db) (ht : g.Takes) (hc : ¬ g.Commits) :
    Reads db (Next db g) (step db g) := by
  cases g with
  | lockingJob claim c content => exact locksJob_reads claim c content
  | lockingRun claim c content => exact locksRun_reads claim c content
  | lockingConversation w => exact lockActiveConversation_reads w
  | lockingWorkspace w c => exact readPlace_reads hg
  | lockingUsers w place locked marked rest => exact locksUsers_reads hg ht
  | updatingConversation m => exact updatesConversation_reads m
  | checkingWorkspace m => exact checksWorkspace_reads m
  | listingOwned u => exact .goesTo ⟨trivial, .begin (sorted_lt _), fun l hl => absurd hl List.not_mem_nil⟩
  | lockingOwned u locked rest => exact lockingOwned_reads u ht
  | checkingOwners u locked => exact checkingOwners_reads u locked
  | updatingUser u locked => exact updatesUser_reads u locked
  | updatingWorkspace v => exact updatesWorkspace_reads v
  | writing | committingMove | committingUser | committingWorkspace => exact absurd trivial hc

omit [LinearOrder Id] in
theorem Reads.db_eq {P : Going Id → Prop} {r : StepResult Id} (h : Reads db P r) : r.2.2 = db := by
  cases h <;> rfl

omit [LinearOrder Id] in
theorem Reads.next {P : Going Id → Prop} {r : StepResult Id} (h : Reads db P r) : ∀ g ∈ r.2.1, P g := by
  cases h with
  | ends => exact fun g hg => absurd hg (Option.not_mem_none _)
  | goesTo h => exact fun g hg => Option.mem_some.mp hg ▸ h

theorem commits_ends {g : Going Id} (h : g.Commits) : (step db g).2.1 = none := by
  cases g <;> first | rfl | exact h.elim

theorem commits_frame {g q : Going Id} (hc : g.Commits) (hapart : rowLocking.Apart g q) : Frame db (step db g).2.2 q := by
  cases g with
  | writing w place locked => exact ⟨fun _ _ => rfl, fun _ _ => rfl, fun _ _ hm => hm, fun _ hn => hn⟩
  | committingMove m =>
    refine ⟨fun c hc => Db.conversation?_move_ne ?_, fun _ _ => rfl, fun _ _ hm => hm, fun _ hn => hn⟩
    rintro rfl
    exact hapart ⟨.conversation m.conversationId, .noKeyUpdate⟩ (by simp [rowLocking, Going.holds]) _ hc ⟨rfl, trivial⟩
  | committingUser u locked =>
    refine ⟨fun _ _ => rfl, fun _ _ => rfl, fun u' hu' hm => Db.userMarked_markUser_ne ?_ hm, fun u' hn => ?_⟩
    · rintro rfl
      exact hapart ⟨.user u, .noKeyUpdate⟩ (by simp [rowLocking, Going.holds]) _ hu' ⟨rfl, trivial⟩
    · show (db.markUser u).user? u' = none
      rw [Db.user?_markUser, hn]
      rfl
  | committingWorkspace v =>
    refine ⟨fun _ _ => rfl, fun v' hv' => ?_, fun _ _ hm => hm, fun _ hn => hn⟩
    have hne : v ≠ v' := by
      rintro rfl
      exact hapart ⟨.workspace v, .noKeyUpdate⟩ (by simp [rowLocking, Going.holds]) _ hv' ⟨rfl, trivial⟩
    show (db.markWorkspace v).workspace? v' = db.workspace? v'
    simp [Db.workspace?_markWorkspace, hne]
  | _ => exact hc.elim

theorem step_frame {g q : Going Id} (hg : g.Relies db) (ht : g.Takes) (hapart : rowLocking.Apart g q) :
    Frame db (step db g).2.2 q := by
  by_cases hc : g.Commits
  · exact commits_frame hc hapart
  · rw [(step_reads hg ht hc).db_eq]
    exact ⟨fun _ _ => rfl, fun _ _ => rfl, fun _ _ hm => hm, fun _ hn => hn⟩

theorem Place.Ok.accepts (hp : place.Ok db w locked false []) (hc : place.Concerns db w) :
    db.Accepts ⟨w.conversationId, w.madeFor, w.content⟩ := by
  have hlooked : ∀ u ∈ place.belongsTo ++ w.madeFor.toList, ¬ db.UserMarked u := fun u hu => by
    rcases hc u hu with h | h
    · exact (hp.users rfl u h List.not_mem_nil).1
    · exact h
  exact ⟨_, hp.on.conversation, hp.on.active, _, hp.workspace, hp.unmarked,
    fun u hu => hlooked u (List.mem_append_left _ hu),
    fun u hu => hlooked u (List.mem_append_right _ (Option.mem_toList.mpr hu))⟩

def closing : Assertions (Db Id) (Going Id) (Answer Id) where
  holds _ _ := True
  relies _ db g := g.Relies db ∧ g.Takes
  apart := rowLocking.Apart

omit [LinearOrder Id] in
theorem start_holds (c : Call Id) : (start c).holds = [] := by
  cases c with
  | requestAccountDeletion u alreadyRequested => cases alreadyRequested <;> rfl
  | _ => rfl

theorem start_relies (c : Call Id) : (start c).Relies db ∧ (start c).Takes := by
  cases c with
  | requestAccountDeletion u alreadyRequested => cases alreadyRequested <;> exact ⟨trivial, trivial⟩
  | _ => exact ⟨trivial, trivial⟩

theorem closing_inductive : (@closingCalls Id _).Inductive closing fun _ _ => True where
  symm p q h := Locking.Apart.symm h
  start log s c hs ha := by
    refine ⟨start_relies c, fun q l hl => ?_⟩
    have hl' : l ∈ (start c).holds := hl
    exact absurd (start_holds c ▸ hl') List.not_mem_nil
  step log s pid g hs ha hat hrelies hothers := by
    obtain ⟨hg, ht⟩ := hrelies
    refine ⟨⟨trivial, fun q hq hr => ?_⟩, fun g' hg' => ?_⟩
    · exact ⟨hr.1.frame (step_frame hg ht hq.1), hr.2⟩
    · by_cases hc : g.Commits
      · exact absurd hg' (commits_ends hc ▸ Option.not_mem_none _)
      · have hreads := step_reads hg ht hc
        have hnext : Next s.store g g' := hreads.next g' hg'
        have hdb : (step s.store g).2.2 = s.store := hreads.db_eq
        exact ⟨⟨hdb.symm ▸ hnext.relies, hnext.takes⟩, fun q _ hap hb => hap.step hb hnext.holds⟩
  env log s e := e.elim

/-- What a step of a run does: a write is committed only where no mark closes the conversation for
it, a refused call changes nothing, and no mark is taken back. -/
structure StepOk (s : ClosingPool Id) (a : ClosingMove Id) : Prop where
  written : (closingSystem.next s a).store.written = s.store.written ∨
    ∃ w, s.store.Accepts w ∧ closingSystem.answer s a = some .written ∧
      (closingSystem.next s a).store = s.store.write w
  refused : ∀ why, closingSystem.answer s a = some (.refused why) → (closingSystem.next s a).store = s.store
  users : ∀ u, s.store.UserMarked u → (closingSystem.next s a).store.UserMarked u
  workspaces : ∀ v, s.store.WorkspaceMarked v → (closingSystem.next s a).store.WorkspaceMarked v

theorem StepOk.of_same {s : ClosingPool Id} {a : ClosingMove Id} (h : (closingSystem.next s a).store = s.store) :
    StepOk s a :=
  ⟨.inl (by rw [h]), fun _ _ => h, fun _ hm => h.symm ▸ hm, fun _ hm => h.symm ▸ hm⟩

theorem StepOk.of_commit {s : ClosingPool Id} {a : ClosingMove Id} {answer : Answer Id}
    (hnext : (closingSystem.next s a).store = db') (hanswer : closingSystem.answer s a = some answer)
    (hrefused : ∀ why, answer ≠ .refused why)
    (hw : db'.written = s.store.written ∨ ∃ w, s.store.Accepts w ∧ answer = .written ∧ db' = s.store.write w)
    (hu : ∀ u, s.store.UserMarked u → db'.UserMarked u) (hv : ∀ v, s.store.WorkspaceMarked v → db'.WorkspaceMarked v) :
    StepOk s a where
  written := by
    rw [hnext]
    exact hw.imp_right fun ⟨w, hacc, hans, hdb⟩ => ⟨w, hacc, hans ▸ hanswer, hdb⟩
  refused why h := absurd (Option.some.inj (hanswer.symm.trans h)) (hrefused why)
  users u hm := by
    rw [hnext]
    exact hu u hm
  workspaces v hm := by
    rw [hnext]
    exact hv v hm

theorem closing_step_ok {s : ClosingPool Id} {a : ClosingMove Id} (hs : closing.Ok log s) (hl : LooksAtOwners s a) :
    StepOk s a := by
  cases a with
  | start c => exact .of_same rfl
  | abort pid => exact .of_same rfl
  | env e => exact e.elim
  | advance pid =>
    cases hat : s.at? pid with
    | none => exact .of_same (by simp [Machine.next, closingSystem, machine, move, advance, hat])
    | some g =>
      obtain ⟨hg, ht⟩ : g.Relies s.store ∧ g.Takes := hs.relies _ (at?_mem hat)
      have hnext : (closingSystem.next s (.advance pid)).store = (step s.store g).2.2 := by
        simp [Machine.next, closingSystem, machine, move, advance, hat, closingCalls]
      have hanswer : closingSystem.answer s (.advance pid) = (step s.store g).1 := by
        simp [Machine.answer, closingSystem, machine, move, advance, hat, closingCalls]
      by_cases hc : g.Commits
      · cases g with
        | writing w place locked =>
          have haccepts := Place.Ok.accepts hg (hl _ hat)
          exact .of_commit hnext hanswer (by rintro _ ⟨⟩) (.inr ⟨_, haccepts, rfl, rfl⟩) (fun _ hm => hm) fun _ hm => hm
        | committingMove m => exact .of_commit hnext hanswer (by rintro _ ⟨⟩) (.inl rfl) (fun _ hm => hm) fun _ hm => hm
        | committingUser u locked =>
          exact .of_commit hnext hanswer (by rintro _ ⟨⟩) (.inl rfl) (fun _ hm => hm.markUser) fun _ hm => hm
        | committingWorkspace v =>
          exact .of_commit hnext hanswer (by rintro _ ⟨⟩) (.inl rfl) (fun _ hm => hm) fun _ hm => hm.markWorkspace
        | _ => exact hc.elim
      · exact .of_same (hnext.trans (step_reads hg ht hc).db_eq)

/-- In whatever order they go, no cycle of these transactions waits, and where no mark is overlooked
every write is committed before the marks that close its conversation, or refused. -/
theorem marks_close_ok {s : ClosingPool Id} (hi : closingSystem.init s) :
    (∀ h t, closingSystem.Run s h t → rowLocking.Free t) ∧
    ∀ h t, (closingSystem.when LooksAtOwners).Run s h t → (closingSystem.when StepOk).Run s h t := by
  have hinit : closing.Ok [] s := .of_idle hi.2.1 trivial
  constructor
  · intro h t hr
    have hok := closing_inductive.run_ok hr hinit
    exact Locking.free_of_ordered hok.pids fun p hp => ordered_of_takes (hok.relies p hp).2
  · intro h t hr
    exact closing_inductive.run_when_of (fun log s a hs _ hl => closing_step_ok hs hl) hr hinit

namespace Example

def alice : ProductUser Nat := ⟨1, false, false⟩
def bob : ProductUser Nat := ⟨2, false, false⟩

def team : CollaborationWorkspace Nat := ⟨10, .shared, false⟩
def ofBob : CollaborationWorkspace Nat := ⟨12, .personal 2, false⟩

def moved : Conversation Nat := ⟨30, 12, 1, .workspace, true⟩

def priv : Conversation Nat := ⟨31, 10, 1, .private, true⟩

def rows : Db Nat := ⟨[moved, priv], [team, ofBob], [alice, bob], [⟨10, 1, .member⟩, ⟨10, 2, .member⟩], [], [], []⟩

def fresh : ClosingPool Nat := ⟨rows, [], 0⟩

def overlooked : List (ClosingMove Nat) :=
  .start (.requestAccountDeletion 2 false) :: List.replicate 5 (.advance 0) ++
    .start (.write 30 (some 2) "artifact") :: List.replicate 4 (.advance 1)

def closes : List (ClosingMove Nat) :=
  .start (.write 31 (some 1) "before") :: List.replicate 4 (.advance 0) ++
    .start (.requestAccountDeletion 1 false) :: List.replicate 3 (.advance 1) ++ [.advance 0] ++
    List.replicate 2 (.advance 1) ++ .start (.write 31 (some 1) "after") :: List.replicate 4 (.advance 2)

instance (p q : Going Nat) : Decidable ((@closingCalls Nat _).blocks p q) :=
  inferInstanceAs (Decidable (rowLocking.Blocks p q))

instance (s : ClosingPool Nat) (a : ClosingMove Nat) : Decidable (closingSystem.enabled s a) :=
  inferInstanceAs (Decidable (closingCalls.Unblocked s a ∧ True))

instance (s : ClosingPool Nat) (a : ClosingMove Nat) : Decidable ((closingSystem.when LooksAtOwners).enabled s a) :=
  inferInstanceAs (Decidable (closingSystem.enabled s a ∧ LooksAtOwners s a))

end Example

/-- The first write is stored, and the second one refused. -/
theorem marks_close_ok_closes : closingSystem.init Example.fresh ∧
    (∃ h, (closingSystem.when LooksAtOwners).Run Example.fresh h (closingSystem.after Example.fresh Example.closes) ∧
      answers h = [.written, .marked true, .refused .noLongerAccepts] ∧
      (closingSystem.when StepOk).Run Example.fresh h (closingSystem.after Example.fresh Example.closes)) ∧
    rowLocking.Free (closingSystem.after Example.fresh Example.closes) := by
  have hi : closingSystem.init Example.fresh := ⟨trivial, rfl, rfl⟩
  have hallows : (closingSystem.when LooksAtOwners).Allows Example.fresh Example.closes := by with_unfolding_all decide
  exact ⟨hi, ⟨_, hallows.run, by with_unfolding_all decide, (marks_close_ok hi).2 _ _ hallows.run⟩,
    (marks_close_ok hi).1 _ _ hallows.run.of_when⟩

/-- The artifact is stored in the workspace of a user whose deletion was requested, for a run of that user. -/
theorem artifact_after_mark : ∃ h, closingSystem.Run Example.fresh h (closingSystem.after Example.fresh Example.overlooked) ∧
    answers h = [.marked true] ∧ (closingSystem.after Example.fresh Example.overlooked).store.UserMarked 2 ∧
    closingSystem.enabled (closingSystem.after Example.fresh Example.overlooked) (.advance 1) ∧
    closingSystem.answer (closingSystem.after Example.fresh Example.overlooked) (.advance 1) = some .written ∧
    ¬ StepOk (closingSystem.after Example.fresh Example.overlooked) (.advance 1) := by
  have hallows : closingSystem.Allows Example.fresh Example.overlooked := by with_unfolding_all decide
  refine ⟨_, hallows.run, by with_unfolding_all decide, by with_unfolding_all decide, by with_unfolding_all decide,
    by with_unfolding_all decide, ?_⟩
  intro hok
  have hstored : (closingSystem.next (closingSystem.after Example.fresh Example.overlooked) (.advance 1)).store.written =
      [⟨30, some 2, "artifact"⟩] := by with_unfolding_all decide
  have hnone : (closingSystem.after Example.fresh Example.overlooked).store.written = [] := by with_unfolding_all decide
  rcases hok.written with h | ⟨w, haccepts, -, h⟩
  · rw [hstored, hnone] at h
    cases h
  · have hw : w = ⟨30, some 2, "artifact"⟩ := by
      have hwritten := congrArg Db.written h
      rw [hstored, Db.write, hnone] at hwritten
      exact (List.cons.inj hwritten).1.symm
    have hrefuses : ¬ (closingSystem.after Example.fresh Example.overlooked).store.Accepts ⟨30, some 2, "artifact"⟩ := by
      with_unfolding_all decide
    exact hrefuses (hw ▸ haccepts)

end Catalyst.Closing
