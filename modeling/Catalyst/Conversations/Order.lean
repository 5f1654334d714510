import Catalyst.Core
import Catalyst.Library.Keyset
import Catalyst.Library.Processes
import Mathlib

/-!
# The order of a conversation's messages

Whoever appends a message locks the conversation's row first. The row of the message carries the
time of the process that writes it, a number that the database draws when it is inserted and the
id that was made for it. It is seen when the transaction commits.
-/

namespace Catalyst.Conversations.Order

open Library Keyset Processes

variable {ι : Type}

/-- A message as it is handed to an append: its id, ordered by its bytes, and what the clock of the
process shows when it is read. The start of a run may have read it before it waits for the lock. -/
structure NewMessage (ι : Type) where
  id : ι
  createdAt : Time
  deriving DecidableEq

structure MessageRow (ι : Type) where
  message : NewMessage ι
  storageOrdinal : Nat
  /-- Which turn at the conversation's lock it was. No query reads it. -/
  turn : Nat
  deriving DecidableEq

structure Store (ι : Type) where
  rows : List (MessageRow ι)
  /-- The next value of the sequence, which all conversations share. -/
  nextOrdinal : Nat
  turns : Nat
  deriving DecidableEq

section

variable [DecidableEq ι]

inductive Append (ι : Type)
  | waiting (message : NewMessage ι)
  | locked (message : NewMessage ι) (turn : Nat)
  | inserted (row : MessageRow ι)
  deriving DecidableEq

def Append.holdsLock : Append ι → Bool
  | waiting _ => false
  | locked .. | inserted _ => true

/-- One statement of an append. A second row of one id is refused, or left out for an approval's
decision; the sequence has gone on either way. -/
def appendStep (s : Store ι) : Append ι → Option Unit × Option (Append ι) × Store ι
  | .waiting message => (none, some (.locked message s.turns), { s with turns := s.turns + 1 })
  | .locked message turn =>
    let s' := { s with nextOrdinal := s.nextOrdinal + 1 }
    if ∃ row ∈ s.rows, row.message.id = message.id then (none, none, s')
    else (none, some (.inserted ⟨message, s.nextOrdinal, turn⟩), s')
  | .inserted row => (none, none, { s with rows := s.rows ++ [row] })

def appends : Processes (Store ι) (NewMessage ι) (Append ι) Nat Unit where
  start := .waiting
  blocks p q := p.holdsLock = true ∧ q.holdsLock = false
  step := appendStep
  env s drawn := (none, { s with nextOrdinal := s.nextOrdinal + drawn })

instance (p q : Append ι) : Decidable ((appends (ι := ι)).blocks p q) := inferInstanceAs (Decidable (_ ∧ _))

def machine : Machine (Pool (Store ι) (Append ι)) (Move (NewMessage ι) Nat) (Option Unit) :=
  appends.machine (fun s => s.rows = []) fun _ _ => True

instance (s : Pool (Store ι) (Append ι)) (move : Move (NewMessage ι) Nat) : Decidable (machine.enabled s move) :=
  inferInstanceAs (Decidable (appends.Unblocked s move ∧ True))

end

section

variable [LinearOrder ι]

def MessageRow.storageKey (row : MessageRow ι) : Lex (Time × Nat) := toLex (row.message.createdAt, row.storageOrdinal)

/-- The key of `conversations.messages.list` -/
def NewMessage.pageKey (message : NewMessage ι) : Lex (Time × ι) := toLex (message.createdAt, message.id)

def MessageRow.pageKey (row : MessageRow ι) : Lex (Time × ι) := row.message.pageKey

def listMessages (rows : List (MessageRow ι)) : List (MessageRow ι) := ordered MessageRow.storageKey rows

def listRecentMessages (rows : List (MessageRow ι)) (limit : Nat) : List (MessageRow ι) :=
  ((ordered (fun row => OrderDual.toDual row.storageKey) rows).take limit).reverse

def inLockOrder (rows : List (MessageRow ι)) : List (MessageRow ι) := ordered MessageRow.turn rows

structure InOrder (rows : List (MessageRow ι)) : Prop where
  listed : listMessages rows = inLockOrder rows
  recent : ∀ limit, listRecentMessages rows limit = (inLockOrder rows).drop (rows.length - limit)
  paged : ∀ limit, 0 < limit → (∃ pages, Pages MessageRow.pageKey limit (listMessages rows) none pages) ∧
    ∀ pages, Pages MessageRow.pageKey limit (listMessages rows) none pages → pages.flatten = inLockOrder rows

def Advancing (rows : List (MessageRow ι)) : Prop := (inLockOrder rows).Pairwise (MessageRow.pageKey · < MessageRow.pageKey ·)

end

def Inserts (Q : NewMessage ι → NewMessage ι → Prop) (s : Pool (Store ι) (Append ι)) : Move (NewMessage ι) Nat → Prop
  | .advance pid => ∀ message turn, s.at? pid = some (.locked message turn) → ∀ row ∈ s.store.rows, Q row.message message
  | _ => True

def Forward [LinearOrder ι] : Pool (Store ι) (Append ι) → Move (NewMessage ι) Nat → Prop := Inserts fun a b => a.pageKey < b.pageKey

section

variable {Q : NewMessage ι → NewMessage ι → Prop} {s s' : Store ι} {rows : List (MessageRow ι)} {row : MessageRow ι}

structure MessageRow.Before (Q : NewMessage ι → NewMessage ι → Prop) (a b : MessageRow ι) : Prop where
  turn : a.turn < b.turn
  ordinal : a.storageOrdinal < b.storageOrdinal
  id_ne : a.message.id ≠ b.message.id
  related : Q a.message b.message

structure Store.Ok (Q : NewMessage ι → NewMessage ι → Prop) (s : Store ι) : Prop where
  rows : s.rows.Pairwise (MessageRow.Before Q)
  drawn : ∀ row ∈ s.rows, row.turn < s.turns ∧ row.storageOrdinal < s.nextOrdinal

def relies (Q : NewMessage ι → NewMessage ι → Prop) (s : Store ι) : Append ι → Prop
  | .waiting _ => True
  | .locked _ turn => turn < s.turns ∧ ∀ row ∈ s.rows, row.turn < turn
  | .inserted row => row.turn < s.turns ∧ row.storageOrdinal < s.nextOrdinal ∧ ∀ r ∈ s.rows, r.Before Q row

def assertions (Q : NewMessage ι → NewMessage ι → Prop) : Assertions (Store ι) (Append ι) Unit where
  holds _ s := s.Ok Q
  relies _ s t := relies Q s t
  apart p q := p.holdsLock = true → q.holdsLock = false

theorem Store.Ok.grows (h : s.Ok Q) (hrows : s'.rows = s.rows) (hturns : s.turns ≤ s'.turns)
    (hordinal : s.nextOrdinal ≤ s'.nextOrdinal) : s'.Ok Q := by
  refine ⟨hrows ▸ h.rows, fun row hrow => ?_⟩
  obtain ⟨hturn, hdrawn⟩ := h.drawn row (hrows ▸ hrow)
  exact ⟨hturn.trans_le hturns, hdrawn.trans_le hordinal⟩

theorem relies.grows {t : Append ι} (h : relies Q s t) (hrows : s'.rows = s.rows) (hturns : s.turns ≤ s'.turns)
    (hordinal : s.nextOrdinal ≤ s'.nextOrdinal) : relies Q s' t := by
  cases t with
  | waiting message => trivial
  | locked message turn => exact ⟨h.1.trans_le hturns, hrows ▸ h.2⟩
  | inserted row => exact ⟨h.1.trans_le hturns, h.2.1.trans_le hordinal, hrows ▸ h.2.2⟩

theorem relies_of_free {t : Append ι} (h : t.holdsLock = false) : relies Q s t := by
  cases t with
  | waiting message => trivial
  | locked message turn => cases h
  | inserted row => cases h

theorem appends_ok [DecidableEq ι] (Q : NewMessage ι → NewMessage ι → Prop) :
    (appends (ι := ι)).Inductive (assertions Q) (Inserts Q) where
  symm p q h hq := by
    cases hp : p.holdsLock with
    | false => rfl
    | true => exact absurd ((h hp).symm.trans hq) (by decide)
  start log s message hok _ := ⟨trivial, fun q h => by cases h⟩
  step log s pid t hok hallowed hat hrelies hothers := by
    cases t with
    | waiting message =>
      refine ⟨⟨hok.holds.grows rfl (Nat.le_succ _) (Nat.le_refl _), fun q hq hrelies => ?_⟩, ?_⟩
      · exact hrelies.grows rfl (Nat.le_succ _) (Nat.le_refl _)
      · rintro t' ⟨⟩
        refine ⟨⟨Nat.lt_succ_self _, fun row hrow => (hok.holds.drawn row hrow).1⟩, fun q _ _ hblocks _ => ?_⟩
        exact Bool.eq_false_iff.mpr fun hq => hblocks ⟨hq, rfl⟩
    | locked message turn =>
      obtain ⟨hturn, hbefore⟩ := hrelies
      have hgrown : Store.Ok Q { s.store with nextOrdinal := s.store.nextOrdinal + 1 } :=
        hok.holds.grows rfl (Nat.le_refl _) (Nat.le_succ _)
      by_cases hsame : ∃ row ∈ s.store.rows, row.message.id = message.id
      · have hstep : appends.step s.store (.locked message turn) = (none, none, _) := if_pos hsame
        rw [hstep]
        exact ⟨⟨hgrown, fun q hq _ => relies_of_free (hq.1 rfl)⟩, by rintro t' ⟨⟩⟩
      · have hstep : appends.step s.store (.locked message turn) =
            (none, some (.inserted ⟨message, s.store.nextOrdinal, turn⟩), _) := if_neg hsame
        rw [hstep]
        refine ⟨⟨hgrown, fun q hq _ => relies_of_free (hq.1 rfl)⟩, ?_⟩
        rintro t' ⟨⟩
        refine ⟨⟨hturn, Nat.lt_succ_self _, fun r hr => ?_⟩, fun q _ hapart _ => hapart⟩
        exact ⟨hbefore r hr, (hok.holds.drawn r hr).2, fun he => hsame ⟨r, hr, he⟩, hallowed message turn hat r hr⟩
    | inserted row =>
      obtain ⟨hturn, hdrawn, hbefore⟩ := hrelies
      refine ⟨⟨⟨?_, ?_⟩, fun q hq _ => relies_of_free (hq.1 rfl)⟩, by rintro t' ⟨⟩⟩
      · exact List.pairwise_append.mpr ⟨hok.holds.rows, List.pairwise_singleton _ _, fun a ha b hb => by
          rw [List.mem_singleton.mp hb]
          exact hbefore a ha⟩
      · intro r hr
        obtain hr | hr := List.mem_append.mp hr
        · exact hok.holds.drawn r hr
        · rw [List.mem_singleton.mp hr]
          exact ⟨hturn, hdrawn⟩
  env log s drawn hok _ := ⟨hok.holds.grows rfl (Nat.le_refl _) (Nat.le_add_right _ _),
    fun q _ hrelies => hrelies.grows rfl (Nat.le_refl _) (Nat.le_add_right _ _)⟩

theorem run_ok [DecidableEq ι] {s₀ s : Pool (Store ι) (Append ι)} {h : List (Move (NewMessage ι) Nat × Option Unit)}
    (hi : machine.init s₀) (hr : (machine.when (Inserts Q)).Run s₀ h s) : s.store.Ok Q := by
  obtain ⟨hrows, hidle, _⟩ := hi
  have hstart : s₀.store.Ok Q := by
    refine ⟨?_, fun row hrow => ?_⟩
    · rw [hrows]
      exact .nil
    · rw [hrows] at hrow
      cases hrow
  have hok : (assertions Q).Ok [] s₀ := .of_idle hidle hstart
  exact ((appends_ok Q).run_ok (run_of_when appends hr) hok).holds

theorem run_ok_any [DecidableEq ι] {s₀ s : Pool (Store ι) (Append ι)} {h : List (Move (NewMessage ι) Nat × Option Unit)}
    (hi : machine.init s₀) (hr : machine.Run s₀ h s) : s.store.Ok fun _ _ => True := by
  refine run_ok (h := h) hi ?_
  clear hi
  induction hr with
  | nil => exact .nil
  | @cons s move h t hmove _ ih =>
    refine .cons ⟨hmove, ?_⟩ ih
    cases move with
    | advance pid => exact fun _ _ _ _ _ => trivial
    | start | abort | env => trivial

theorem Store.Ok.inLockOrder_eq (h : s.Ok Q) : inLockOrder s.rows = s.rows :=
  ordered_eq_self (h.rows.imp MessageRow.Before.turn)

theorem Store.Ok.storageKeys (h : s.Ok Q) : (s.rows.map MessageRow.storageKey).Nodup :=
  List.pairwise_map.mpr (h.rows.imp fun hab he => by
    have hordinal : _ = _ := congrArg (fun key => (ofLex key).2) he
    exact hab.ordinal.ne hordinal)

theorem Store.Ok.pageKeys (h : s.Ok Q) : (s.rows.map MessageRow.pageKey).Nodup :=
  List.pairwise_map.mpr (h.rows.imp fun hab he => by
    have hid : _ = _ := congrArg (fun key => (ofLex key).2) he
    exact hab.id_ne hid)

theorem listRecentMessages_eq (h : s.Ok Q) (limit : Nat) :
    listRecentMessages s.rows limit = (listMessages s.rows).drop (s.rows.length - limit) := by
  rw [listRecentMessages, ordered_toDual h.storageKeys, List.take_reverse, List.reverse_reverse, listMessages,
    (ordered_perm s.rows).length_eq]

variable [LinearOrder ι]

theorem Store.Ok.storageKey_lt (h : s.Ok Q) (hadvancing : s.rows.Pairwise fun a b => a.pageKey < b.pageKey) :
    s.rows.Pairwise fun a b => a.storageKey < b.storageKey := by
  refine (h.rows.imp₂ (fun a b hab hlt => ?_) hadvancing)
  obtain hlt | ⟨heq, _⟩ := Prod.Lex.toLex_lt_toLex.mp hlt
  · exact Prod.Lex.toLex_lt_toLex.mpr (.inl hlt)
  · exact Prod.Lex.toLex_lt_toLex.mpr (.inr ⟨heq, hab.ordinal⟩)

theorem inOrder_of_pageKeys (h : s.Ok Q) (hadvancing : s.rows.Pairwise fun a b => a.pageKey < b.pageKey) :
    InOrder s.rows := by
  have hlisted : listMessages s.rows = s.rows := ordered_eq_self (h.storageKey_lt hadvancing)
  refine ⟨?_, fun limit => ?_, fun limit hlimit => ⟨exists_pages ?_ limit none, fun pages hpages => ?_⟩⟩
  · rw [hlisted, h.inLockOrder_eq]
  · rw [listRecentMessages_eq h, hlisted, h.inLockOrder_eq]
  · rw [hlisted]
    exact h.pageKeys
  · rw [hlisted] at hpages
    rw [hpages.flatten hlimit h.pageKeys, behind_none, h.inLockOrder_eq]
    exact ordered_eq_self hadvancing

theorem inOrder_iff (h : s.Ok Q) : InOrder s.rows ↔ Advancing s.rows := by
  rw [Advancing, h.inLockOrder_eq]
  refine ⟨fun horder => ?_, inOrder_of_pageKeys h⟩
  obtain ⟨⟨pages, hpages⟩, hall⟩ := horder.paged 1 Nat.one_pos
  have hflat := hall pages hpages
  have hlisted : listMessages s.rows = s.rows := horder.listed.trans h.inLockOrder_eq
  rw [hlisted] at hpages
  rw [hpages.flatten Nat.one_pos h.pageKeys, behind_none, h.inLockOrder_eq] at hflat
  have hsorted := pairwise_lt_ordered h.pageKeys
  rwa [hflat] at hsorted

/-- The lists answer the messages in the order of the lock if and only if time and id go on in this
order. So they do in a run whose inserts all go on. -/
theorem messages_in_lock_order_iff :
    (∀ s, (machine (ι := ι)).Reachable s → (InOrder s.store.rows ↔ Advancing s.store.rows)) ∧
      ∀ s, ((machine (ι := ι)).when Forward).Reachable s → InOrder s.store.rows := by
  constructor
  · rintro s ⟨s₀, h, hi, hr⟩
    exact inOrder_iff (run_ok_any hi hr)
  · rintro s ⟨s₀, h, hi, hr⟩
    have hok := run_ok hi hr
    exact inOrder_of_pageKeys hok (hok.rows.imp MessageRow.Before.related)

end

def sameMillisecond : List (Move (NewMessage Nat) Nat) :=
  [.start ⟨2, 1700000000000⟩, .advance 0, .advance 0, .advance 0, .start ⟨1, 1700000000000⟩, .advance 1, .advance 1,
    .advance 1]

def emptyPool : Pool (Store Nat) (Append Nat) := ⟨⟨[], 1, 0⟩, [], 0⟩

/-- The pages answer the second message before the first one. -/
theorem pages_out_of_order : ¬ ∀ s, (machine (ι := Nat)).Reachable s → InOrder s.store.rows := by
  intro h
  have hallows : machine.Allows emptyPool sameMillisecond := by decide
  have hinit : machine.init emptyPool := ⟨rfl, rfl, rfl⟩
  have hreach : machine.Reachable (machine.after emptyPool sameMillisecond) := ⟨emptyPool, _, hinit, hallows.run⟩
  have hadvancing := (messages_in_lock_order_iff.1 _ hreach).mp (h _ hreach)
  rw [Advancing, (run_ok_any hinit hallows.run).inLockOrder_eq] at hadvancing
  exact absurd hadvancing (by decide)

end Catalyst.Conversations.Order
