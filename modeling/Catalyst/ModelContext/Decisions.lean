import Mathlib
import Catalyst.ModelContext.Protocol

/-!
# Where decisions go

A decision stands right before the user's next turn, or at the end. Nothing else moves, nothing is
lost, and decisions keep their order.
-/

namespace Catalyst.ModelContext

variable {decisions messages : List ChatMessage}

def ChatMessage.isTurn (message : ChatMessage) : Bool := !message.isDecision && message.role = .user

theorem orderFrom_perm (decisions messages : List ChatMessage) :
    (orderFrom decisions messages).Perm (decisions ++ messages) := by
  fun_induction orderFrom decisions messages with
  | case1 decisions => simp
  | case2 decisions message rest hdecision ih => simpa using ih
  | case3 decisions message rest hdecision huser ih => exact (ih.cons message).append_left decisions
  | case4 decisions message rest hdecision huser ih => exact (ih.cons message).trans List.perm_middle.symm

theorem orderFrom_decisions (hdecisions : ∀ d ∈ decisions, ChatMessage.isDecision d = true) :
    (orderFrom decisions messages).filter (·.isDecision) = decisions ++ messages.filter (·.isDecision) := by
  fun_induction orderFrom decisions messages with
  | case1 decisions => simpa using hdecisions
  | case2 decisions message rest hdecision ih =>
    rw [ih (List.forall_mem_append.mpr ⟨hdecisions, by simpa using hdecision⟩)]
    simp [hdecision]
  | case3 decisions message rest hdecision huser ih =>
    rw [List.filter_append, List.filter_eq_self.mpr hdecisions]
    simpa [hdecision] using ih
  | case4 decisions message rest hdecision huser ih => simpa [hdecision] using ih hdecisions

/-- The decision that stands behind `earlier` and before `later`, in what becomes of the messages. -/
structure Placed (earlier : List ChatMessage) (d : ChatMessage) (later ordered : List ChatMessage) : Prop where
  place : ∃ front waiting rest, ordered = front ++ d :: waiting ++ rest ∧
    -- It is the same decision, and no earlier than it was.
    front.filter (·.isDecision) = earlier.filter (·.isDecision) ∧ earlier.length ≤ front.length ∧
    -- Only decisions stand between it and the next turn, or the end.
    (∀ e ∈ waiting, e.isDecision = true) ∧ rest.head? = later.find? (·.isTurn) ∧
    rest.filter (!·.isDecision) = (later.dropWhile (!·.isTurn)).filter (!·.isDecision)

/-- The messages up to the next turn, with the decisions among them and before them moved behind. -/
theorem orderFrom_held (messages : List ChatMessage) (hdecisions : ∀ d ∈ decisions, ChatMessage.isDecision d = true) :
    ∃ held waiting rest, orderFrom decisions messages = held ++ decisions ++ waiting ++ rest ∧
      (∀ m ∈ held, ChatMessage.isDecision m = false) ∧ (∀ e ∈ waiting, ChatMessage.isDecision e = true) ∧
      rest.head? = messages.find? (·.isTurn) ∧
      rest.filter (!·.isDecision) = (messages.dropWhile (!·.isTurn)).filter (!·.isDecision) := by
  fun_induction orderFrom decisions messages with
  | case1 decisions => exact ⟨[], [], [], by simp, List.forall_mem_nil _, List.forall_mem_nil _, rfl, rfl⟩
  | case2 decisions message rest hdecision ih =>
    obtain ⟨held, waiting, behind, heq, hheld, hwaiting, hhead, hothers⟩ :=
      ih (List.forall_mem_append.mpr ⟨hdecisions, by simpa using hdecision⟩)
    have hturn : message.isTurn = false := by simp [ChatMessage.isTurn, hdecision]
    refine ⟨held, message :: waiting, behind, by simp [heq], hheld, ?_, by simpa [hturn] using hhead, ?_⟩
    · exact List.forall_mem_cons.mpr ⟨hdecision, hwaiting⟩
    · simpa [hturn] using hothers
  | case3 decisions message rest hdecision huser ih =>
    have hturn : message.isTurn = true := by simp [ChatMessage.isTurn, hdecision, huser]
    refine ⟨[], [], message :: orderFrom [] rest, by simp, List.forall_mem_nil _, List.forall_mem_nil _, ?_, ?_⟩
    · simp [hturn]
    · simpa [hturn, hdecision] using orderFrom_others (List.forall_mem_nil _)
  | case4 decisions message rest hdecision huser ih =>
    obtain ⟨held, waiting, behind, heq, hheld, hwaiting, hhead, hothers⟩ := ih hdecisions
    have hturn : message.isTurn = false := by simp [ChatMessage.isTurn, huser]
    refine ⟨message :: held, waiting, behind, by simp [heq], ?_, hwaiting, by simpa [hturn] using hhead, ?_⟩
    · exact List.forall_mem_cons.mpr ⟨by simpa using hdecision, hheld⟩
    · simpa [hturn] using hothers

/-- What stands before a message comes in front of what becomes of it and the rest. -/
theorem orderFrom_placed {d : ChatMessage} {later : List ChatMessage} (earlier : List ChatMessage)
    (hd : d.isDecision = true) (hdecisions : ∀ d ∈ decisions, ChatMessage.isDecision d = true) :
    Placed (decisions ++ earlier) d later (orderFrom decisions (earlier ++ d :: later)) := by
  induction earlier generalizing decisions with
  | nil =>
    have hwaiters : ∀ d' ∈ decisions ++ [d], ChatMessage.isDecision d' = true :=
      List.forall_mem_append.mpr ⟨hdecisions, by simpa using hd⟩
    obtain ⟨held, waiting, rest, heq, hheld, hwaiting, hhead, hothers⟩ := orderFrom_held later hwaiters
    have hnone : held.filter (·.isDecision) = [] := by simpa using hheld
    refine ⟨held ++ decisions, waiting, rest, ?_, ?_, by simp, hwaiting, hhead, hothers⟩
    · simp [orderFrom, hd, heq]
    · simp [hnone]
  | cons message earlier ih =>
    by_cases hdecision : message.isDecision = true
    · have hwaiters : ∀ d' ∈ decisions ++ [message], ChatMessage.isDecision d' = true :=
        List.forall_mem_append.mpr ⟨hdecisions, by simpa using hdecision⟩
      have hstep := ih hwaiters
      simpa [orderFrom, hdecision] using hstep
    · by_cases huser : message.role = .user
      · obtain ⟨front, waiting, rest, heq, hsame, hlength, hbehind⟩ := ih (List.forall_mem_nil _)
        refine ⟨decisions ++ message :: front, waiting, rest, ?_, ?_, ?_, hbehind⟩
        · simp [orderFrom, hdecision, huser, heq]
        · simpa [hdecision] using hsame
        · simpa using hlength
      · obtain ⟨front, waiting, rest, heq, hsame, hlength, hbehind⟩ := ih hdecisions
        refine ⟨message :: front, waiting, rest, ?_, ?_, ?_, hbehind⟩
        · simp [orderFrom, hdecision, huser, heq]
        · simpa [hdecision] using hsame
        · simp only [List.length_append, List.length_cons] at hlength ⊢
          omega

/-- Decisions wait for the user's next turn; all the rest stays as it is. -/
theorem decisions_ordered (messages : List ChatMessage) :
    (orderApprovalDecisionsForModel messages).Perm messages ∧
    (orderApprovalDecisionsForModel messages).filter (!·.isDecision) = messages.filter (!·.isDecision) ∧
    (orderApprovalDecisionsForModel messages).filter (·.isDecision) = messages.filter (·.isDecision) ∧
    (∀ earlier d later, messages = earlier ++ d :: later → d.isDecision = true →
      Placed earlier d later (orderApprovalDecisionsForModel messages)) ∧
    orderApprovalDecisionsForModel (orderApprovalDecisionsForModel messages) =
      orderApprovalDecisionsForModel messages := by
  refine ⟨orderFrom_perm [] messages, orderFrom_others (List.forall_mem_nil _),
    orderFrom_decisions (List.forall_mem_nil _), ?_, orderFrom_orderFrom (List.forall_mem_nil _)⟩
  rintro earlier d later rfl hd
  exact orderFrom_placed earlier hd (List.forall_mem_nil _)

end Catalyst.ModelContext
