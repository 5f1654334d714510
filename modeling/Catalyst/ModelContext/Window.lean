import Catalyst.ModelContext.Protocol

/-!
# The recent part of a history

Where a provider keeps no context of its own, a turn sends the recent part of the history. It is
taken in whole chunks from the end: a call of tools with its results, a run of decisions, or a
single message. The last chunk taken is the one that reaches the limit, so the part holds at
least as many messages as the limit where there are as many.
-/

namespace Catalyst.ModelContext

-- -----------------
-- Chunks
-- -----------------

def ChatMessage.toolResultId? (message : ChatMessage) : Option String :=
  match message.metadata with
  | some (.toolResult toolCallId _ _) => some toolCallId
  | _ => none

def ChatMessage.toolCalls (message : ChatMessage) : List ModelToolCall :=
  if message.role = .assistant then (readAssistantToolCalls message.metadata).getD [] else []

/-- The results behind a message with calls, and what follows them. The loop ends with the last
call answered. -/
def chunkResults (expected seen : List String) : List ChatMessage → List ChatMessage × List ChatMessage
  | [] => ([], [])
  | candidate :: rest =>
    match candidate.toolResultId? with
    | none => ([], candidate :: rest)
    | some toolCallId =>
      if candidate.role ≠ .tool ∨ toolCallId ∉ expected then ([], candidate :: rest)
      else
        let seen := if toolCallId ∈ seen then seen else toolCallId :: seen
        if seen.length = expected.length then ([candidate], rest)
        else
          let (results, after) := chunkResults expected seen rest
          (candidate :: results, after)

theorem chunkResults_append (expected seen : List String) (messages : List ChatMessage) :
    (chunkResults expected seen messages).1 ++ (chunkResults expected seen messages).2 = messages := by
  fun_induction chunkResults expected seen messages with
  | case1 => rfl
  | case2 => rfl
  | case3 => rfl
  | case4 => rfl
  | case5 seen candidate rest _ _ _ _ _ results after heq ih =>
    rw [heq] at ih
    simpa using ih

def chunkHistoryMessages : List ChatMessage → List (List ChatMessage)
  | [] => []
  | message :: rest =>
    if message.isDecision then
      (message :: rest.takeWhile (·.isDecision)) :: chunkHistoryMessages (rest.dropWhile (·.isDecision))
    else if message.toolCalls = [] then [message] :: chunkHistoryMessages rest
    else
      let taken := chunkResults ((message.toolCalls.map (·.toolCallId)).dedup) [] rest
      (message :: taken.1) :: chunkHistoryMessages taken.2
termination_by messages => messages.length
decreasing_by
  · exact Nat.lt_succ_of_le (List.dropWhile_suffix _).length_le
  · exact Nat.lt_succ_self _
  · have h := congrArg List.length (chunkResults_append ((message.toolCalls.map (·.toolCallId)).dedup) [] rest)
    rw [List.length_append] at h
    exact Nat.lt_succ_of_le (h ▸ Nat.le_add_left _ _)

def selectChunks (limit : Nat) (selected : List (List ChatMessage)) (selectedCount : Nat) :
    List (List ChatMessage) → List (List ChatMessage)
  | [] => selected
  | chunk :: older =>
    if chunk.length = 0 then selectChunks limit selected selectedCount older
    else if 0 < selectedCount ∧ limit < selectedCount + chunk.length then chunk :: selected
    else if limit ≤ selectedCount + chunk.length then chunk :: selected
    else selectChunks limit (chunk :: selected) (selectedCount + chunk.length) older

def selectRecentCompleteHistory (messages : List ChatMessage) (limit : Option Nat) : List ChatMessage :=
  let ordered := orderApprovalDecisionsForModel messages
  match limit with
  | none => ordered
  | some limit =>
    if ordered.length ≤ limit then ordered
    else (selectChunks limit [] 0 (chunkHistoryMessages ordered).reverse).flatten

/-- The chunks from one on are the fewest that hold at least the limit, or all there are. -/
structure StartsAt (limit : Nat) (chunks : List (List α)) (start : Nat) : Prop where
  /-- The part is not empty. -/
  inside : chunks ≠ [] → start < chunks.length
  enough : start = 0 ∨ limit ≤ (chunks.drop start).flatten.length
  shortest : ∀ later, start < later → later < chunks.length → (chunks.drop later).flatten.length < limit

theorem length_flatten_drop_le (chunks : List (List α)) {i j : Nat} (h : i ≤ j) :
    (chunks.drop j).flatten.length ≤ (chunks.drop i).flatten.length := by
  obtain ⟨k, rfl⟩ := Nat.exists_eq_add_of_le h
  have hsplit := congrArg (fun cs => cs.flatten.length) (List.take_append_drop k (chunks.drop i))
  simp only [List.flatten_append, List.length_append, List.drop_drop] at hsplit
  omega

theorem startsAt_older {limit : Nat} {chunk : List α} {selected older : List (List α)}
    (henough : limit ≤ selected.flatten.length + chunk.length) (hfew : selected ≠ [] → selected.flatten.length < limit) :
    StartsAt limit (older ++ chunk :: selected) older.length where
  inside _ := by simp
  enough := .inr (by simp only [List.drop_left, List.flatten_cons, List.length_append]; omega)
  shortest later hlater hlt := by
    obtain ⟨k, rfl⟩ := Nat.exists_eq_add_of_lt hlater
    have hk : k < selected.length := by simp at hlt; omega
    have hdrop : (older ++ chunk :: selected).drop (older.length + k + 1) = selected.drop k := by
      rw [Nat.add_assoc, List.drop_append, List.drop_eq_nil_of_le (Nat.le_add_right _ _), List.nil_append,
        Nat.add_sub_cancel_left, List.drop_succ_cons]
    have hle := length_flatten_drop_le selected (Nat.zero_le k)
    rw [hdrop]
    exact Nat.lt_of_le_of_lt hle (hfew (List.ne_nil_of_length_pos (by omega)))

theorem selectChunks_starts {limit selectedCount : Nat} {selected older : List (List ChatMessage)}
    (hne : ∀ chunk ∈ older, chunk ≠ []) (hcount : selectedCount = selected.flatten.length)
    (hfew : selected ≠ [] → selectedCount < limit) :
    ∃ start, StartsAt limit (older.reverse ++ selected) start ∧
      selectChunks limit selected selectedCount older = (older.reverse ++ selected).drop start := by
  induction older generalizing selected selectedCount with
  | nil =>
    refine ⟨0, ⟨?_, .inl rfl, ?_⟩, rfl⟩
    · exact List.length_pos_of_ne_nil
    · intro later _ hlt
      have hle := length_flatten_drop_le selected (Nat.zero_le later)
      exact Nat.lt_of_le_of_lt hle (hcount ▸ hfew (List.ne_nil_of_length_pos (Nat.zero_lt_of_lt hlt)))
  | cons chunk older ih =>
    obtain ⟨hchunk, hne⟩ := List.forall_mem_cons.mp hne
    have hpos : chunk.length ≠ 0 := fun h => hchunk (List.length_eq_zero_iff.mp h)
    rw [List.reverse_cons, List.append_assoc, List.singleton_append, selectChunks, if_neg hpos]
    by_cases henough : limit ≤ selectedCount + chunk.length
    · have hstops : (if 0 < selectedCount ∧ limit < selectedCount + chunk.length then chunk :: selected
          else if limit ≤ selectedCount + chunk.length then chunk :: selected
          else selectChunks limit (chunk :: selected) (selectedCount + chunk.length) older) = chunk :: selected := by
        rw [if_pos henough, ite_self]
      subst hcount
      refine ⟨older.reverse.length, startsAt_older henough hfew, ?_⟩
      rw [hstops, List.drop_left]
    · rw [if_neg fun h => henough (Nat.le_of_lt h.2), if_neg henough]
      refine ih hne ?_ fun _ => Nat.lt_of_not_le henough
      rw [List.flatten_cons, List.length_append, hcount, Nat.add_comm]

theorem flatten_chunkHistoryMessages (messages : List ChatMessage) : (chunkHistoryMessages messages).flatten = messages := by
  fun_induction chunkHistoryMessages messages with
  | case1 => rfl
  | case2 message rest hdecision ih =>
    rw [List.flatten_cons, ih, List.cons_append, List.takeWhile_append_dropWhile]
  | case3 message rest hdecision hcalls ih => rw [List.flatten_cons, ih, List.singleton_append]
  | case4 message rest hdecision hcalls taken ih =>
    rw [List.flatten_cons, ih, List.cons_append, chunkResults_append]

theorem chunk_ne_nil {messages : List ChatMessage} : ∀ chunk ∈ chunkHistoryMessages messages, chunk ≠ [] := by
  fun_induction chunkHistoryMessages messages with
  | case1 => exact nofun
  | case2 message rest hdecision ih => exact List.forall_mem_cons.mpr ⟨List.cons_ne_nil _ _, ih⟩
  | case3 message rest hdecision hcalls ih => exact List.forall_mem_cons.mpr ⟨List.cons_ne_nil _ _, ih⟩
  | case4 message rest hdecision hcalls taken ih => exact List.forall_mem_cons.mpr ⟨List.cons_ne_nil _ _, ih⟩

theorem startsAt_all {limit : Nat} {chunks : List (List α)} (hne : ∀ chunk ∈ chunks, chunk ≠ [])
    (hshort : chunks.flatten.length ≤ limit) : StartsAt limit chunks 0 where
  inside := List.length_pos_of_ne_nil
  enough := .inl rfl
  shortest later hlater hlt := by
    cases chunks with
    | nil => exact absurd hlt (Nat.not_lt_zero _)
    | cons chunk chunks =>
      have hchunk : 0 < chunk.length := List.length_pos_of_ne_nil (hne chunk List.mem_cons_self)
      have hle := length_flatten_drop_le (chunk :: chunks) (show 1 ≤ later by omega)
      rw [List.drop_succ_cons, List.drop_zero] at hle
      rw [List.flatten_cons, List.length_append] at hshort
      omega

theorem selectRecentCompleteHistory_starts (messages : List ChatMessage) (limit : Nat) :
    ∃ start, StartsAt limit (chunkHistoryMessages (orderApprovalDecisionsForModel messages)) start ∧
      selectRecentCompleteHistory messages (some limit) =
        ((chunkHistoryMessages (orderApprovalDecisionsForModel messages)).drop start).flatten := by
  simp only [selectRecentCompleteHistory]
  split
  · rename_i hshort
    refine ⟨0, startsAt_all chunk_ne_nil (by rwa [flatten_chunkHistoryMessages]), ?_⟩
    rw [List.drop_zero, flatten_chunkHistoryMessages]
  · have hne : ∀ chunk ∈ (chunkHistoryMessages (orderApprovalDecisionsForModel messages)).reverse, chunk ≠ [] :=
      fun chunk hchunk => chunk_ne_nil chunk (List.mem_reverse.mp hchunk)
    obtain ⟨start, hstart, hselected⟩ := @selectChunks_starts limit 0 [] _ hne rfl (absurd rfl)
    rw [List.reverse_reverse, List.append_nil] at hstart hselected
    exact ⟨start, hstart, congrArg List.flatten hselected⟩

/-- There is one such start. Where the last chunk grows, it is the same or a later one. -/
theorem StartsAt.grows {limit start start' : Nat} {cs : List (List α)} {c more : List α}
    (h : StartsAt limit (cs ++ [c]) start) (h' : StartsAt limit (cs ++ [c ++ more]) start') :
    start ≤ start' ∧ (((cs ++ [c ++ more]).drop (start + 1)).flatten.length < limit → start' = start) := by
  have hin : start ≤ cs.length := by simpa [Nat.lt_succ_iff] using h.inside (by simp)
  have hin' : start' ≤ cs.length := by simpa [Nat.lt_succ_iff] using h'.inside (by simp)
  have hgrown : ∀ k ≤ cs.length, ((cs ++ [c]).drop k).flatten.length ≤ ((cs ++ [c ++ more]).drop k).flatten.length := by
    intro k hk
    rw [List.drop_append_of_le_length hk, List.drop_append_of_le_length hk]
    simp
  have hle : start ≤ start' := by
    by_contra hlt
    have hfew := h'.shortest start (Nat.lt_of_not_le hlt) (by simp; omega)
    have hmore := hgrown start hin
    obtain rfl | henough := h.enough
    · exact hlt (Nat.zero_le _)
    · omega
  refine ⟨hle, fun hfew => ?_⟩
  obtain rfl | hlater := Nat.eq_or_lt_of_le hle
  · rfl
  · have hless := length_flatten_drop_le (cs ++ [c ++ more]) (show start + 1 ≤ start' from hlater)
    obtain rfl | henough := h'.enough
    · exact absurd hlater (Nat.not_lt_zero _)
    · omega

structure AnswersStored (results : List ChatMessage) (calls : List ModelToolCall) : Prop where
  tools : ∀ result ∈ results, result.role = .tool ∧ result.toolResultId?.isSome
  once : (results.filterMap (·.toolResultId?)).Perm ((calls.map (·.toolCallId)).dedup)

inductive Complete : List ChatMessage → Prop
  | nil : Complete []
  | single {message : ChatMessage} {messages : List ChatMessage} (hcalls : message.toolCalls = [])
      (htool : message.isDecision = true ∨ message.role ≠ .tool) (h : Complete messages) : Complete (message :: messages)
  | exchange {message : ChatMessage} {results messages : List ChatMessage} (hcalls : message.toolCalls ≠ [])
      (hresults : AnswersStored results message.toolCalls) (h : Complete messages) :
      Complete (message :: (results ++ messages))

theorem Complete.append (h : Complete messages) (h' : Complete messages') : Complete (messages ++ messages') := by
  induction h with
  | nil => exact h'
  | single hcalls htool _ ih => exact .single hcalls htool ih
  | exchange hcalls hresults _ ih =>
    rw [List.cons_append, List.append_assoc]
    exact .exchange hcalls hresults ih

theorem toolCalls_of_decision {message : ChatMessage} (h : message.isDecision = true) : message.toolCalls = [] := by
  obtain ⟨role, text, metadata⟩ := message
  rcases metadata with _ | metadata
  · cases h
  · cases metadata with
    | approvalDecision decision => simp [ChatMessage.toolCalls, readAssistantToolCalls]
    | _ => cases h

theorem Complete.of_single {message : ChatMessage} (h : Complete (message :: messages)) (hcalls : message.toolCalls = []) :
    Complete messages := by
  cases h with
  | single _ _ h => exact h
  | exchange hne _ _ => exact absurd hcalls hne

theorem Complete.of_exchange {message : ChatMessage} (h : Complete (message :: messages))
    (hcalls : message.toolCalls ≠ []) :
    ∃ results rest, messages = results ++ rest ∧ AnswersStored results message.toolCalls ∧ Complete rest := by
  cases h with
  | single hnone _ _ => exact absurd hnone hcalls
  | exchange _ hresults h => exact ⟨_, _, rfl, hresults, h⟩

theorem complete_decisions {messages : List ChatMessage} (h : ∀ message ∈ messages, message.isDecision = true) :
    Complete messages := by
  induction messages with
  | nil => exact .nil
  | cons message messages ih =>
    obtain ⟨hdecision, hrest⟩ := List.forall_mem_cons.mp h
    exact .single (toolCalls_of_decision hdecision) (.inl hdecision) (ih hrest)

theorem Complete.dropDecisions {messages : List ChatMessage} (h : Complete messages) :
    Complete (messages.dropWhile (·.isDecision)) := by
  induction messages with
  | nil => exact .nil
  | cons message messages ih =>
    by_cases hdecision : message.isDecision = true
    · rw [List.dropWhile_cons_of_pos hdecision]
      exact ih (h.of_single (toolCalls_of_decision hdecision))
    · rw [List.dropWhile_cons_of_neg hdecision]
      exact h

theorem AnswersStored.length_ids {results : List ChatMessage} (h : ∀ result ∈ results, result.toolResultId?.isSome) :
    (results.filterMap (·.toolResultId?)).length = results.length := by
  induction results with
  | nil => rfl
  | cons result results ih =>
    obtain ⟨hresult, hrest⟩ := List.forall_mem_cons.mp h
    obtain ⟨toolCallId, hid⟩ := Option.isSome_iff_exists.mp hresult
    simp [hid, ih hrest]

theorem chunkResults_of_answers {results : List ChatMessage} (hne : results ≠ [])
    (htools : ∀ result ∈ results, result.role = .tool ∧ result.toolResultId?.isSome)
    (hnodup : (results.filterMap (·.toolResultId?)).Nodup)
    (hasked : ∀ i ∈ results.filterMap (·.toolResultId?), i ∈ expected)
    (hfresh : ∀ i ∈ results.filterMap (·.toolResultId?), i ∉ seen)
    (hlength : seen.length + results.length = expected.length) :
    chunkResults expected seen (results ++ messages) = (results, messages) := by
  induction results generalizing seen with
  | nil => exact absurd rfl hne
  | cons result results ih =>
    obtain ⟨⟨hrole, hsome⟩, htools⟩ := List.forall_mem_cons.mp htools
    obtain ⟨toolCallId, hid⟩ := Option.isSome_iff_exists.mp hsome
    have hids : (result :: results).filterMap (·.toolResultId?) = toolCallId :: results.filterMap (·.toolResultId?) :=
      List.filterMap_cons_some hid
    rw [hids] at hnodup hasked hfresh
    obtain ⟨hnew, hnodup⟩ := List.nodup_cons.mp hnodup
    obtain ⟨hexpected, hasked⟩ := List.forall_mem_cons.mp hasked
    obtain ⟨hunseen, hfresh⟩ := List.forall_mem_cons.mp hfresh
    rw [List.length_cons] at hlength
    by_cases hlast : results = []
    · subst hlast
      have hfull : seen.length + 1 = expected.length := hlength
      simp [chunkResults, hid, hrole, hexpected, hunseen, hfull]
    · have hpos : 0 < results.length := List.length_pos_of_ne_nil hlast
      have hmore : seen.length + 1 ≠ expected.length := by omega
      have hnext : ∀ i ∈ results.filterMap (·.toolResultId?), i ∉ toolCallId :: seen := by
        intro i hi hmem
        rcases List.mem_cons.mp hmem with rfl | hmem
        · exact hnew hi
        · exact hfresh i hi hmem
      have htake := ih hlast htools hnodup hasked hnext (by rw [List.length_cons]; omega)
      simp [chunkResults, hid, hrole, hexpected, hunseen, hmore, htake]

theorem AnswersStored.taken {results : List ChatMessage} {calls : List ModelToolCall} (h : AnswersStored results calls)
    (hne : calls ≠ []) :
    chunkResults ((calls.map (·.toolCallId)).dedup) [] (results ++ messages) = (results, messages) := by
  have hlength := h.once.length_eq
  rw [AnswersStored.length_ids fun result hresult => (h.tools result hresult).2] at hlength
  have hpos : 0 < ((calls.map (·.toolCallId)).dedup).length := by
    refine List.length_pos_of_ne_nil fun hnil => ?_
    obtain ⟨call, calls', rfl⟩ := List.exists_cons_of_ne_nil hne
    have hmem : call.toolCallId ∈ (((call :: calls').map (·.toolCallId)).dedup) :=
      List.mem_dedup.mpr List.mem_cons_self
    rw [hnil] at hmem
    cases hmem
  refine chunkResults_of_answers (List.ne_nil_of_length_pos (by omega)) h.tools
    (h.once.nodup_iff.mpr (List.nodup_dedup _)) (fun i hi => h.once.subset hi) nofun (by simpa using hlength)

theorem boundary_cons {chunk : List ChatMessage} {chunks : List (List ChatMessage)} (hchunk : Complete chunk)
    (h : ∀ k, Complete (chunks.take k).flatten ∧ Complete (chunks.drop k).flatten) (k : Nat) :
    Complete ((chunk :: chunks).take k).flatten ∧ Complete ((chunk :: chunks).drop k).flatten := by
  cases k with
  | zero => exact ⟨.nil, hchunk.append (by simpa using (h 0).2)⟩
  | succ k => exact ⟨hchunk.append (h k).1, (h k).2⟩

theorem Complete.at_boundary (h : Complete messages) (k : Nat) :
    Complete ((chunkHistoryMessages messages).take k).flatten ∧
      Complete ((chunkHistoryMessages messages).drop k).flatten := by
  fun_induction chunkHistoryMessages messages generalizing k with
  | case1 => simpa using h
  | case2 message rest hdecision ih =>
    have hrest := (h.of_single (toolCalls_of_decision hdecision)).dropDecisions
    refine boundary_cons (.single (toolCalls_of_decision hdecision) (.inl hdecision) ?_) (ih hrest) k
    exact complete_decisions fun d hd => List.all_eq_true.mp List.all_takeWhile d hd
  | case3 message rest hdecision hcalls ih =>
    have hrest := h.of_single hcalls
    have hsingle : Complete [message] := by
      cases h with
      | single hcalls htool _ => exact .single hcalls htool .nil
      | exchange hne _ _ => exact absurd hcalls hne
    exact boundary_cons hsingle (ih hrest) k
  | case4 message rest hdecision hcalls taken ih =>
    obtain ⟨results, after, rfl, hresults, hafter⟩ := h.of_exchange hcalls
    have htaken : taken = (results, after) := hresults.taken hcalls
    rw [htaken] at ih ⊢
    refine boundary_cons ?_ (ih hafter) k
    simpa using Complete.exchange hcalls hresults .nil

-- -----------------
-- What the model sees of the recent part
-- -----------------

theorem decision?_of_toolCalls {message : ChatMessage} (h : message.toolCalls ≠ []) : message.decision? = none := by
  cases hdecision : message.decision? with
  | none => rfl
  | some decision => exact absurd (toolCalls_of_decision (by simp [ChatMessage.isDecision, hdecision])) h

theorem toModelHistoryMessage_calls {message : ChatMessage} (h : message.toolCalls ≠ []) (options : ProjectionOptions) :
    ∃ content, toModelHistoryMessage options message = some (.assistant content (some message.toolCalls)) := by
  have hrole : message.role = .assistant := by
    by_contra hrole
    exact h (if_neg hrole)
  have hread : readAssistantToolCalls message.metadata = some message.toolCalls := by
    rw [ChatMessage.toolCalls, if_pos hrole] at h ⊢
    cases hread : readAssistantToolCalls message.metadata with
    | none => simp [hread] at h
    | some toolCalls => rfl
  simp [toModelHistoryMessage, decision?_of_toolCalls h, hrole, hread]

theorem toModelHistoryMessage_single {message : ChatMessage} (hcalls : message.toolCalls = [])
    (htool : message.isDecision = true ∨ message.role ≠ .tool) (options : ProjectionOptions) :
    ∃ seen, toModelHistoryMessage options message = some seen ∧ seen.calls = [] ∧ seen.isTool = false := by
  unfold toModelHistoryMessage
  cases hdecision : message.decision? with
  | some decision => exact ⟨_, rfl, rfl, rfl⟩
  | none =>
    cases hrole : message.role with
    | user => exact ⟨_, rfl, rfl, rfl⟩
    | system => exact ⟨_, rfl, rfl, rfl⟩
    | assistant =>
      refine ⟨_, rfl, ?_, rfl⟩
      rw [ChatMessage.toolCalls, if_pos hrole] at hcalls
      cases hread : readAssistantToolCalls message.metadata with
      | none => rfl
      | some toolCalls => simpa [hread, ModelMessage.calls] using hcalls
    | tool => simp [ChatMessage.isDecision, hdecision, hrole] at htool

theorem toModelHistoryMessage_result {message : ChatMessage} (hrole : message.role = .tool)
    (hid : message.toolResultId? = some toolCallId) (options : ProjectionOptions) :
    ∃ content, toModelHistoryMessage options message = some (.tool content toolCallId) := by
  obtain ⟨role, text, metadata⟩ := message
  subst hrole
  rcases metadata with _ | metadata
  · cases hid
  · cases metadata with
    | toolResult i result modelOutput =>
      obtain rfl : i = toolCallId := Option.some.inj hid
      exact ⟨_, rfl⟩
    | _ => cases hid

theorem AnswersStored.answers {results : List ChatMessage} {calls : List ModelToolCall} (h : AnswersStored results calls)
    (options : ProjectionOptions) : Answers (results.filterMap (toModelHistoryMessage options)) calls := by
  have hseen : ∀ result ∈ results, ∃ content toolCallId, result.toolResultId? = some toolCallId ∧
      toModelHistoryMessage options result = some (.tool content toolCallId) := by
    intro result hresult
    obtain ⟨hrole, hsome⟩ := h.tools result hresult
    obtain ⟨toolCallId, hid⟩ := Option.isSome_iff_exists.mp hsome
    obtain ⟨content, hcontent⟩ := toModelHistoryMessage_result hrole hid options
    exact ⟨content, toolCallId, hid, hcontent⟩
  constructor
  · intro seen hmem
    obtain ⟨result, hresult, hmap⟩ := List.mem_filterMap.mp hmem
    obtain ⟨content, toolCallId, _, hcontent⟩ := hseen result hresult
    obtain rfl : .tool content toolCallId = seen := Option.some.inj (hcontent.symm.trans hmap)
    rfl
  · rw [List.filterMap_filterMap]
    have hids : results.filterMap (fun result => (toModelHistoryMessage options result).bind (·.answers?)) =
        results.filterMap (·.toolResultId?) := by
      refine List.filterMap_congr fun result hresult => ?_
      obtain ⟨content, toolCallId, hid, hcontent⟩ := hseen result hresult
      simp [hcontent, hid, ModelMessage.answers?]
    rw [hids]
    exact h.once

theorem Complete.paired (h : Complete messages) (options : ProjectionOptions) :
    Paired (messages.filterMap (toModelHistoryMessage options)) := by
  induction h with
  | nil => exact .nil
  | single hcalls htool _ ih =>
    obtain ⟨seen, hseen, hnone, hother⟩ := toModelHistoryMessage_single hcalls htool options
    rw [List.filterMap_cons_some hseen]
    exact .single hnone hother ih
  | exchange hcalls hresults _ ih =>
    obtain ⟨content, hcontent⟩ := toModelHistoryMessage_calls hcalls options
    rw [List.filterMap_cons_some hcontent, List.filterMap_append]
    exact .group hcalls (hresults.answers options) ih

theorem Complete.head (h : Complete messages) :
    ∀ message ∈ messages.head?, ¬ (message.role = .tool ∧ message.toolResultId?.isSome) := by
  rintro message hhead ⟨hrole, hsome⟩
  cases h with
  | nil => cases hhead
  | @single first _ hcalls htool _ =>
    obtain rfl : first = message := Option.some.inj hhead
    rcases htool with hdecision | htool
    · obtain ⟨role, text, metadata⟩ := first
      rcases metadata with _ | metadata
      · cases hsome
      · cases metadata with
        | toolResult i result modelOutput => cases hdecision
        | _ => cases hsome
    · exact htool hrole
  | @exchange first _ _ hcalls _ _ =>
    obtain rfl : first = message := Option.some.inj hhead
    exact hcalls (if_neg (by rw [hrole]; nofun))

theorem orderFrom_of_wait (h : DecisionsWait (decisions ++ messages))
    (hdecisions : ∀ d ∈ decisions, ChatMessage.isDecision d = true) :
    orderFrom decisions messages = decisions ++ messages := by
  fun_induction orderFrom decisions messages with
  | case1 decisions => simp
  | case2 decisions message rest hdecision ih =>
    rw [List.append_cons] at h
    rw [ih h (List.forall_mem_append.mpr ⟨hdecisions, by simpa using hdecision⟩), List.append_assoc,
      List.singleton_append]
  | case3 decisions message rest hdecision huser ih =>
    have hrest : DecisionsWait rest := (h.suffix (List.suffix_append _ _)).tail
    rw [ih hrest (List.forall_mem_nil _), List.nil_append]
  | case4 decisions message rest hdecision huser ih =>
    have hnone : decisions = [] := by
      by_contra hne
      have hnext := h.rel_getLast_head_of_append hne (List.cons_ne_nil message rest)
      rcases hnext (hdecisions _ (List.getLast_mem hne)) with hnext | hnext
      · exact hdecision hnext
      · exact huser hnext
    subst hnone
    rw [ih h.tail (List.forall_mem_nil _), List.nil_append, List.nil_append]

/-- The part of a history from a chunk on, as it is sent. -/
structure Recent (options : ProjectionOptions) (messages window : List ChatMessage) (limit start : Nat) : Prop where
  starts : StartsAt limit (chunkHistoryMessages (orderApprovalDecisionsForModel messages)) start
  chunked : window = ((chunkHistoryMessages (orderApprovalDecisionsForModel messages)).drop start).flatten
  suffix : window <:+ orderApprovalDecisionsForModel messages
  /-- No exchange is cut: what is left out is complete, and so is what is sent. -/
  before : Complete ((chunkHistoryMessages (orderApprovalDecisionsForModel messages)).take start).flatten
  complete : Complete window
  head : ∀ message ∈ window.head?, ¬ (message.role = .tool ∧ message.toolResultId?.isSome)
  projected : projectAgentVisibleHistory options window <:+ projectAgentVisibleHistory options messages

theorem recent_of_complete {messages : List ChatMessage} {limit : Nat} (options : ProjectionOptions)
    (hc : Complete (orderApprovalDecisionsForModel messages)) :
    ∃ start, Recent options messages (selectRecentCompleteHistory messages (some limit)) limit start := by
  obtain ⟨start, hstart, hwindow⟩ := selectRecentCompleteHistory_starts messages limit
  obtain ⟨hbefore, hkept⟩ := hc.at_boundary start
  rw [← hwindow] at hkept
  have hsplit := congrArg List.flatten
    (List.take_append_drop start (chunkHistoryMessages (orderApprovalDecisionsForModel messages)))
  rw [List.flatten_append, ← hwindow, flatten_chunkHistoryMessages] at hsplit
  have hsuffix : selectRecentCompleteHistory messages (some limit) <:+ orderApprovalDecisionsForModel messages :=
    ⟨_, hsplit⟩
  refine ⟨start, hstart, hwindow, hsuffix, hbefore, hkept, hkept.head, ?_⟩
  have hwaits : DecisionsWait (orderFrom [] messages) := orderFrom_wait (List.forall_mem_nil _)
  have hwait : DecisionsWait (selectRecentCompleteHistory messages (some limit)) := hwaits.suffix hsuffix
  have hordered : orderApprovalDecisionsForModel (selectRecentCompleteHistory messages (some limit)) =
      selectRecentCompleteHistory messages (some limit) := orderFrom_of_wait hwait (List.forall_mem_nil _)
  rw [projectAgentVisibleHistory, projectAgentVisibleHistory, hordered, (hkept.paired options).complete,
    (hc.paired options).complete]
  exact hsuffix.filterMap _

/-- The recent part starts at a chunk, with the fewest chunks that hold the limit, and the model
sees of it what it would see of the whole history. Messages that join the last chunk move the
start forward only, and only where the chunks behind it hold the limit. -/
theorem recent_history_ok {messages : List ChatMessage} (options : ProjectionOptions) (limit : Nat)
    (hc : Complete (orderApprovalDecisionsForModel messages)) :
    ∃ start, Recent options messages (selectRecentCompleteHistory messages (some limit)) limit start ∧
      ∀ appended cs c more,
        chunkHistoryMessages (orderApprovalDecisionsForModel messages) = cs ++ [c] →
        chunkHistoryMessages (orderApprovalDecisionsForModel (messages ++ appended)) = cs ++ [c ++ more] →
        ∃ start', selectRecentCompleteHistory (messages ++ appended) (some limit) =
            ((cs ++ [c ++ more]).drop start').flatten ∧
          start ≤ start' ∧ (((cs ++ [c ++ more]).drop (start + 1)).flatten.length < limit → start' = start) := by
  obtain ⟨start, hrecent⟩ := recent_of_complete options hc
  refine ⟨start, hrecent, ?_⟩
  intro appended cs c more hchunks hgrown
  obtain ⟨start', hstart', hwindow'⟩ := selectRecentCompleteHistory_starts (messages ++ appended) limit
  have hstarts := hrecent.starts
  rw [hchunks] at hstarts
  rw [hgrown] at hstart' hwindow'
  exact ⟨start', hwindow', hstarts.grows hstart'⟩

namespace Example

def decision (id : String) : ChatMessage where
  role := .system
  text := ""
  metadata := some (.approvalDecision ⟨id, "skill_change", .approved, "u", "User", "now", "summary", none, none⟩)

def turn : List ChatMessage := [⟨.user, "question", none⟩, ⟨.assistant, "answer", none⟩]

def turnChunks : List (List ChatMessage) := turn.map fun message => [message]

theorem turn_complete : Complete (orderApprovalDecisionsForModel (turn ++ [decision "1"])) :=
  .single rfl (.inr nofun) (.single rfl (.inr nofun) (.single rfl (.inl rfl) .nil))

theorem turn_ordered : orderApprovalDecisionsForModel (turn ++ [decision "1"]) = turn ++ [decision "1"] := rfl

theorem turn_ordered_grown : orderApprovalDecisionsForModel (turn ++ [decision "1"] ++ [decision "2"]) =
    turn ++ [decision "1"] ++ [decision "2"] := rfl

theorem turn_chunks : chunkHistoryMessages (orderApprovalDecisionsForModel (turn ++ [decision "1"])) =
    turnChunks ++ [[decision "1"]] := by
  rw [turn_ordered]
  with_unfolding_all decide

theorem turn_chunks_grown :
    chunkHistoryMessages (orderApprovalDecisionsForModel (turn ++ [decision "1"] ++ [decision "2"])) =
      turnChunks ++ [[decision "1"] ++ [decision "2"]] := by
  rw [turn_ordered_grown]
  with_unfolding_all decide

end Example

/-- A second decision joins the last chunk, and the answer before it is no longer sent. -/
theorem decision_moves_the_start :
    Complete (orderApprovalDecisionsForModel (Example.turn ++ [Example.decision "1"])) ∧
      (∃ cs c more,
        chunkHistoryMessages (orderApprovalDecisionsForModel (Example.turn ++ [Example.decision "1"])) = cs ++ [c] ∧
        chunkHistoryMessages
          (orderApprovalDecisionsForModel (Example.turn ++ [Example.decision "1"] ++ [Example.decision "2"])) =
            cs ++ [c ++ more]) ∧
      (selectRecentCompleteHistory (Example.turn ++ [Example.decision "1"]) (some 2)).head? =
        some ⟨.assistant, "answer", none⟩ ∧
      (selectRecentCompleteHistory (Example.turn ++ [Example.decision "1"] ++ [Example.decision "2"]) (some 2)).head? =
        some (Example.decision "1") := by
  refine ⟨Example.turn_complete, ⟨_, _, _, Example.turn_chunks, Example.turn_chunks_grown⟩, ?_, ?_⟩
  · simp only [selectRecentCompleteHistory, Example.turn_chunks]
    rfl
  · simp only [selectRecentCompleteHistory, Example.turn_chunks_grown]
    rfl

theorem recent_history_ok_turn :
    ∃ start, Recent ⟨none, fun _ => none⟩ (Example.turn ++ [Example.decision "1"])
        (selectRecentCompleteHistory (Example.turn ++ [Example.decision "1"]) (some 2)) 2 start ∧
      ∃ start', selectRecentCompleteHistory (Example.turn ++ [Example.decision "1"] ++ [Example.decision "2"]) (some 2) =
          ((Example.turnChunks ++ [[Example.decision "1"] ++ [Example.decision "2"]]).drop start').flatten ∧
        start ≤ start' := by
  obtain ⟨start, hrecent, hgrows⟩ := recent_history_ok ⟨none, fun _ => none⟩ 2 Example.turn_complete
  obtain ⟨start', hwindow, hle, _⟩ := hgrows _ _ _ _ Example.turn_chunks Example.turn_chunks_grown
  exact ⟨start, hrecent, start', hwindow, hle⟩

end Catalyst.ModelContext
