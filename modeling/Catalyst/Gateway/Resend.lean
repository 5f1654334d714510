import Catalyst.Gateway.Call

/-!
# When an attempt is sent again

What the caller received is split at the sends. A new send follows only an
attempt that gave nothing of an answer, and only after every preparation it
announced was cancelled, so the text the caller holds is that of one attempt.
-/

namespace Catalyst.Gateway

open Catalyst.Library

def Effect.event? : Effect → Option CallEvent
  | deliver event => some event
  | _ => none

def received (effects : List Effect) : List CallEvent := effects.filterMap Effect.event?

def noteEffect (attempts : List (List CallEvent)) : Effect → List (List CallEvent)
  | .send => [] :: attempts
  | .deliver event =>
    match attempts with
    | es :: rest => (es ++ [event]) :: rest
    | [] => []
  | .admitted _ | .settle _ => attempts

def deliveredByAttempt (effects : List Effect) : List (List CallEvent) := effects.foldl noteEffect []

def CallEvent.text : CallEvent → String
  | answer (.textDelta delta) => delta
  | _ => ""

def CallEvent.reasoning : CallEvent → String
  | answer (.reasoningDelta _ delta) => delta
  | _ => ""

def textOf (events : List CallEvent) : List Char := events.flatMap (·.text.toList)

def reasoningOf (events : List CallEvent) : List Char := events.flatMap (·.reasoning.toList)

structure Unanswered (events : List CallEvent) : Prop where
  text : ∀ delta, .answer (.textDelta delta) ∈ events → delta = ""
  reasoning : ∀ id delta, .answer (.reasoningDelta id delta) ∈ events → delta = ""
  started : ∀ id toolName input, .answer (.providerToolStarted id toolName input) ∉ events
  finished : ∀ id toolName output, .answer (.providerToolCompleted id toolName output) ∉ events
  completed : ∀ completion, .answer (.completed completion) ∉ events

/-- Every announced preparation is cancelled later or among the ones `left`. -/
def Cancelled (left : List String) : List CallEvent → Prop
  | [] => True
  | .answer (.toolCallPreparing id _) :: es =>
    (.toolCallPreparationCancelled id ∈ es ∨ id ∈ left) ∧ Cancelled left es
  | _ :: es => Cancelled left es

structure ResentSafely (effects : List Effect) : Prop where
  /-- An attempt that was followed by another one. -/
  resent : ∀ es ∈ (deliveredByAttempt effects).tail, Unanswered es ∧ Cancelled [] es
  whole : received effects = (deliveredByAttempt effects).reverse.flatten
  /-- The text and the reasoning are those of the latest attempt. -/
  text : textOf (received effects) = textOf ((deliveredByAttempt effects).headD [])
  reasoning : reasoningOf (received effects) = reasoningOf ((deliveredByAttempt effects).headD [])

theorem deliveredByAttempt_append :
    deliveredByAttempt (E ++ effects) = effects.foldl noteEffect (deliveredByAttempt E) := by
  simp [deliveredByAttempt]

theorem received_append : received (E ++ effects) = received E ++ received effects := by
  simp [received]

theorem Unanswered.nil : Unanswered [] :=
  ⟨nofun, nofun, nofun, nofun, nofun⟩

theorem Unanswered.concat {e : CompletionEvent} (hu : Unanswered es) (he : ¬ e.closes) :
    Unanswered (es ++ [.answer e]) := by
  refine ⟨fun delta h => ?_, fun id delta h => ?_, fun id toolName input h => ?_,
    fun id toolName output h => ?_, fun completion h => ?_⟩
  all_goals obtain h | rfl := by simpa using h
  · exact hu.text delta h
  · simpa [CompletionEvent.closes] using he
  · exact hu.reasoning id delta h
  · simpa [CompletionEvent.closes] using he
  · exact hu.started id toolName input h
  · exact he rfl
  · exact hu.finished id toolName output h
  · exact he rfl
  · exact hu.completed completion h
  · exact he rfl

theorem Unanswered.cancel {id : String} (hu : Unanswered es) : Unanswered (es ++ [.toolCallPreparationCancelled id]) := by
  refine ⟨fun delta h => hu.text delta ?_, fun id delta h => hu.reasoning id delta ?_,
    fun id toolName input h => hu.started id toolName input ?_,
    fun id toolName output h => hu.finished id toolName output ?_,
    fun completion h => hu.completed completion ?_⟩
  all_goals simpa using h

theorem Unanswered.textOf (hu : Unanswered es) : textOf es = [] := by
  refine List.flatMap_eq_nil_iff.mpr fun e he => ?_
  cases e with
  | toolCallPreparationCancelled id => rfl
  | answer e =>
    cases e with
    | textDelta delta => simp [CallEvent.text, hu.text delta he]
    | _ => rfl

theorem Unanswered.reasoningOf (hu : Unanswered es) : reasoningOf es = [] := by
  refine List.flatMap_eq_nil_iff.mpr fun e he => ?_
  cases e with
  | toolCallPreparationCancelled id => rfl
  | answer e =>
    cases e with
    | reasoningDelta id delta => simp [CallEvent.reasoning, hu.reasoning id delta he]
    | _ => rfl

theorem Cancelled.cancel {id : String} (hc : Cancelled (id :: left) es) :
    Cancelled left (es ++ [.toolCallPreparationCancelled id]) := by
  induction es with
  | nil => trivial
  | cons e es ih =>
    cases e with
    | toolCallPreparationCancelled id' => exact ih hc
    | answer e =>
      cases e with
      | toolCallPreparing id' name =>
        obtain ⟨hid, hc⟩ := hc
        refine ⟨?_, ih hc⟩
        obtain hid | hid := hid
        · exact .inl (List.mem_append_left _ hid)
        · obtain rfl | hid := List.mem_cons.mp hid
          · exact .inl (List.mem_append_right _ List.mem_cons_self)
          · exact .inr hid
      | _ => exact ih hc

theorem Cancelled.append (hc : Cancelled left es) (hsub : left ⊆ left') (hn : Cancelled left' es') :
    Cancelled left' (es ++ es') := by
  induction es with
  | nil => exact hn
  | cons e es ih =>
    cases e with
    | toolCallPreparationCancelled id' => exact ih hc
    | answer e =>
      cases e with
      | toolCallPreparing id' name =>
        exact ⟨hc.1.imp (List.mem_append_left _) (hsub ·), ih hc.2⟩
      | _ => exact ih hc

def Current : Phase → List (List CallEvent) → Prop
  | .opened, attempts | .admitting _, attempts => attempts = []
  | .calling a, attempts | .handing a, attempts => ∃ es rest, attempts = es :: rest ∧
      (a.retrySafe → Unanswered es) ∧ Cancelled a.preparingToolCallIds es
  | .cancelling left _, attempts => ∃ es rest, attempts = es :: rest ∧ Unanswered es ∧ Cancelled left es
  | .waiting _, attempts => ∃ es rest, attempts = es :: rest ∧ Unanswered es ∧ Cancelled [] es
  | .answered, _ | .settling _, _ | .done _, _ => True

structure Kept (E : List Effect) (s : CallState) : Prop where
  resent : ∀ es ∈ (deliveredByAttempt E).tail, Unanswered es ∧ Cancelled [] es
  whole : received E = (deliveredByAttempt E).reverse.flatten
  current : Current s.phase (deliveredByAttempt E)

variable {options : ModelGatewayOptions} {call : ModelCall} {streaming : Bool} {E : List Effect} {s s' : CallState}

theorem Kept.idle (hk : Kept E s) (hq : effects.foldl noteEffect (deliveredByAttempt E) = deliveredByAttempt E)
    (hnone : received effects = []) (hc : Current s'.phase (deliveredByAttempt E)) : Kept (E ++ effects) s' := by
  rw [← deliveredByAttempt_append] at hq
  exact ⟨by rw [hq]; exact hk.resent, by rw [received_append, hnone, List.append_nil, hq]; exact hk.whole,
    by rw [hq]; exact hc⟩

theorem Kept.finish (hk : Kept E s) : Kept (E ++ (s'.finish how).1) (s'.finish how).2 :=
  hk.idle rfl rfl trivial

theorem Kept.deliver (hk : Kept E s) (hes : deliveredByAttempt E = es :: rest)
    (hc : Current s'.phase ((es ++ [event]) :: rest)) : Kept (E ++ [.deliver event]) s' := by
  have hnew : deliveredByAttempt (E ++ [.deliver event]) = (es ++ [event]) :: rest := by
    rw [deliveredByAttempt_append, hes]
    rfl
  have hresent := hk.resent
  have hwhole := hk.whole
  rw [hes] at hresent hwhole
  refine ⟨by rw [hnew]; exact hresent, ?_, by rw [hnew]; exact hc⟩
  rw [received_append, hwhole, hnew]
  simp [received, Effect.event?]

theorem Kept.start (hk : Kept E s) (hall : ∀ es ∈ deliveredByAttempt E, Unanswered es ∧ Cancelled [] es) :
    Kept (E ++ (s'.start call now).1) (s'.start call now).2 := by
  unfold CallState.start
  split
  · exact hk.finish
  · have hnew : deliveredByAttempt (E ++ [.send]) = [] :: deliveredByAttempt E := deliveredByAttempt_append
    refine ⟨by rw [hnew]; exact hall, ?_, ?_⟩
    · rw [received_append, hk.whole, hnew]
      simp [received, Effect.event?]
    · rw [hnew]
      exact ⟨[], _, rfl, fun _ => .nil, trivial⟩

theorem Kept.cancel {failure : Thrown} (hk : Kept E s) (hes : deliveredByAttempt E = es :: rest)
    (hu : Unanswered es) (hc : Cancelled ids es) :
    Kept (E ++ (s'.cancel failure ids).1) (s'.cancel failure ids).2 := by
  cases ids with
  | nil => exact hk.idle rfl rfl ⟨es, rest, hes, hu, hc⟩
  | cons id left => exact hk.deliver hes ⟨_, rest, rfl, hu.cancel, hc.cancel⟩

theorem retrySafe_of_wait (h : waitBeforeRetryMs policy deadline aborted error retrySafe now random = .ok w) :
    retrySafe = true := by
  unfold waitBeforeRetryMs at h
  split at h
  · split at h
    · cases h
    · simp_all
  · cases h

theorem Kept.caught (hk : Kept E s) (hes : deliveredByAttempt E = es :: rest)
    (hu : attempt.retrySafe → Unanswered es) (hc : Cancelled attempt.preparingToolCallIds es) :
    Kept (E ++ (s'.caught call attempt thrown m).1) (s'.caught call attempt thrown m).2 := by
  unfold CallState.caught
  split
  · exact hk.finish
  · split
    · exact hk.finish
    · simp only
      split
      · exact hk.finish
      · rename_i hw
        exact hk.cancel hes (hu (retrySafe_of_wait hw)) hc

theorem Kept.read (hk : Kept E s) (hp : s.phase = .calling attempt) :
    Kept (E ++ (s.read options call attempt event m).1) (s.read options call attempt event m).2 := by
  have hcur := hk.current
  rw [hp] at hcur
  obtain ⟨es, rest, hes, hu, hc⟩ := hcur
  cases event with
  | usageReported usage => exact hk.idle rfl rfl (by simpa [CallState.read, hp] using hk.current)
  | toolCallInputDelta delta => exact hk.idle rfl rfl ⟨es, rest, hes, hu, hc⟩
  | answer e =>
    have hand : ∀ {s' : CallState} {e : CompletionEvent} {attempt' : Attempt},
        (attempt'.retrySafe → attempt.retrySafe ∧ ¬ e.closes) →
        Cancelled attempt'.preparingToolCallIds (es ++ [.answer e]) →
        Kept (E ++ (s'.hand attempt' e).1) (s'.hand attempt' e).2 := by
      intro s' e attempt' hsafe hc'
      refine hk.deliver hes ⟨_, rest, rfl, fun h => ?_, hc'⟩
      exact (hu (hsafe h).1).concat (hsafe h).2
    cases e with
    | toolCallPreparing id toolName =>
      refine hand (fun h => ⟨h, nofun⟩) ?_
      exact hc.append (List.subset_append_left _ _) ⟨.inr (by simp), trivial⟩
    | completed completion =>
      simp only [CallState.read]
      split
      · exact hk.caught hes nofun hc
      · exact hand nofun (hc.append (List.Subset.refl _) trivial)
    | textDelta delta => exact hand (by simp [Attempt.receive]) (hc.append (List.Subset.refl _) trivial)
    | reasoningDelta id delta => exact hand (by simp [Attempt.receive]) (hc.append (List.Subset.refl _) trivial)
    | providerToolStarted id toolName input => exact hand (by simp [Attempt.receive]) (hc.append (List.Subset.refl _) trivial)
    | providerToolCompleted id toolName output => exact hand (by simp [Attempt.receive]) (hc.append (List.Subset.refl _) trivial)

theorem Kept.open (hk : Kept E s) (hp : s.phase = .opened) :
    Kept (E ++ (s.open options call streaming now).1) (s.open options call streaming now).2 := by
  have hnone : deliveredByAttempt E = [] := by simpa [hp, Current] using hk.current
  unfold CallState.open
  split
  · exact hk.idle rfl rfl trivial
  · split
    · exact hk.idle rfl rfl trivial
    · split
      · exact hk.idle rfl rfl trivial
      · exact hk.idle rfl rfl hnone

theorem Kept.ends (hk : Kept E s) (hp : s.phase = .calling attempt) :
    Kept (E ++ (callStep options call streaming s (.ends m)).1) (callStep options call streaming s (.ends m)).2 := by
  have hcur := hk.current
  rw [hp] at hcur
  obtain ⟨es, rest, hes, hu, hc⟩ := hcur
  simp only [callStep, hp]
  split
  · exact hk.caught hes hu hc
  · exact hk.finish

theorem Kept.answers (hk : Kept E s) (hp : s.phase = .calling attempt) :
    Kept (E ++ (callStep options call streaming s (.answers completion m)).1)
      (callStep options call streaming s (.answers completion m)).2 := by
  have hcur := hk.current
  rw [hp] at hcur
  obtain ⟨es, rest, hes, hu, hc⟩ := hcur
  simp only [callStep, hp]
  split
  · exact hk.caught hes nofun hc
  · exact hk.deliver hes trivial

theorem Kept.takes (hk : Kept E s) (he : callEnabled call streaming s .takes) :
    Kept (E ++ (callStep options call streaming s .takes).1) (callStep options call streaming s .takes).2 := by
  have hcur := hk.current
  cases hp : s.phase with
  | handing attempt =>
    simp only [callStep, hp] at hcur ⊢
    exact hk.idle rfl rfl hcur
  | answered =>
    simp only [callStep, hp]
    exact hk.finish
  | cancelling left failure =>
    simp only [callStep, hp] at hcur ⊢
    obtain ⟨es, rest, hes, hu, hc⟩ := hcur
    exact hk.cancel hes hu hc
  | _ => simp [callEnabled, hp] at he

theorem Kept.leaves (hk : Kept E s) (he : callEnabled call streaming s .leaves) :
    Kept (E ++ (callStep options call streaming s .leaves).1) (callStep options call streaming s .leaves).2 := by
  cases hp : s.phase with
  | opened =>
    simp only [callStep, hp]
    exact hk.idle rfl rfl trivial
  | handing _ | answered | cancelling _ _ =>
    simp only [callStep, hp]
    exact hk.finish
  | _ => simp [callEnabled, hp] at he

theorem Kept.step (hk : Kept E s) (he : callEnabled call streaming s a) :
    Kept (E ++ (callStep options call streaming s a).1) (callStep options call streaming s a).2 := by
  cases a with
  | stops => exact hk.idle rfl rfl hk.current
  | deadlinePasses => exact hk.idle rfl rfl hk.current
  | opens now =>
    cases hp : s.phase with
    | opened => simpa only [callStep, hp] using hk.open hp
    | _ => simp [callEnabled, hp] at he
  | refused error =>
    cases hp : s.phase with
    | admitting admission =>
      simp only [callStep, hp]
      exact hk.idle rfl rfl trivial
    | _ => simp [callEnabled, hp] at he
  | admitted now =>
    cases hp : s.phase with
    | admitting admission =>
      have hnone : deliveredByAttempt E = [] := by simpa [hp, Current] using hk.current
      have hk' : Kept (E ++ [.admitted admission]) s := hk.idle rfl rfl hk.current
      have hnone' : deliveredByAttempt (E ++ [.admitted admission]) = [] := by
        rw [deliveredByAttempt_append, hnone]
        rfl
      simp only [callStep, hp]
      rw [List.append_cons]
      exact hk'.start (by rw [hnone']; exact nofun)
    | _ => simp [callEnabled, hp] at he
  | gives event m =>
    cases hp : s.phase with
    | calling attempt => simpa only [callStep, hp] using hk.read hp
    | _ => simp [callEnabled, hp] at he
  | ends m =>
    cases hp : s.phase with
    | calling attempt => exact hk.ends hp
    | _ => simp [callEnabled, hp] at he
  | answers completion m =>
    cases hp : s.phase with
    | calling attempt => exact hk.answers hp
    | _ => simp [callEnabled, hp] at he
  | fails error m =>
    cases hp : s.phase with
    | calling attempt =>
      have hcur := hk.current
      rw [hp] at hcur
      obtain ⟨es, rest, hes, hu, hc⟩ := hcur
      simp only [callStep, hp]
      exact hk.caught hes hu hc
    | _ => simp [callEnabled, hp] at he
  | takes => exact hk.takes he
  | leaves => exact hk.leaves he
  | wakes now =>
    cases hp : s.phase with
    | waiting failure =>
      have hcur := hk.current
      rw [hp] at hcur
      obtain ⟨es, rest, hes, hu, hc⟩ := hcur
      have hresent := hk.resent
      simp only [callStep, hp]
      refine hk.start ?_
      rw [hes] at hresent ⊢
      exact List.forall_mem_cons.mpr ⟨⟨hu, hc⟩, hresent⟩
    | _ => simp [callEnabled, hp] at he
  | interrupted =>
    cases hp : s.phase with
    | waiting failure =>
      simp only [callStep, hp]
      exact hk.finish
    | _ => simp [callEnabled, hp] at he
  | settled recorded =>
    cases hp : s.phase with
    | settling how =>
      simp only [callStep, hp]
      exact hk.idle rfl rfl trivial
    | _ => simp [callEnabled, hp] at he

theorem Kept.init : Kept [] {} where
  resent := nofun
  whole := rfl
  current := rfl

theorem flatMap_of_latest {f : CallEvent → List Char} {attempts : List (List CallEvent)}
    (h : ∀ es ∈ attempts.tail, es.flatMap f = []) :
    attempts.reverse.flatten.flatMap f = (attempts.headD []).flatMap f := by
  cases attempts with
  | nil => rfl
  | cons es rest =>
    have hrest : rest.reverse.flatten.flatMap f = [] := by
      simp only [List.flatMap_eq_nil_iff, List.mem_flatten, List.mem_reverse]
      rintro e ⟨es', hes', he⟩
      exact List.flatMap_eq_nil_iff.mp (h es' hes') e he
    simp [hrest]

theorem Kept.safely (hk : Kept E s) : ResentSafely E where
  resent := hk.resent
  whole := hk.whole
  text := by
    rw [hk.whole]
    exact flatMap_of_latest fun es hes => (hk.resent es hes).1.textOf
  reasoning := by
    rw [hk.whole]
    exact flatMap_of_latest fun es hes => (hk.resent es hes).1.reasoningOf

theorem call_resent_safely (options : ModelGatewayOptions) (call : ModelCall) (streaming : Bool)
    (hr : (callMachine options call streaming).Run {} h s) : ResentSafely (h.flatMap Prod.snd) := by
  have hstep : ∀ h s a, Kept (h.flatMap Prod.snd) s → (callMachine options call streaming).enabled s a →
      Kept ((h ++ [(a, (callMachine options call streaming).answer s a)]).flatMap Prod.snd)
        ((callMachine options call streaming).next s a) := by
    intro h s a hk he
    rw [List.flatMap_append, List.flatMap_singleton]
    exact hk.step he
  have hinit : Kept (([] : List (CallMove × List Effect)).flatMap Prod.snd) {} := Kept.init
  simpa using (hr.history hstep hinit).safely

namespace Example

def resent : List CallMove :=
  [.opens 0, .admitted 0, .gives (.answer (.toolCallPreparing "t" "search")) ⟨1, 0⟩, .takes, .fails dropped ⟨2, 0⟩,
    .takes, .wakes 2000, .gives (.answer (.textDelta "a")) ⟨2001, 0⟩, .takes, .fails dropped ⟨2002, 0⟩]

end Example

theorem call_resent_safely_once :
    let effects := ((callMachine Example.vertex Example.question true).history {} Example.resent).flatMap Prod.snd
    deliveredByAttempt effects = [[.answer (.textDelta "a")],
        [.answer (.toolCallPreparing "t" "search"), .toolCallPreparationCancelled "t"]] ∧
      ResentSafely effects := by
  have hrun : (callMachine Example.vertex Example.question true).Allows {} Example.resent := by
    decide
  exact ⟨by decide, call_resent_safely Example.vertex Example.question true hrun.run⟩

end Catalyst.Gateway
