import Catalyst.Gateway.Call

/-!
# What a call is settled with

Read from the history of a call: the completion and the usage that came last,
and the size of what came. The machine keeps the same three in `seen`, so the
one settlement of an admitted call is the one the history asks for.
-/

namespace Catalyst.Gateway

open Catalyst.Library

abbrev CallHistory := List (CallMove × List Effect)

-- -----------------
-- Read from the history
-- -----------------

def CallMove.completion? : CallMove → Option ModelCompletion
  | gives (.answer (.completed completion)) _ | answers completion _ => some completion
  | _ => none

def CallMove.usage? : CallMove → Option ModelCallUsage
  | gives (.usageReported usage) _ => some usage
  | fails error _ => error.usage
  | _ => none

def CallMove.event? : CallMove → Option AdapterEvent
  | gives event _ => some event
  | _ => none

def Effect.settlement? : Effect → Option (Option ModelCallUsage)
  | settle usage => some usage
  | _ => none

def Effect.admission? : Effect → Option ModelCallAdmission
  | admitted admission => some admission
  | _ => none

def lastCompletion (h : CallHistory) : Option ModelCompletion :=
  (h.filterMap fun x => x.1.completion?).getLast?

def lastUsage (h : CallHistory) : Option ModelCallUsage := (h.filterMap fun x => x.1.usage?).getLast?

def given (h : CallHistory) : List AdapterEvent := h.filterMap fun x => x.1.event?

def settlements (h : CallHistory) : List (Option ModelCallUsage) :=
  (h.flatMap Prod.snd).filterMap Effect.settlement?

def admissions (h : CallHistory) : List ModelCallAdmission :=
  (h.flatMap Prod.snd).filterMap Effect.admission?

def givenStep (attempts : List (List AdapterEvent)) (x : CallMove × List Effect) : List (List AdapterEvent) :=
  let attempts := match x.1.event?, attempts with
    | some e, es :: rest => (es ++ [e]) :: rest
    | _, _ => attempts
  if .send ∈ x.2 then [] :: attempts else attempts

def givenByAttempt (h : CallHistory) : List (List AdapterEvent) := h.foldl givenStep []

def begins (event : AdapterEvent) : Bool := (receivedWith event).isSome

def charactersOf (event : AdapterEvent) : Nat := ((receivedWith event).map (·.characters)).getD 0

def searchesOf (event : AdapterEvent) : Nat := ((receivedWith event).map (·.webSearchCalls)).getD 0

def sizeOf (call : ModelCall) (h : CallHistory) : InterruptedCallSize where
  inputCharacters :=
    ((givenByAttempt h).map fun es => if es.any begins then requestCharacters call estimatedCharacters else 0).sum
  outputCharacters := ((given h).map charactersOf).sum
  webSearchCallCount := ((given h).map searchesOf).sum

/-- The completion's usage, else the last one reported, else an estimate if the answer had begun. -/
def expectedUsage (call : ModelCall) (h : CallHistory) : Option ModelCallUsage :=
  match lastCompletion h, lastUsage h with
  | some completion, _ => some completion.usage
  | none, some usage => some usage
  | none, none =>
    if ∃ e ∈ given h, 0 < charactersOf e then some (estimateInterruptedCallUsage (sizeOf call h)) else none

def Phase.isOver : Phase → Bool
  | settling _ | done _ => true
  | _ => false

/-- The call was admitted at most once; at its end it is settled once with what came. -/
structure Accounted (call : ModelCall) (h : CallHistory) (s : CallState) : Prop where
  admitted : (admissions h).length ≤ 1
  settled : settlements h =
    if s.phase.isOver then (admissions h).map fun _ => expectedUsage call h else []

def seenOf (call : ModelCall) (h : CallHistory) : Seen := ⟨lastCompletion h, lastUsage h, sizeOf call h⟩

theorem lastCompletion_concat : lastCompletion (h ++ [(a, effects)]) = a.completion?.or (lastCompletion h) := by
  cases hc : a.completion? <;> simp [lastCompletion, hc]

theorem lastUsage_concat : lastUsage (h ++ [(a, effects)]) = a.usage?.or (lastUsage h) := by
  cases hu : a.usage? <;> simp [lastUsage, hu]

theorem given_concat : given (h ++ [(a, effects)]) = given h ++ a.event?.toList := by
  cases he : a.event? <;> simp [given, he]

theorem settlements_concat :
    settlements (h ++ [(a, effects)]) = settlements h ++ effects.filterMap Effect.settlement? := by
  simp [settlements]

theorem admissions_concat :
    admissions (h ++ [(a, effects)]) = admissions h ++ effects.filterMap Effect.admission? := by
  simp [admissions]

theorem admissions_append (hq : effects.filterMap Effect.admission? = []) :
    admissions (h ++ [(a, before ++ effects)]) = admissions (h ++ [(a, before)]) := by
  simp [admissions_concat, hq]

theorem givenByAttempt_concat : givenByAttempt (h ++ [x]) = givenStep (givenByAttempt h) x := by
  simp [givenByAttempt]

theorem givenStep_send (hs : .send ∈ effects) : ∃ rest, givenStep gs (a, effects) = [] :: rest :=
  ⟨_, if_pos hs⟩

theorem sizeOf_concat_effects : sizeOf call (h ++ [(a, effects)]) = sizeOf call (h ++ [(a, [])]) := by
  simp only [sizeOf, given_concat, givenByAttempt_concat, givenStep]
  split <;> simp

theorem seenOf_concat_effects : seenOf call (h ++ [(a, effects)]) = seenOf call (h ++ [(a, [])]) := by
  have hsize : sizeOf call (h ++ [(a, effects)]) = sizeOf call (h ++ [(a, [])]) := sizeOf_concat_effects
  simp only [seenOf, lastCompletion_concat, lastUsage_concat, hsize]

theorem expectedUsage_eq : expectedUsage call h = (seenOf call h).usage := by
  have hbegun : (∃ e ∈ given h, 0 < charactersOf e) ↔ 0 < (sizeOf call h).outputCharacters := by
    simp [sizeOf, List.sum_pos_iff_exists_pos_nat]
  simp only [expectedUsage, Seen.usage, seenOf, hbegun]
  cases lastCompletion h <;> cases lastUsage h <;> rfl

-- -----------------
-- What each step keeps
-- -----------------

def Phase.isAdmitted : Phase → Bool
  | opened | admitting _ => false
  | _ => true

def Phase.attempt? : Phase → Option Attempt
  | calling attempt | handing attempt => some attempt
  | _ => none

structure Live (call : ModelCall) (h : CallHistory) (s : CallState) : Prop where
  seen : s.seen = seenOf call h
  settled : settlements h = []
  admitted : (admissions h).length = if s.phase.isAdmitted then 1 else 0
  attempt : ∀ a ∈ s.phase.attempt?, ∃ es rest, givenByAttempt h = es :: rest ∧ a.answering = es.any begins

def Sound (call : ModelCall) (h : CallHistory) (s : CallState) : Prop :=
  if s.phase.isOver then Accounted call h s else Live call h s

theorem Sound.accounted (hs : Sound call h s) : Accounted call h s := by
  unfold Sound at hs
  split at hs
  · exact hs
  · rename_i hover
    refine ⟨?_, by rw [if_neg hover, hs.settled]⟩
    rw [hs.admitted]
    split <;> simp

variable {options : ModelGatewayOptions} {call : ModelCall} {streaming : Bool} {h : CallHistory}
  {s : CallState} {a : CallMove}

structure Ready (call : ModelCall) (h : CallHistory) (a : CallMove) (before : List Effect) : Prop where
  settled : settlements h = []
  admitted : (admissions (h ++ [(a, before)])).length = 1
  quiet : before.filterMap Effect.settlement? = []

theorem finish_ok (hr : Ready call h a before) (hseen : s.seen.usage = (seenOf call (h ++ [(a, [])])).usage) :
    Sound call (h ++ [(a, before ++ (s.finish how).1)]) (s.finish how).2 := by
  have hadmitted : admissions (h ++ [(a, before ++ (s.finish how).1)]) = admissions (h ++ [(a, before)]) := by
    exact admissions_append rfl
  have hexpected : expectedUsage call (h ++ [(a, before ++ (s.finish how).1)]) = s.seen.usage := by
    rw [expectedUsage_eq, seenOf_concat_effects, hseen]
  obtain ⟨admission, hone⟩ := List.length_eq_one_iff.mp hr.admitted
  refine ⟨by rw [hadmitted, hone]; simp, ?_⟩
  rw [hadmitted, hone, hexpected, settlements_concat, hr.settled, List.filterMap_append, hr.quiet]
  rfl

theorem start_ok (hr : Ready call h a before) (hseen : s.seen = seenOf call (h ++ [(a, [])])) :
    Sound call (h ++ [(a, before ++ (s.start call now).1)]) (s.start call now).2 := by
  unfold CallState.start
  split
  · exact finish_ok hr (by rw [hseen])
  · refine ⟨?_, ?_, ?_, ?_⟩
    · rw [seenOf_concat_effects, ← hseen]
    · simp [settlements_concat, hr.settled, hr.quiet, Effect.settlement?]
    · rw [admissions_append rfl, hr.admitted]
      rfl
    · rintro a' ⟨⟩
      have hsend : .send ∈ before ++ [.send] := by simp
      obtain ⟨rest, hrest⟩ := givenStep_send hsend
      exact ⟨[], rest, givenByAttempt_concat.trans hrest, rfl⟩

theorem goes_ok (hr : Ready call h a []) (hq : ∀ e ∈ effects, ∃ event, e = Effect.deliver event)
    (hp : s.phase.isAdmitted ∧ ¬ s.phase.isOver) (hseen : s.seen = seenOf call (h ++ [(a, [])]))
    (hatt : ∀ a' ∈ s.phase.attempt?, ∃ es rest,
      givenByAttempt (h ++ [(a, [])]) = es :: rest ∧ a'.answering = es.any begins) :
    Sound call (h ++ [(a, effects)]) s := by
  have hsettle : effects.filterMap Effect.settlement? = [] := by
    refine List.filterMap_eq_nil_iff.mpr fun e he => ?_
    obtain ⟨event, rfl⟩ := hq e he
    rfl
  have hadmission : effects.filterMap Effect.admission? = [] := by
    refine List.filterMap_eq_nil_iff.mpr fun e he => ?_
    obtain ⟨event, rfl⟩ := hq e he
    rfl
  have hsend : Effect.send ∉ effects := by
    intro he
    obtain ⟨event, he⟩ := hq _ he
    cases he
  have hgiven : givenByAttempt (h ++ [(a, effects)]) = givenByAttempt (h ++ [(a, [])]) := by
    simp [givenByAttempt_concat, givenStep, hsend]
  have hlive : Live call (h ++ [(a, effects)]) s :=
    { seen := by rw [seenOf_concat_effects, hseen]
      settled := by rw [settlements_concat, hr.settled, hsettle, List.append_nil]
      admitted := by rw [if_pos hp.1, ← hr.admitted, admissions_concat, admissions_concat, hadmission]; rfl
      attempt := by rw [hgiven]; exact hatt }
  rw [Sound, if_neg hp.2]
  exact hlive

theorem cancel_ok {failure : Thrown} (hr : Ready call h a []) (hseen : s.seen = seenOf call (h ++ [(a, [])])) :
    Sound call (h ++ [(a, (s.cancel failure ids).1)]) (s.cancel failure ids).2 := by
  cases ids with
  | nil => exact goes_ok hr (by simp [CallState.cancel]) ⟨rfl, nofun⟩ hseen nofun
  | cons id left => exact goes_ok hr (by simp [CallState.cancel]) ⟨rfl, nofun⟩ hseen nofun

theorem normalize_usage : (normalizeModelAdapterError t).usage = t.usage := by
  cases t with
  | provider e => rfl
  | app e => simp only [normalizeModelAdapterError]; split <;> rfl
  | abort => rfl
  | untyped codes => simp only [normalizeModelAdapterError]; split <;> rfl

theorem caught_ok (hr : Ready call h a [])
    (hstop : s.aborted ∨ s.expired → s.seen.usage = (seenOf call (h ++ [(a, [])])).usage)
    (hgo : { s.seen with reportedUsage := thrown.usage.or s.seen.reportedUsage } = seenOf call (h ++ [(a, [])])) :
    Sound call (h ++ [(a, (s.caught call attempt thrown m).1)]) (s.caught call attempt thrown m).2 := by
  unfold CallState.caught
  split
  · rename_i haborted
    exact finish_ok hr (hstop (.inl haborted))
  · split
    · rename_i hexpired
      exact finish_ok hr (hstop (.inr hexpired))
    · simp only [normalize_usage]
      split
      · exact finish_ok hr (by rw [← hgo])
      · exact cancel_ok hr hgo

theorem sizeOf_gives {seen : Seen} (hsize : seen.received = sizeOf call h) (hes : givenByAttempt h = es :: rest) :
    sizeOf call (h ++ [(.gives event m, [])]) = (seen.receive call (es.any begins) event).received := by
  have hany : (es ++ [event]).any begins = (es.any begins || (receivedWith event).isSome) := by
    simp [begins]
  simp only [sizeOf, givenByAttempt_concat, given_concat, givenStep, CallMove.event?, hes,
    List.not_mem_nil, if_false, List.map_cons, List.sum_cons, hany, Seen.receive, hsize]
  cases hr : receivedWith event with
  | none => simp [charactersOf, searchesOf, hr, hsize, sizeOf, hes]
  | some size =>
    cases es.any begins <;> simp [charactersOf, searchesOf, hr, Nat.add_comm]

theorem seenOf_gives (hl : Live call h s) (hes : givenByAttempt h = es :: rest) :
    seenOf call (h ++ [(.gives event m, [])]) = { s.seen.receive call (es.any begins) event with
      completion := (CallMove.gives event m).completion?.or s.seen.completion
      reportedUsage := (CallMove.gives event m).usage?.or s.seen.reportedUsage } := by
  have hsize : s.seen.received = sizeOf call h := by rw [hl.seen]; rfl
  simp only [seenOf, lastCompletion_concat, lastUsage_concat, sizeOf_gives hsize hes]
  rw [hl.seen]
  rfl

theorem Seen.receive_eta {seen : Seen} : { seen.receive call answering event with
    completion := seen.completion, reportedUsage := seen.reportedUsage } = seen.receive call answering event := by
  unfold Seen.receive
  split <;> rfl

theorem ready (hl : Live call h s) (hp : s.phase.isAdmitted) : Ready call h a [] where
  settled := hl.settled
  admitted := by
    have hone := hl.admitted
    rw [if_pos hp] at hone
    simpa [admissions_concat] using hone
  quiet := rfl

theorem usage_of_format (h : assertAnswersInFormat options call completion = .error thrown) :
    thrown.usage = none := by
  unfold assertAnswersInFormat at h
  split at h
  · cases h
  · cases h
    rfl

theorem read_ok (hl : Live call h s) (hp : s.phase = .calling attempt) :
    Sound call (h ++ [(.gives event m, (s.read options call attempt event m).1)])
      (s.read options call attempt event m).2 := by
  have hr : Ready call h (.gives event m) [] := ready hl (by rw [hp]; rfl)
  obtain ⟨es, rest, hes, hans⟩ := hl.attempt attempt (by rw [hp]; rfl)
  have hseen : seenOf call (h ++ [(.gives event m, [])]) = _ := seenOf_gives hl hes
  have hes' : givenByAttempt (h ++ [(.gives event m, [])]) = (es ++ [event]) :: rest := by
    simp [givenByAttempt_concat, givenStep, hes, CallMove.event?]
  have hans' : (attempt.receive event).answering = (es ++ [event]).any begins := by
    simp [Attempt.receive, hans, begins]
  rw [← hans] at hseen
  have hplain : (CallMove.gives event m).completion? = none → (CallMove.gives event m).usage? = none →
      s.seen.receive call attempt.answering event = seenOf call (h ++ [(.gives event m, [])]) := by
    intro hc hu
    rw [hseen, hc, hu]
    exact Seen.receive_eta.symm
  cases event with
  | usageReported usage =>
    refine goes_ok hr (by simp [CallState.read]) ⟨by simp [CallState.read, hp, Phase.isAdmitted],
      by simp [CallState.read, hp, Phase.isOver]⟩ hseen.symm ?_
    intro a' ha'
    obtain rfl : attempt = a' := by simpa [CallState.read, hp, Phase.attempt?] using ha'
    refine ⟨_, rest, hes', ?_⟩
    simp [hans, begins, receivedWith]
  | toolCallInputDelta delta =>
    refine goes_ok hr (by simp [CallState.read]) ⟨rfl, nofun⟩ (hplain rfl rfl) ?_
    rintro a' ⟨⟩
    exact ⟨_, rest, hes', hans'⟩
  | answer e =>
    -- every event of the answer is handed on, but for a completion of the wrong format
    have hand : ∀ {s' : CallState} {attempt' : Attempt}, s'.seen = seenOf call (h ++ [(.gives (.answer e) m, [])]) →
        attempt'.answering = (attempt.receive (.answer e)).answering →
        Sound call (h ++ [(.gives (.answer e) m, (s'.hand attempt' e).1)]) (s'.hand attempt' e).2 := by
      intro s' attempt' hs' ha'
      refine goes_ok hr (by simp [CallState.hand]) ⟨rfl, nofun⟩ hs' ?_
      rintro a' ⟨⟩
      exact ⟨_, rest, hes', ha'.trans hans'⟩
    cases e with
    | completed completion =>
      simp only [CallState.read]
      split
      · rename_i thrown hformat
        have hnone := usage_of_format hformat
        refine caught_ok hr (fun _ => ?_) ?_
        · rw [hseen]
          rfl
        · rw [hseen, hnone]
          rfl
      · exact hand hseen.symm rfl
    | toolCallPreparing id toolName => exact hand (hplain rfl rfl) rfl
    | textDelta delta => exact hand (hplain rfl rfl) rfl
    | reasoningDelta id delta => exact hand (hplain rfl rfl) rfl
    | providerToolStarted id toolName input => exact hand (hplain rfl rfl) rfl
    | providerToolCompleted id toolName output => exact hand (hplain rfl rfl) rfl

/-- The usage that an adapter reports with its failure is lost where the caller stopped or the
deadline passed before the failure was caught. -/
def ReportsBeforeStop (s : CallState) : CallMove → Prop
  | .fails error _ => s.aborted ∨ s.expired → s.seen.completion = none →
      ∀ usage ∈ error.usage, s.seen.reportedUsage = some usage
  | _ => True

instance : Decidable (ReportsBeforeStop s a) := by
  cases a <;> unfold ReportsBeforeStop <;> infer_instance

theorem seenOf_other (hl : Live call h s) (hc : a.completion? = none) (hu : a.usage? = none)
    (he : a.event? = none) : seenOf call (h ++ [(a, [])]) = s.seen := by
  rw [hl.seen]
  simp [seenOf, lastCompletion_concat, lastUsage_concat, hc, hu, sizeOf, given_concat,
    givenByAttempt_concat, givenStep, he]

theorem idle_ok (hl : Live call h s) (hc : a.completion? = none) (hu : a.usage? = none)
    (he : a.event? = none) (hp : s'.phase = s.phase) (hseen : s'.seen = s.seen) (hover : ¬ s.phase.isOver) :
    Sound call (h ++ [(a, [])]) s' := by
  rw [Sound, hp, if_neg hover]
  exact {
    seen := by rw [hseen, seenOf_other hl hc hu he]
    settled := by simp [settlements_concat, hl.settled]
    admitted := by simp [admissions_concat, hl.admitted, hp]
    attempt := by simpa [hp, givenByAttempt_concat, givenStep, he] using hl.attempt }

theorem refused_ok (hl : Live call h s) (hp : ¬ s.phase.isAdmitted) : Accounted call (h ++ [(a, [])]) s' := by
  have hnone : admissions (h ++ [(a, [])]) = [] := by
    have hlen := hl.admitted
    rw [if_neg hp] at hlen
    simpa [admissions_concat] using hlen
  refine ⟨by simp [hnone], ?_⟩
  rw [hnone, settlements_concat, hl.settled]
  simp

theorem over_ok (ha : Accounted call h s) (hover : s.phase.isOver) (hover' : s'.phase.isOver)
    (hc : a.completion? = none) (hu : a.usage? = none) (he : a.event? = none) :
    Sound call (h ++ [(a, [])]) s' := by
  have hseen : seenOf call (h ++ [(a, [])]) = seenOf call h := by
    simp [seenOf, lastCompletion_concat, lastUsage_concat, hc, hu, sizeOf, given_concat,
      givenByAttempt_concat, givenStep, he]
  have hsettled := ha.settled
  rw [if_pos hover] at hsettled
  rw [Sound, if_pos hover']
  refine ⟨by simpa [admissions_concat] using ha.admitted, ?_⟩
  rw [if_pos hover', expectedUsage_eq, hseen, ← expectedUsage_eq]
  simpa [settlements_concat, admissions_concat] using hsettled

theorem open_ok (hl : Live call h s) (hp : ¬ s.phase.isAdmitted) :
    Sound call (h ++ [(.opens now, (s.open options call streaming now).1)]) (s.open options call streaming now).2 := by
  unfold CallState.open
  split
  · exact refused_ok hl hp
  · split
    · exact refused_ok hl hp
    · split
      · exact refused_ok hl hp
      · have hnone := hl.admitted
        rw [if_neg hp] at hnone
        exact {
          seen := by rw [seenOf_other hl rfl rfl rfl]
          settled := by simp [settlements_concat, hl.settled]
          admitted := by simpa [admissions_concat, Phase.isAdmitted] using hnone
          attempt := nofun }

theorem ends_ok (hl : Live call h s) (hp : s.phase = .calling attempt) :
    Sound call (h ++ [(.ends m, (callStep options call streaming s (.ends m)).1)])
      (callStep options call streaming s (.ends m)).2 := by
  have hr : Ready call h (.ends m) [] := ready hl (by rw [hp]; rfl)
  have hseen : seenOf call (h ++ [(.ends m, [])]) = s.seen := seenOf_other hl rfl rfl rfl
  simp only [callStep, hp]
  split
  · exact caught_ok hr (fun _ => by rw [hseen]) (by rw [hseen]; rfl)
  · exact finish_ok hr (by rw [hseen])

theorem answers_ok (hl : Live call h s) (hp : s.phase = .calling attempt) :
    Sound call (h ++ [(.answers completion m, (callStep options call streaming s (.answers completion m)).1)])
      (callStep options call streaming s (.answers completion m)).2 := by
  have hr : Ready call h (.answers completion m) [] := ready hl (by rw [hp]; rfl)
  have hseen : { s.seen with completion := some completion } =
      seenOf call (h ++ [(.answers completion m, [])]) := by
    rw [hl.seen]
    simp [seenOf, lastCompletion_concat, lastUsage_concat, sizeOf, given_concat, givenByAttempt_concat,
      givenStep, CallMove.completion?, CallMove.usage?, CallMove.event?]
  simp only [callStep, hp]
  split
  · rename_i thrown hformat
    have hnone := usage_of_format hformat
    exact caught_ok hr (fun _ => by rw [hseen]) (by rw [hnone]; exact hseen)
  · exact goes_ok hr (by simp) ⟨rfl, nofun⟩ hseen nofun

theorem fails_ok (hl : Live call h s) (hp : s.phase = .calling attempt)
    (hc : ReportsBeforeStop s (.fails error m)) :
    Sound call (h ++ [(.fails error m, (callStep options call streaming s (.fails error m)).1)])
      (callStep options call streaming s (.fails error m)).2 := by
  have hr : Ready call h (.fails error m) [] := ready hl (by rw [hp]; rfl)
  have hseen : { s.seen with reportedUsage := error.usage.or s.seen.reportedUsage } =
      seenOf call (h ++ [(.fails error m, [])]) := by
    rw [hl.seen]
    simp [seenOf, lastCompletion_concat, lastUsage_concat, sizeOf, given_concat, givenByAttempt_concat,
      givenStep, CallMove.completion?, CallMove.usage?, CallMove.event?]
  simp only [callStep, hp]
  refine caught_ok hr (fun hstop => ?_) hseen
  rw [← hseen]
  cases hcompletion : s.seen.completion with
  | some completion => simp [Seen.usage, hcompletion]
  | none =>
    cases husage : error.usage with
    | none => rfl
    | some usage => simp [Seen.usage, hcompletion, hc hstop hcompletion usage husage]

theorem takes_ok (hl : Live call h s) (he : callEnabled call streaming s .takes) :
    Sound call (h ++ [(.takes, (callStep options call streaming s .takes).1)])
      (callStep options call streaming s .takes).2 := by
  have hseen : seenOf call (h ++ [(.takes, [])]) = s.seen := seenOf_other hl rfl rfl rfl
  cases hp : s.phase with
  | handing attempt =>
    obtain ⟨es, rest, hes, hans⟩ := hl.attempt attempt (by rw [hp]; rfl)
    simp only [callStep, hp]
    refine goes_ok (ready hl (by rw [hp]; rfl)) (by simp) ⟨rfl, nofun⟩ hseen.symm ?_
    rintro a' ⟨⟩
    exact ⟨es, rest, by simp [givenByAttempt_concat, givenStep, CallMove.event?, hes], hans⟩
  | answered =>
    simp only [callStep, hp]
    exact finish_ok (ready hl (by rw [hp]; rfl)) (by rw [hseen])
  | cancelling left failure =>
    simp only [callStep, hp]
    exact cancel_ok (ready hl (by rw [hp]; rfl)) hseen.symm
  | _ => simp [callEnabled, hp] at he

theorem leaves_ok (hl : Live call h s) (he : callEnabled call streaming s .leaves) :
    Sound call (h ++ [(.leaves, (callStep options call streaming s .leaves).1)])
      (callStep options call streaming s .leaves).2 := by
  have hseen : seenOf call (h ++ [(.leaves, [])]) = s.seen := seenOf_other hl rfl rfl rfl
  cases hp : s.phase with
  | opened =>
    simp only [callStep, hp]
    exact refused_ok hl (by simp [hp, Phase.isAdmitted])
  | handing _ | answered | cancelling _ _ =>
    simp only [callStep, hp]
    exact finish_ok (ready hl (by rw [hp]; rfl)) (by rw [hseen])
  | _ => simp [callEnabled, hp] at he

theorem over_step_ok (ha : Accounted call h s) (hover : s.phase.isOver) (he : callEnabled call streaming s a) :
    Sound call (h ++ [(a, (callStep options call streaming s a).1)])
      (callStep options call streaming s a).2 := by
  cases a with
  | stops => exact over_ok ha hover hover rfl rfl rfl
  | settled recorded =>
    cases hp : s.phase with
    | settling how => simpa [callStep, hp] using over_ok ha hover rfl rfl rfl rfl
    | _ => simp [callEnabled, hp] at he
  | _ => cases hp : s.phase <;> simp_all [callEnabled, Phase.isOver]

theorem step_ok (hs : Sound call h s) (he : callEnabled call streaming s a) (hc : ReportsBeforeStop s a) :
    Sound call (h ++ [(a, (callStep options call streaming s a).1)])
      (callStep options call streaming s a).2 := by
  by_cases hover : s.phase.isOver
  · exact over_step_ok hs.accounted hover he
  rw [Sound, if_neg hover] at hs
  cases a with
  | stops => exact idle_ok hs rfl rfl rfl rfl rfl hover
  | deadlinePasses => exact idle_ok hs rfl rfl rfl rfl rfl hover
  | opens now =>
    cases hp : s.phase with
    | opened => simpa only [callStep, hp] using open_ok hs (by simp [hp, Phase.isAdmitted])
    | _ => simp [callEnabled, hp] at he
  | refused error =>
    cases hp : s.phase with
    | admitting admission =>
      simp only [callStep, hp]
      exact refused_ok hs (by simp [hp, Phase.isAdmitted])
    | _ => simp [callEnabled, hp] at he
  | admitted now =>
    cases hp : s.phase with
    | admitting admission =>
      have hr : Ready call h (.admitted now) [.admitted admission] := by
        have hnone := hs.admitted
        simp only [hp, Phase.isAdmitted, Bool.false_eq_true, if_false, List.length_eq_zero_iff] at hnone
        exact ⟨hs.settled, by simp [admissions_concat, hnone, Effect.admission?], rfl⟩
      simp only [callStep, hp]
      exact start_ok hr (seenOf_other hs rfl rfl rfl).symm
    | _ => simp [callEnabled, hp] at he
  | gives event m =>
    cases hp : s.phase with
    | calling attempt => simpa only [callStep, hp] using read_ok hs hp
    | _ => simp [callEnabled, hp] at he
  | ends m =>
    cases hp : s.phase with
    | calling attempt => exact ends_ok hs hp
    | _ => simp [callEnabled, hp] at he
  | answers completion m =>
    cases hp : s.phase with
    | calling attempt => exact answers_ok hs hp
    | _ => simp [callEnabled, hp] at he
  | fails error m =>
    cases hp : s.phase with
    | calling attempt => exact fails_ok hs hp hc
    | _ => simp [callEnabled, hp] at he
  | takes => exact takes_ok hs he
  | leaves => exact leaves_ok hs he
  | wakes now =>
    cases hp : s.phase with
    | waiting failure =>
      simp only [callStep, hp]
      exact start_ok (ready hs (by rw [hp]; rfl)) (seenOf_other hs rfl rfl rfl).symm
    | _ => simp [callEnabled, hp] at he
  | interrupted =>
    cases hp : s.phase with
    | waiting failure =>
      simp only [callStep, hp]
      exact finish_ok (ready hs (by rw [hp]; rfl)) (by rw [seenOf_other hs rfl rfl rfl])
    | _ => simp [callEnabled, hp] at he
  | settled recorded => cases hp : s.phase <;> simp_all [callEnabled, Phase.isOver]

theorem sound_init : Sound call [] {} where
  seen := rfl
  settled := rfl
  admitted := rfl
  attempt := nofun

/-- A call whose adapter reports no further usage with a failure once it is stopped. -/
theorem call_accounted (options : ModelGatewayOptions) (call : ModelCall) (streaming : Bool)
    (hr : ((callMachine options call streaming).when ReportsBeforeStop).Run {} h s) :
    Accounted call h s := by
  have hstep : ∀ h s a, Sound call h s → ((callMachine options call streaming).when ReportsBeforeStop).enabled s a →
      Sound call (h ++ [(a, ((callMachine options call streaming).when ReportsBeforeStop).answer s a)])
        (((callMachine options call streaming).when ReportsBeforeStop).next s a) :=
    fun h s a hs he => step_ok hs he.1 he.2
  have hinit : Sound call [] {} := sound_init
  simpa using (hr.history hstep hinit).accounted

namespace Example

def used : ModelCallUsage := ⟨12, 0, 3, 15, .providerReported, 0, none⟩

def blocked : Thrown :=
  .provider { kind := .invalidResponse, message := "Model provider returned no answer", usage := some used }

def stopped : List CallMove := [.opens 0, .admitted 0, .stops, .fails blocked ⟨1, 0⟩]

def retried : List CallMove :=
  [.opens 0, .admitted 0, .fails dropped ⟨1, 0⟩, .wakes 2000, .gives (.usageReported used) ⟨2001, 0⟩,
    .gives (.answer (.textDelta "a")) ⟨2002, 0⟩, .takes, .stops, .fails .abort ⟨2003, 0⟩, .settled true]

instance : Decidable (((callMachine vertex question streaming).when ReportsBeforeStop).enabled s a) :=
  inferInstanceAs (Decidable (callEnabled question streaming s a = true ∧ ReportsBeforeStop s a))

end Example

/-- The call ends as stopped and is settled with nothing used, though the provider reported usage. -/
theorem usage_of_a_stopped_call_is_lost :
    ∃ h s, (callMachine Example.vertex Example.question false).Run {} h s ∧ s.phase = .settling (.failed .abort) ∧
      settlements h = [none] ∧ lastUsage h = some Example.used ∧ ¬ Accounted Example.question h s := by
  have hrun : (callMachine Example.vertex Example.question false).Allows {} Example.stopped := by
    decide
  refine ⟨_, _, hrun.run, by decide, by decide, by decide, ?_⟩
  intro ha
  exact absurd ha.settled (by decide)

theorem call_accounted_retried :
    settlements ((callMachine Example.vertex Example.question true).history {} Example.retried) =
      [some Example.used] := by
  have hrun : ((callMachine Example.vertex Example.question true).when ReportsBeforeStop).Allows {}
      Example.retried := by
    decide
  have ha := call_accounted Example.vertex Example.question true hrun.run
  exact ha.settled.trans (by decide)

end Catalyst.Gateway
