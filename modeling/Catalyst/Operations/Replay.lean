import Catalyst.Operations.Once

/-!
# Calls with one key

Whoever finds its key taken changes nothing. It reads what the first call came to, or that it
has not ended, where it is the same call, and is refused where it is another one.
-/

namespace Catalyst.Operations

open Library Library.Check Library.Processes

variable {db : Db} {g : Going}

def Going.Claims (g : Going) : Prop := ∃ n, g.phase = .creating n ∨ g.phase = .finding n

/-- The call changes nothing and gets no run. Where its store does not fail, all it answers is in `P`. -/
structure OnlyAnswers (g : Going) (db : Db) (P : Answer → Prop) : Prop where
  unchanged : (g.step db).2.2 = db
  answers : ∀ event, (g.step db).1 = some event → ∃ answer, event = .answered g.call answer ∧ (answer = .error .other ∨ P answer)
  looks : ∀ t, (g.step db).2.1 = some t → ∃ n g', g.phase = .creating n ∧ t = .going g' ∧ g'.call = g.call ∧ g'.phase = .finding n

theorem OnlyAnswers.imp {P Q : Answer → Prop} (h : OnlyAnswers g db P) (hPQ : ∀ a, P a → Q a) : OnlyAnswers g db Q :=
  ⟨h.unchanged, fun e he => have ⟨a, ha, hp⟩ := h.answers e he; ⟨a, ha, hp.imp_right (hPQ a)⟩, h.looks⟩

theorem onlyAnswers_of_answers {P : Answer → Prop} (h : g.step db = g.answers db answer) (ha : answer = .error .other ∨ P answer) :
    OnlyAnswers g db P := by
  refine ⟨by rw [h]; rfl, fun event he => ?_, fun t ht => ?_⟩
  · rw [h] at he
    exact ⟨answer, (Option.some.inj he).symm, ha⟩
  · rw [h] at ht
    cases ht

theorem onlyAnswers_of_looks {P : Answer → Prop} (hp : g.phase = .creating n) (h : g.step db = g.sends db (.finding n)) :
    OnlyAnswers g db P := by
  refine ⟨by rw [h]; rfl, fun event he => ?_, fun t ht => ?_⟩
  · rw [h] at he
    cases he
  · rw [h] at ht
    exact ⟨n, _, hp, (Option.some.inj ht).symm, rfl, rfl⟩

/-- A holder of the key that does not run again for the call is all the call sees. -/
theorem taken_onlyAnswers (hd : db.Ok) (hr : r ∈ db.runs) (hk : r.holdsKey g.call.actor g.call.idempotencyKey)
    (hno : ¬ (r.Unexecuted ∧ r.sameCall g.call)) (hg : g.Claims) : OnlyAnswers g db (· = replay r g.call) := by
  obtain ⟨n, hp | hp⟩ := hg
  · have hcreate : createOperationRun db g.call = (none, db) := by
      have hc := createOperationRun_created hd g.call
      generalize createOperationRun db g.call = out at hc
      cases hc with
      | taken => rfl
      | fresh hfree => exact absurd hk (hfree r hr)
      | again hheld hkey hu hsame =>
        have hsame : _ = r := hd.keys _ hheld r hr _ _ hkey hk
        exact absurd ⟨hsame ▸ hu, hsame ▸ ‹_›⟩ hno
    have hstep : g.step db = g.create db n := by simp only [Going.step, hp]
    rw [Going.create, hcreate] at hstep
    have hkey : g.call.idempotencyKey ≠ none := fun h => by simp [h, OperationRun.holdsKey] at hk
    cases hf : g.script.fault g.sent with
    | beforeCommit | afterCommit =>
      simp only [hf] at hstep
      exact onlyAnswers_of_answers hstep (.inl rfl)
    | none =>
      simp only [hf, if_neg hkey] at hstep
      exact onlyAnswers_of_looks hp hstep
  · have hfind : findOperationRunByIdempotencyKey db g.call.actor g.call.idempotencyKey = some r :=
      hd.holder_eq_some.mpr ⟨hr, hk⟩
    have hstep : g.step db = g.find db n := by simp only [Going.step, hp]
    rw [Going.find, hfind] at hstep
    simp only at hstep
    split at hstep
    · exact onlyAnswers_of_answers hstep (.inl rfl)
    · split at hstep
      · exact onlyAnswers_of_answers hstep (.inr rfl)
      · rename_i hruns
        have hagain := (hd.runsAgain_iff hr hk).mp (Decidable.of_not_not hruns)
        have hother : ¬ r.sameCall g.call := fun hs => hno ⟨hagain, hs⟩
        rw [if_pos hother] at hstep
        exact onlyAnswers_of_answers hstep (.inr (by rw [replay, if_pos hother]))

def recordedAnswer (run : OperationRunId) : Except Thrown String → Answer
  | .ok output => match retainedOutput output with
    | some kept => .ok (.done run kept)
    | none => .error outputNotRetained
  | .error (.forbidden action reason) => .ok (.denied run (.forbidden action reason))
  | .error error => .ok (.failed run (.app (toErrorEnvelope error).code) (toErrorEnvelope error).message)

def InProgress (answer : Answer) : Prop := answer = .error firstCallNotEnded ∨ answer = .error firstCallInterrupted

theorem replay_records {r : OperationRun} (h : r.Records call outcome) (hc : call.effect = .changing) (hs : r.sameCall call') :
    InProgress (replay r call') ∨ replay r call' = recordedAnswer r.id outcome := by
  unfold replay
  rw [if_neg (Decidable.not_not.mpr hs)]
  rcases h with (h | ⟨h, he⟩) | ⟨old, rfl⟩
  · exact .inl (.inl (by rw [h]))
  · exact .inl (.inr (by rw [h, he]; rfl))
  · refine .inr ?_
    rcases outcome with error | output
    · cases error <;> rfl
    · simp only [executedEnd, OperationRun.ended, hc, if_true, recordedAnswer]
      cases retainedOutput output <;> rfl

def enteredFor (actor : Actor) (key : String) (log : List Event) : List OperationRunId :=
  log.filterMap fun
    | .entered run call _ => if call.actor = actor ∧ call.idempotencyKey = some key then some run else none
    | _ => none

theorem enteredFor_sublist : List.Sublist (enteredFor actor key log) (enteredRuns log) := by
  induction log with
  | nil => exact .refl _
  | cons e es ih =>
    simp only [enteredFor, enteredRuns, List.filterMap_cons]
    cases e with
    | entered run call outcome =>
      by_cases hc : call.actor = actor ∧ call.idempotencyKey = some key
      · simp only [if_pos hc]
        exact ih.cons_cons run
      · simp only [if_neg hc]
        exact ih.cons run
    | rejected | answered => exact ih

theorem mem_enteredFor : run ∈ enteredFor actor key log ↔
    ∃ call outcome, Event.entered run call outcome ∈ log ∧ call.actor = actor ∧ call.idempotencyKey = some key := by
  simp only [enteredFor, List.mem_filterMap]
  constructor
  · rintro ⟨e, he, h⟩
    cases e with
    | entered run' call outcome =>
      simp only [Option.ite_none_right_eq_some, Option.some.injEq] at h
      obtain ⟨hc, rfl⟩ := h
      exact ⟨call, outcome, he, hc⟩
    | rejected | answered => cases h
  · rintro ⟨call, outcome, he, hc⟩
    exact ⟨_, he, by simp [hc]⟩

theorem length_le_one_of_nodup {l : List α} (h : l.Nodup) (he : ∀ a ∈ l, ∀ b ∈ l, a = b) : l.length ≤ 1 := by
  match l, h with
  | [], _ | [_], _ => simp
  | a :: b :: l, h =>
    have hab := he a (by simp) b (by simp)
    simp [hab] at h

theorem Once.entered_le_one (h : Once log db) : (enteredFor actor key log).length ≤ 1 := by
  refine length_le_one_of_nodup (h.once.sublist enteredFor_sublist) fun a ha b hb => ?_
  obtain ⟨call, outcome, he, hactor, hkey⟩ := mem_enteredFor.mp ha
  obtain ⟨call', outcome', he', hactor', hkey'⟩ := mem_enteredFor.mp hb
  obtain ⟨r, hr, rfl, hof, _⟩ := h.recorded _ _ _ he
  obtain ⟨r', hr', rfl, hof', _⟩ := h.recorded _ _ _ he'
  have hk : r.holdsKey actor (some key) := ⟨hof.actor.trans hactor, hof.idempotencyKey.trans hkey, rfl⟩
  have hk' : r'.holdsKey actor (some key) := ⟨hof'.actor.trans hactor', hof'.idempotencyKey.trans hkey', rfl⟩
  rw [h.ok.keys r hr r' hr' _ _ hk hk']

/-- What holds of the calls wherever a history of them has led. -/
structure CallsSound (log : List Event) (s : Pool Db Process) : Prop where
  /-- The implementation is entered at most once for a key. -/
  once : ∀ actor key, (enteredFor actor key log).length ≤ 1
  /-- After that the same call is answered what that execution came to. -/
  replayed : ∀ p ∈ s.running, ∀ g : Going, p.2 = .going g → g.Claims →
    ∀ run call outcome, .entered run call outcome ∈ log → call.actor = g.call.actor →
      call.idempotencyKey = g.call.idempotencyKey → call.idempotencyKey.isSome →
      call.operation = g.call.operation → call.inputHash = g.call.inputHash →
      OnlyAnswers g s.store fun answer => InProgress answer ∨ answer = recordedAnswer run outcome
  /-- Another call with the key is refused. -/
  reused : ∀ p ∈ s.running, ∀ g : Going, p.2 = .going g → g.Claims →
    ∀ r ∈ s.store.runs, r.holdsKey g.call.actor g.call.idempotencyKey →
      ¬ (r.operation = g.call.operation ∧ r.inputHash = g.call.inputHash) →
      OnlyAnswers g s.store (· = .error keyReused)
  /-- A run is handed out again only where it failed and was never executed. -/
  again : ∀ call run, (createOperationRun s.store call).1 = some run → ∀ r ∈ s.store.runs, r.id = run.id →
    r.status = .failed ∧ (∃ e ∈ r.error, e.unexecuted) ∧ r.id ∉ enteredRuns log

theorem callsSound_of_once (h : once.Ok log s) : CallsSound log s := by
  have ho : Once log s.store := h.holds
  refine ⟨fun _ _ => ho.entered_le_one, ?_, ?_, ?_⟩
  · intro p hp g hg hclaims run call outcome he hactor hkey hsome hoperation hinput
    obtain ⟨r, hr, rfl, hof, hrec⟩ := ho.recorded run call outcome he
    have hk : r.holdsKey g.call.actor g.call.idempotencyKey :=
      ⟨hof.actor.trans hactor, hof.idempotencyKey.trans hkey, hkey ▸ hsome⟩
    have hsame : r.sameCall g.call :=
      ⟨hof.operation.trans hoperation, hof.inputHash.trans hinput, congrArg Actor.kind hk.1⟩
    have hchanging : call.effect = .changing :=
      hof.effect ▸ ho.ok.changing r hr (hof.idempotencyKey ▸ hsome)
    refine (taken_onlyAnswers ho.ok hr hk (fun hu => hrec.not_unexecuted hu.1) hclaims).imp ?_
    rintro answer rfl
    exact replay_records hrec hchanging hsame
  · intro p hp g hg hclaims r hr hk hother
    have hsame : ¬ r.sameCall g.call := fun hs => hother ⟨hs.1, hs.2.1⟩
    refine (taken_onlyAnswers ho.ok hr hk (fun hu => hsame hu.2) hclaims).imp ?_
    rintro answer rfl
    rw [replay, if_pos hsame]
  · intro call run hc r hr hid
    have hcreated := createOperationRun_created ho.ok call
    generalize createOperationRun s.store call = out at hcreated hc
    cases hcreated with
    | taken => cases hc
    | fresh =>
      obtain rfl := Option.some.inj hc
      exact absurd (ho.ok.fresh r hr) (by rw [hid]; exact Nat.lt_irrefl _)
    | again hheld hkey hu =>
      obtain rfl := Option.some.inj hc
      have heq := eq_of_key ho.ok.ids hr hheld hid
      rw [← heq] at hu
      refine ⟨hu.1, hu.2, fun he => ?_⟩
      obtain ⟨call', outcome, he⟩ := mem_enteredRuns.mp he
      obtain ⟨r', hr', hid', _, hrec⟩ := ho.recorded _ _ _ he
      exact hrec.not_unexecuted (eq_of_key ho.ok.ids hr' hr hid' ▸ hu)

def operationSystem (platform : Platform) : Machine (Pool Db Process) (Move (Request × Script) Sweep) (Option Event) :=
  (operationCalls platform).machine (fun db => db.runs = []) fun _ _ => True

instance : Decidable ((operationCalls platform).blocks q t) := inferInstanceAs (Decidable False)

instance : Decidable ((operationSystem platform).enabled s a) :=
  inferInstanceAs (Decidable ((operationCalls platform).Unblocked s a ∧ True))

namespace Example

def platform : Platform where
  resolve _ := some ⟨"skills.rename", .changing, true, false, some⟩
  hashInput input := input

/-- Everything allows the call, no statement fails, and the implementation answers. -/
def script : Script where
  right := .ok .allowed
  authorizationChecked := .ok ()
  policyInput := .ok ()
  resolvePolicy _ := ⟨false, .run⟩
  beforeCall := .ok [.allow]
  beforeEvent := "operation.before_call"
  approvals := none
  approvalExpiresAt := 0
  operationStarted := .ok ()
  execute := .ok "true"
  fault _ := .none
  announced _ := .ok ()

def request : Request := ⟨"skills.rename", .changing, "input", ⟨.user, "u"⟩, .user, some "key"⟩

def moves : List (Move (Request × Script) Sweep) :=
  [.start (request, script), .start (request, script), .advance 0, .advance 0, .advance 1]

def idle : Pool Db Process := ⟨⟨[], 0⟩, [], 0⟩

def looking : Pool Db Process := (operationSystem platform).after idle moves

theorem moves_allowed : (operationSystem platform).Allows idle moves := by decide

end Example

end Catalyst.Operations
