import Catalyst.Library.Table
import Catalyst.StructuredData.Patches

/-!
# Patches that lose nothing

Nothing compares what a patch was computed from with what it is stored over. A patch that another
call was published under takes that call's fields back.
-/

namespace Catalyst.StructuredData

open Library Library.Check Library.Processes

variable {k f : String} {p : Patch} {db : Db} {s t : Pool Db Call}
  {m : Move PublishInput Sends} {log : List Answer}

abbrev CallMove := Move PublishInput Sends

def Db.field? (db : Db) (k f : String) : Option StructuredDataField :=
  db.resource.bind fun r => fieldIn r.state.sections k f

def Call.OnWhatItRead (db : Db) : Call → Prop
  | .publishing ⟨.patch p read, _, _⟩ => ∀ r ∈ db.resource, p.others read = p.others r.state
  | _ => True

instance (db : Db) (call : Call) : Decidable (call.OnWhatItRead db) := by
  unfold Call.OnWhatItRead
  split <;> infer_instance

def OnWhatItRead (s : Pool Db Call) : CallMove → Prop
  | .advance pid => ∀ call ∈ s.at? pid, call.OnWhatItRead s.store
  | _ => True

def Answer.touches (k f : String) : Answer → Prop
  | .refused _ => False
  | .published .replacement _ => True
  | .published (.patch p _) _ => p.names k f = true

def Counted (before after : Option StructuredDataResourceRecord) : Option Answer → Prop
  | some (.published _ revision) =>
    after.map (·.revision) = some revision ∧ revision = (before.map (·.revision)).getD 0 + 1
  | _ => after = before

def Call.Ok (db : Db) : Call → Prop
  | .publishing ⟨.replacement, _, state⟩ => KeysUnique state.sections
  | .publishing ⟨.patch p read, _, state⟩ =>
    db.resource.isSome ∧ KeysUnique read.sections ∧ ∃ ids, patched ids p read = .ok state
  | _ => True

def assertions : Assertions Db Call Answer where
  holds _ db := ∀ r ∈ db.resource, KeysUnique r.state.sections
  relies _ db call := call.Ok db
  apart _ _ := True

theorem keys_of_forall₂ {α β : Type} {key : α → String} {key' : β → String} {given : List α} {made : List β}
    (h : List.Forall₂ (fun a b => key' b = key a) given made) : made.map key' = given.map key := by
  induction h with
  | nil => rfl
  | cons hkey _ ih => rw [List.map_cons, List.map_cons, hkey, ih]

theorem replaced_unique {ids : AttachmentIds} {input : ReplaceInput} {state : StructuredDataState}
    (h : replaced ids input = .ok state) : KeysUnique state.sections := by
  simp only [replaced, bind_ok, pure_ok] at h
  obtain ⟨sections, hsections, rfl⟩ := h
  have hmap := mapM_ok.mp hsections
  have hkeys : sections.map (·.key) = input.sections.map (·.key) := by
    refine keys_of_forall₂ (hmap.imp fun given made hmade => ?_)
    simp only [replaceSection, bind_ok, pure_ok] at hmade
    obtain ⟨_, _, rfl⟩ := hmade
    rfl
  refine ⟨hkeys ▸ input.sections_nodup, fun made hmade => ?_⟩
  obtain ⟨given, hgiven, hsection⟩ := forall₂_mem_right hmap hmade
  simp only [replaceSection, bind_ok, pure_ok] at hsection
  obtain ⟨fields, hfields, rfl⟩ := hsection
  have hfieldKeys : fields.map (·.key) = given.fields.map (·.key) := by
    refine keys_of_forall₂ ((mapM_ok.mp hfields).imp fun given made hmade => ?_)
    simp only [replaceField, bind_ok, pure_ok] at hmade
    obtain ⟨_, _, rfl⟩ := hmade
    rfl
  exact hfieldKeys ▸ input.fields_nodup given hgiven

theorem goesOn_store (result : Except Refusal Call) : (goesOn db result).2.2 = db := by
  cases result <;> rfl

theorem goesOn_call {result : Except Refusal Call} {call : Call} (h : call ∈ (goesOn db result).2.1) :
    result = .ok call := by
  cases result with
  | ok call' => exact congrArg _ (Option.some.inj h)
  | error refusal => cases h

theorem prepared_ok {input : PublishInput} {call : Call} (h : prepared db input = .ok call) : call.Ok db := by
  simp only [prepared, bind_ok] at h
  obtain ⟨ids, _, h⟩ := h
  cases input with
  | replace input =>
    simp only [bind_ok, pure_ok] at h
    obtain ⟨state, hstate, rfl⟩ := h
    exact replaced_unique hstate
  | patch patch =>
    obtain rfl := pure_ok.mp h
    trivial

theorem patchedCurrent_ok {ids : AttachmentIds} {call : Call} (hdb : ∀ r ∈ db.resource, KeysUnique r.state.sections)
    (h : patchedCurrent db p ids = .ok call) : call.Ok db := by
  simp only [patchedCurrent, bind_ok, need_ok, pure_ok] at h
  obtain ⟨current, hcurrent, state, hstate, rfl⟩ := h
  exact ⟨Option.isSome_of_mem hcurrent, hdb current hcurrent, ids, hstate⟩

theorem Call.Ok.mono {db' : Db} {call : Call} (h : call.Ok db) (hr : db.resource.isSome → db'.resource.isSome) :
    call.Ok db' := by
  unfold Call.Ok at h ⊢
  split at h
  · exact h
  · exact ⟨hr h.1, h.2⟩
  · trivial

theorem Call.Ok.publishes {w : Publication} (h : (Call.publishing w).Ok db) : KeysUnique w.state.sections := by
  obtain ⟨basis, title, state⟩ := w
  cases basis with
  | replacement => exact h
  | patch p read =>
    obtain ⟨-, hread, ids, hstate⟩ := h
    exact patched_unique hstate hread

theorem goesOn_keeps {log : List Answer} {result : Except Refusal Call} {other : Call → Prop}
    (hdb : ∀ r ∈ db.resource, KeysUnique r.state.sections) :
    assertions.Keeps log db other (goesOn db result).1 (goesOn db result).2.2 := by
  rw [goesOn_store]
  exact ⟨hdb, fun _ _ h => h⟩

theorem publishing_inductive : calls.Inductive assertions fun _ _ => True where
  symm _ _ _ := trivial
  start _ _ _ _ _ := ⟨trivial, fun _ => trivial⟩
  step log s pid call hok _ _ hr _ := by
    have hnext : ∀ {result : Except Refusal Call}, (∀ call, result = .ok call → call.Ok s.store) →
        ∀ call' ∈ (goesOn s.store result).2.1, assertions.relies (log ++ (goesOn s.store result).1.toList)
          (goesOn s.store result).2.2 call' ∧
          ∀ q, assertions.relies log s.store q → assertions.apart call q → ¬ calls.blocks q call → True := by
      intro result hresult call' hcall'
      rw [goesOn_store]
      exact ⟨hresult call' (goesOn_call hcall'), fun _ _ _ _ => trivial⟩
    cases call with
    | started input => exact ⟨goesOn_keeps hok.holds, hnext fun _ => prepared_ok⟩
    | reading patch ids => exact ⟨goesOn_keeps hok.holds, hnext fun _ => patchedCurrent_ok hok.holds⟩
    | publishing w =>
      refine ⟨⟨?_, fun q _ hq => hq.mono fun _ => rfl⟩, by rintro _ ⟨⟩⟩
      rintro r ⟨⟩
      unfold Db.publish
      split <;> exact hr.publishes
  env _ _ _ hok _ := ⟨hok.holds, fun _ _ hq => hq⟩

theorem reachable_ok (hs : (publishing fun _ _ => True).Reachable s) : ∃ log, assertions.Ok log s := by
  obtain ⟨s₀, h, hinit, hr⟩ := hs
  have hidle : assertions.Ok [] s₀ := .of_idle hinit.2.1 hinit.1
  exact ⟨_, publishing_inductive.run_ok hr hidle⟩

theorem publish_counted (db : Db) (title : String) (state : StructuredDataState) (basis : Basis) :
    Counted db.resource (some (db.publish title state)) (some (.published basis (db.publish title state).revision)) := by
  refine ⟨rfl, ?_⟩
  unfold Db.publish
  cases db.resource <;> simp

theorem counted_of_goesOn (result : Except Refusal Call) :
    Counted db.resource (goesOn db result).2.2.resource (goesOn db result).1 := by
  cases result <;> rfl

theorem step_counted (db : Db) (call : Call) : Counted db.resource (step db call).2.2.resource (step db call).1 := by
  cases call with
  | started input => exact counted_of_goesOn _
  | reading patch ids => exact counted_of_goesOn _
  | publishing w => exact publish_counted db w.title w.state w.basis

theorem move_counted (s : Pool Db Call) (m : CallMove) :
    Counted s.store.resource (calls.move s m).2.store.resource (calls.move s m).1 := by
  cases m with
  | advance pid =>
    simp only [Processes.move, Processes.advance]
    cases s.at? pid with
    | none => rfl
    | some call => exact step_counted s.store call
  | start | abort | env => rfl

/-- A field that no call touches stays as it is, where each patch is stored on what it read. -/
theorem move_field (hok : assertions.Ok log s) (he : ((publishing fun _ _ => True).when OnWhatItRead).enabled s m)
    (hno : ∀ a ∈ (calls.move s m).1, ¬ a.touches k f) :
    (calls.move s m).2.store.field? k f = s.store.field? k f := by
  cases m with
  | start | abort | env => rfl
  | advance pid =>
    simp only [Processes.move, Processes.advance] at hno ⊢
    cases hat : s.at? pid with
    | none => rfl
    | some call =>
      simp only [hat] at hno ⊢
      have hcall := hok.relies _ (at?_mem hat)
      cases call with
      | started input => exact congrArg (Db.field? · k f) (goesOn_store _)
      | reading patch ids => exact congrArg (Db.field? · k f) (goesOn_store _)
      | publishing w =>
        obtain ⟨basis, title, state⟩ := w
        cases basis with
        | replacement => exact absurd trivial (hno _ rfl)
        | patch p read =>
          obtain ⟨hsome, hread, ids, hstate⟩ := hcall
          obtain ⟨r, hr⟩ := Option.isSome_iff_exists.mp hsome
          have hsame : p.others read = p.others r.state := he.2 _ hat r hr
          have hnamed : p.names k f = false := by simpa [Answer.touches] using hno _ rfl
          have hfield := fieldIn_of_others (hok.holds r hr) (patched_unique hstate hread)
            ((patched_others hstate).trans hsame) hnamed
          simpa [calls, step, Db.publish, Db.field?, hr] using hfield

theorem run_field (hr : ((publishing fun _ _ => True).when OnWhatItRead).Run s h t) (hok : assertions.Ok log s)
    (hno : ∀ a ∈ answers h, ¬ a.touches k f) : t.store.field? k f = s.store.field? k f := by
  induction hr generalizing log with
  | nil => rfl
  | @cons s m h t he hr ih =>
    have hmove : ∀ a ∈ (calls.move s m).1, ¬ a.touches k f := by
      intro a ha
      refine hno a (List.mem_filterMap.mpr ⟨_, List.mem_cons_self, ha⟩)
    have hnext := publishing_inductive.move_ok hok he.1.1 trivial
    rw [ih hnext fun a ha => hno a ?_]
    · exact move_field hok he hmove
    · exact (List.sublist_cons_self _ _).filterMap _ |>.subset ha

/-- A patch keeps what it does not name exactly where that is stored as it was read. What it sets
and removes stays so until another call touches it, as long as every patch is stored on what it
read. Each publication is the next revision, and a call that is refused changes nothing. -/
theorem patches_lose_nothing (hs : (publishing fun _ _ => True).Reachable s) :
    (∀ pid p read title state, s.at? pid = some (.publishing ⟨.patch p read, title, state⟩) →
      ∃ before, s.store.resource = some before ∧
        (calls.advance s pid).2.store.resource = some ⟨title, state, before.revision + 1⟩ ∧
        (PatchKept p before.state state ↔ p.others read = p.others before.state) ∧
        ∀ h t, ((publishing fun _ _ => True).when OnWhatItRead).Run (calls.advance s pid).2 h t → ∀ k f,
          (∀ a ∈ answers h, ¬ a.touches k f) → t.store.field? k f = fieldIn state.sections k f) ∧
    ∀ m, Counted s.store.resource (calls.move s m).2.store.resource (calls.move s m).1 := by
  obtain ⟨log, hok⟩ := reachable_ok hs
  refine ⟨?_, move_counted s⟩
  intro pid p read title state hat
  obtain ⟨hsome, hread, ids, hstate⟩ := hok.relies _ (at?_mem hat)
  obtain ⟨before, hbefore⟩ := Option.isSome_iff_exists.mp hsome
  have hafter : (calls.advance s pid).2.store.resource = some ⟨title, state, before.revision + 1⟩ := by
    simp [Processes.advance, hat, calls, step, Db.publish, hbefore]
  refine ⟨before, hbefore, hafter, patchKept_iff hstate hread, ?_⟩
  intro h t hr k f hno
  have hnext : assertions.Ok _ (calls.advance s pid).2 :=
    publishing_inductive.move_ok hok (a := .advance pid) (by rintro _ _ _ _ ⟨⟩) trivial
  rw [run_field hr hnext hno, Db.field?, hafter, Option.bind_some]

namespace Example

def field (key value : String) : StructuredDataField := ⟨key, key, .text value, none, none⟩

def two (a b : String) : StructuredDataState := ⟨"T", [⟨"s", "s", [field "a" a, field "b" b]⟩]⟩

def pool : Pool Db Call := ⟨⟨"r", some ⟨"T", two "1" "1", 1⟩, []⟩, [], 0⟩

def setTo2 (key : String) : Patch := ⟨[⟨"s", key, .text "2", none, none, none⟩], []⟩

def bothRead : List CallMove :=
  [.start (.patch (setTo2 "a")), .start (.patch (setTo2 "b")), .advance 0, .advance 1, .advance 0, .advance 1]

def bothPublish : Pool Db Call := (publishing fun _ _ => True).after pool bothRead

instance : Decidable ((publishing fun _ _ => True).enabled s m) :=
  inferInstanceAs (Decidable (calls.Unblocked s m ∧ True))

theorem reachable_bothPublish : (publishing fun _ _ => True).Reachable bothPublish := by
  have hallows : (publishing fun _ _ => True).Allows pool bothRead := by decide
  exact ⟨pool, _, ⟨by rintro r ⟨⟩; exact (by decide), rfl, rfl⟩, hallows.run⟩

def publication (key : String) (state : StructuredDataState) : Publication :=
  ⟨.patch (setTo2 key) (two "1" "1"), "T", state⟩

end Example

/-- The first patch is published, and the second one, which does not name its field, takes it back. -/
theorem acknowledged_patch_lost :
    ¬ ∀ s, (publishing fun _ _ => True).Reachable s →
      ∀ pid p read title state, s.at? pid = some (.publishing ⟨.patch p read, title, state⟩) →
        ∀ h t, (publishing fun _ _ => True).Run (calls.advance s pid).2 h t → ∀ k f v,
          valueSet k f p.set = some v → ⟨k, f⟩ ∉ p.remove → (∀ a ∈ answers h, ¬ a.touches k f) →
          ∃ field, t.store.field? k f = some field ∧ field.value = v := by
  intro hclaim
  have hallows : (publishing fun _ _ => True).Allows (calls.advance Example.bothPublish 0).2 [.advance 1] := by decide
  obtain ⟨field, hfield, hvalue⟩ := hclaim _ Example.reachable_bothPublish 0 _ _ _ (Example.two "2" "1") rfl _ _
    hallows.run "s" "a" (.text "2") rfl (by decide) fun a ha => by
      obtain rfl := List.mem_singleton.mp ha
      exact (by decide : ¬ (Example.setTo2 "b").names "s" "a" = true)
  have hlost : ((publishing fun _ _ => True).after (calls.advance Example.bothPublish 0).2 [.advance 1]).store.field?
      "s" "a" = some (Example.field "a" "1") := rfl
  rw [hlost] at hfield
  obtain rfl := Option.some.inj hfield
  exact absurd hvalue (by decide)

theorem patches_lose_nothing_both : ∃ before, Example.bothPublish.store.resource = some before ∧
    (calls.advance Example.bothPublish 0).2.store.resource = some ⟨"T", Example.two "2" "1", before.revision + 1⟩ := by
  obtain ⟨before, hbefore, hafter, -⟩ := (patches_lose_nothing Example.reachable_bothPublish).1 0 _ _ _ _ rfl
  exact ⟨before, hbefore, hafter⟩

end Catalyst.StructuredData
