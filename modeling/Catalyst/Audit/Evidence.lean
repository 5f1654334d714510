import Mathlib
import Catalyst.Audit.Projection
import Catalyst.Library.Table

/-!
# Which events an activity stands for

The loop that collapses repeated reads is run once more with the events it folds into each
activity. Every event is folded into one activity and counted there; its activity names it, and
shows its outcome, as long as nothing is collapsed.
-/

namespace Catalyst.Audit

open Library

variable {le : TextOrder} {events : List AuditEvent} {b previous current : BuiltActivity}
variable {built : List BuiltActivity} {last : AuditActivity} {folded : List AuditEvent}

structure BuiltOf (events : List AuditEvent) (b : BuiltActivity) : Prop where
  evidence : b.activity.evidence.Perm events
  count : b.activity.eventCount = b.activity.evidence.length
  outcome : b.activity.outcome = .success → ∀ event ∈ b.activity.evidence, event.status = .success

theorem aggregateOutcome_success {headline : AuditEvent} (h : aggregateOutcome headline events = .success) :
    ∀ event ∈ events, event.status = .success := by
  unfold aggregateOutcome at h
  split at h
  · cases h
  split at h
  · cases h
  split at h
  · cases h
  split at h
  · cases h
  rename_i hdenied hfailed
  intro event hevent
  cases hstatus : event.status with
  | success => rfl
  | failed => exact absurd (List.any_eq_true.mpr ⟨event, hevent, by simp [hstatus]⟩) hfailed
  | denied => exact absurd (List.any_eq_true.mpr ⟨event, hevent, by simp [hstatus]⟩) hdenied

theorem buildActivity_ok (h : buildActivity le events = some b) : BuiltOf events b := by
  have hperm := List.perm_insertionSort (fun left right => le left.createdAt right.createdAt) events
  unfold buildActivity at h
  split at h
  · cases h
  · rename_i first rest hsorted
    obtain rfl := Option.some.inj h
    rw [hsorted] at hperm
    exact ⟨(List.reverse_perm _).trans hperm, by simp, fun hs event hevent =>
      aggregateOutcome_success hs event (List.mem_reverse.mp hevent)⟩

theorem buildActivity_isSome (le : TextOrder) (hne : events ≠ []) : (buildActivity le events).isSome = true := by
  unfold buildActivity
  split
  next hsorted =>
    have hperm := List.perm_insertionSort (fun left right => le left.createdAt right.createdAt) events
    rw [hsorted] at hperm
    exact absurd hperm.symm.eq_nil hne
  next => rfl

def evidenceOf (b : BuiltActivity) : List AuditEvent := b.activity.evidence

structure TimelineOf (events : List AuditEvent) (built : List BuiltActivity) : Prop where
  evidence : (built.flatMap evidenceOf).Perm events
  apart : built.Pairwise fun p q => List.Disjoint (evidenceOf p) (evidenceOf q)
  nonempty : ∀ b ∈ built, evidenceOf b ≠ []
  count : ∀ b ∈ built, b.activity.eventCount = (evidenceOf b).length
  outcome : ∀ b ∈ built, b.activity.outcome = .success → ∀ event ∈ evidenceOf b, event.status = .success

theorem groupsOf_eq (events : List AuditEvent) : (groupsOf events).map Prod.snd =
    (events.map (·.correlationId)).eraseDups.map fun id => events.filter (·.correlationId = id) := by
  have hfold (group : List AuditEvent) : group.foldl (fun group event => group ++ [event]) [] = group := by
    simp [← List.flatMap_def]
  rw [groupsOf, OrderedMap.foldl_set_eq_grouped (·.correlationId) (fun group event => group ++ [event]) [] events,
    OrderedMap.grouped, List.map_map]
  exact List.map_congr_left fun id _ => hfold _

theorem forall₂_filterMap {α β : Type} {f : α → Option β} {l : List α} (h : ∀ a ∈ l, (f a).isSome = true) :
    List.Forall₂ (fun a b => f a = some b) l (l.filterMap f) := by
  induction l with
  | nil => exact .nil
  | cons a l ih =>
    obtain ⟨ha, hl⟩ := List.forall_mem_cons.mp h
    obtain ⟨b, hb⟩ := Option.isSome_iff_exists.mp ha
    rw [List.filterMap_cons_some hb]
    exact .cons hb (ih hl)

theorem timelineOf_groups {groups : List (List AuditEvent)} (hperm : groups.flatten.Perm events)
    (hdisjoint : groups.Pairwise List.Disjoint) (hne : ∀ group ∈ groups, group ≠ [])
    (h : List.Forall₂ BuiltOf groups built) : TimelineOf events built := by
  have hflat : (built.flatMap evidenceOf).Perm groups.flatten := by
    clear hperm hdisjoint hne
    induction h with
    | nil => exact .nil
    | cons hb _ ih => exact hb.evidence.append ih
  refine ⟨hflat.trans hperm, ?_, ?_, ?_, ?_⟩
  · clear hperm hne hflat
    induction h with
    | nil => exact .nil
    | @cons group b groups built hb hrest ih =>
      obtain ⟨hfirst, hgroups⟩ := List.pairwise_cons.mp hdisjoint
      refine List.pairwise_cons.mpr ⟨fun q hq event he he' => ?_, ih hgroups⟩
      obtain ⟨group', hgroup', hq'⟩ := forall₂_mem_right hrest hq
      exact hfirst group' hgroup' (hb.evidence.subset he) (hq'.evidence.subset he')
  · intro b hb hnil
    obtain ⟨group, hgroup, hof⟩ := forall₂_mem_right h hb
    have hevidence := hof.evidence
    rw [show b.activity.evidence = [] from hnil] at hevidence
    exact hne group hgroup hevidence.symm.eq_nil
  · intro b hb
    obtain ⟨group, -, hof⟩ := forall₂_mem_right h hb
    exact hof.count
  · intro b hb
    obtain ⟨group, -, hof⟩ := forall₂_mem_right h hb
    exact hof.outcome

theorem timeline_ok (le : TextOrder) (events : List AuditEvent) : TimelineOf events (timeline le events) := by
  have hgroups := groupsOf_eq events
  have hne : ∀ group ∈ (groupsOf events).map Prod.snd, group ≠ [] := by
    rw [hgroups]
    intro group hgroup hnil
    obtain ⟨id, hid, rfl⟩ := List.mem_map.mp hgroup
    obtain ⟨event, hevent, rfl⟩ := List.mem_map.mp (List.mem_eraseDups.mp hid)
    exact List.not_mem_nil (hnil ▸ List.mem_filter.mpr ⟨hevent, by simp⟩)
  have hbuilt : TimelineOf events (((groupsOf events).map Prod.snd).filterMap (buildActivity le)) := timelineOf_groups
    (by rw [hgroups, ← List.flatMap_def]; exact OrderedMap.perm_groups (·.correlationId) events)
    (by rw [hgroups]; exact OrderedMap.groups_disjoint (·.correlationId) events) hne
    ((forall₂_filterMap fun group hgroup => buildActivity_isSome le (hne group hgroup)).imp
      fun _ _ => buildActivity_ok)
  have hsorted := List.perm_insertionSort (fun left right => le right.activity.at' left.activity.at')
    (((groupsOf events).map Prod.snd).filterMap (buildActivity le))
  refine ⟨(hsorted.flatMap_right _).trans hbuilt.evidence, ?_, fun b hb => hbuilt.nonempty b (hsorted.subset hb),
    fun b hb => hbuilt.count b (hsorted.subset hb), fun b hb => hbuilt.outcome b (hsorted.subset hb)⟩
  exact (hsorted.pairwise_iff fun h => h.symm).mpr hbuilt.apart

structure Folded where
  activity : AuditActivity
  events : List AuditEvent

/-- `collapseBehind`, with the events. -/
def foldBehind (previous : BuiltActivity) (last : Folded) : List BuiltActivity → List Folded
  | [] => [last]
  | current :: built =>
    if isRepeat previous current then
      foldBehind previous ⟨last.activity.withRepeat current, last.events ++ evidenceOf current⟩ built
    else last :: foldBehind current ⟨current.activity, evidenceOf current⟩ built

def foldRepeatedReads : List BuiltActivity → List Folded
  | [] => []
  | first :: built => foldBehind first ⟨first.activity, evidenceOf first⟩ built

def shownFolded (options : ProjectAuditActivitiesOptions) (folded : List Folded) : List Folded :=
  let visible := match options.view with
    | .default => folded.filter (isDefaultVisible ·.activity)
    | .all => folded
  match options.limit with
  | some limit => visible.take limit
  | none => visible

def foldedActivities (le : TextOrder) (events : List AuditEvent) (options : ProjectAuditActivitiesOptions) :
    List Folded :=
  shownFolded options (foldRepeatedReads (timeline le events))

theorem foldBehind_activity (previous : BuiltActivity) (last : Folded) (built : List BuiltActivity) :
    (foldBehind previous last built).map (·.activity) = collapseBehind previous last.activity built := by
  induction built generalizing previous last with
  | nil => rfl
  | cons current built ih =>
    simp only [foldBehind, collapseBehind]
    split
    · exact ih _ _
    · exact congrArg (last.activity :: ·) (ih _ _)

theorem shownFolded_activity (options : ProjectAuditActivitiesOptions) (folded : List Folded) :
    (shownFolded options folded).map (·.activity) = shown options (folded.map (·.activity)) := by
  have hvisible : (folded.map (·.activity)).filter isDefaultVisible =
      (folded.filter (isDefaultVisible ·.activity)).map (·.activity) := List.filter_map
  obtain ⟨view, limit⟩ := options
  cases view <;> cases limit <;> simp only [shownFolded, shown, hvisible, List.map_take]

theorem foldedActivities_activity (le : TextOrder) (events : List AuditEvent)
    (options : ProjectAuditActivitiesOptions) :
    (foldedActivities le events options).map (·.activity) = projectAuditActivities le events options := by
  rw [foldedActivities, shownFolded_activity, projectAuditActivities]
  cases timeline le events with
  | nil => rfl
  | cons first built => exact congrArg (shown options) (foldBehind_activity first _ built)

theorem foldBehind_head (previous : BuiltActivity) (last : Folded) (built : List BuiltActivity) :
    ∃ f ∈ foldBehind previous last built, f.activity.evidence = last.activity.evidence ∧ last.events ⊆ f.events := by
  induction built generalizing previous last with
  | nil => exact ⟨last, List.mem_singleton_self _, rfl, List.Subset.refl _⟩
  | cons current built ih =>
    simp only [foldBehind]
    split
    · obtain ⟨f, hf, hevidence, hevents⟩ :=
        ih previous ⟨last.activity.withRepeat current, last.events ++ evidenceOf current⟩
      exact ⟨f, hf, hevidence, fun e he => hevents (List.mem_append_left _ he)⟩
    · exact ⟨last, List.mem_cons_self, rfl, List.Subset.refl _⟩

/-- Nothing is collapsed: no activity of the timeline is a read of the same page by the same actor as
the one before it. -/
def NoRepeats (built : List BuiltActivity) : Prop := built.IsChain fun p q => isRepeat p q = false

theorem foldBehind_of_noRepeats (h : NoRepeats (previous :: built)) (last : Folded) :
    foldBehind previous last built = last :: built.map fun b => ⟨b.activity, evidenceOf b⟩ := by
  induction built generalizing previous last with
  | nil => rfl
  | cons current built ih =>
    obtain ⟨hrepeat, hrest⟩ := List.isChain_cons_cons.mp h
    rw [foldBehind, if_neg (Bool.eq_false_iff.mp hrepeat), ih hrest, List.map_cons]

theorem noRepeats_of_named (hlast : last.evidence = evidenceOf previous)
    (hapart : (previous :: built).Pairwise fun p q => List.Disjoint (evidenceOf p) (evidenceOf q))
    (hne : ∀ b ∈ built, evidenceOf b ≠ [])
    (h : ∀ f ∈ foldBehind previous ⟨last, folded⟩ built, ∀ event ∈ f.events, event ∈ f.activity.evidence) :
    NoRepeats (previous :: built) := by
  induction built generalizing previous last folded with
  | nil => exact List.isChain_singleton _
  | cons current built ih =>
    obtain ⟨hfirst, hrest⟩ := List.pairwise_cons.mp hapart
    obtain ⟨hcurrent, hbuilt⟩ := List.forall_mem_cons.mp hne
    simp only [foldBehind] at h
    split at h
    · -- the events of the repeat are in no activity's evidence
      obtain ⟨f, hf, hevidence, hevents⟩ :=
        foldBehind_head previous ⟨last.withRepeat current, folded ++ evidenceOf current⟩ built
      obtain ⟨event, hevent⟩ := List.exists_mem_of_ne_nil _ hcurrent
      have hnamed := h f hf event (hevents (List.mem_append_right _ hevent))
      rw [hevidence] at hnamed
      exact absurd hevent (hfirst current List.mem_cons_self (hlast ▸ hnamed))
    · rename_i hrepeat
      have hchain := ih rfl hrest hbuilt (List.forall_mem_cons.mp h).2
      exact List.isChain_cons_cons.mpr ⟨Bool.eq_false_iff.mpr hrepeat, hchain⟩

/-- Nothing is lost: each event is folded into one activity that counts it and names it, and in no
view does an activity that has an event without success show success. -/
structure Faithful (le : TextOrder) (events : List AuditEvent) : Prop where
  once : ((foldedActivities le events ⟨.all, none⟩).flatMap (·.events)).Perm events
  counted : ∀ f ∈ foldedActivities le events ⟨.all, none⟩, f.activity.eventCount = f.events.length
  sum : ((projectAuditActivities le events ⟨.all, none⟩).map (·.eventCount)).sum = events.length
  named : ∀ f ∈ foldedActivities le events ⟨.all, none⟩, ∀ event ∈ f.events, event ∈ f.activity.evidence
  outcome : ∀ options, ∀ f ∈ foldedActivities le events options,
    f.activity.outcome = .success → ∀ event ∈ f.events, event.status = .success

theorem foldRepeatedReads_of_noRepeats (h : NoRepeats built) :
    foldRepeatedReads built = built.map fun b => ⟨b.activity, evidenceOf b⟩ := by
  cases built with
  | nil => rfl
  | cons first built => exact foldBehind_of_noRepeats h _

theorem shownFolded_subset (options : ProjectAuditActivitiesOptions) (folded : List Folded) :
    shownFolded options folded ⊆ folded := by
  obtain ⟨view, limit⟩ := options
  cases view <;> cases limit <;> simp only [shownFolded]
  · exact List.filter_subset_self _
  · exact List.Subset.trans (List.take_subset _ _) (List.filter_subset_self _)
  · exact List.Subset.refl _
  · exact List.take_subset _ _

/-- Every event is folded once and counted, whatever is collapsed; each activity names its events
and shows their outcomes exactly if nothing is collapsed. -/
theorem projectAuditActivities_faithful_iff (le : TextOrder) (events : List AuditEvent) :
    (∀ options, (foldedActivities le events options).map (·.activity) = projectAuditActivities le events options) ∧
    (Faithful le events ↔ NoRepeats (timeline le events)) := by
  refine ⟨foldedActivities_activity le events, fun h => ?_, fun h => ?_⟩
  · have hof := timeline_ok le events
    have hnamed : ∀ f ∈ foldRepeatedReads (timeline le events), ∀ event ∈ f.events,
        event ∈ f.activity.evidence := h.named
    cases htimeline : timeline le events with
    | nil => exact .nil
    | cons first built =>
      rw [htimeline] at hof hnamed
      exact noRepeats_of_named rfl hof.apart (List.forall_mem_cons.mp hof.nonempty).2 hnamed
  · have hof := timeline_ok le events
    have hfolded := foldRepeatedReads_of_noRepeats h
    have hmem : ∀ f ∈ foldRepeatedReads (timeline le events), ∃ b ∈ timeline le events,
        f = ⟨b.activity, evidenceOf b⟩ := by
      intro f hf
      rw [hfolded] at hf
      obtain ⟨b, hb, rfl⟩ := List.mem_map.mp hf
      exact ⟨b, hb, rfl⟩
    have honce : ((foldRepeatedReads (timeline le events)).flatMap (·.events)).Perm events := by
      rw [hfolded, List.flatMap_map]
      exact hof.evidence
    have hcounted : ∀ f ∈ foldRepeatedReads (timeline le events), f.activity.eventCount = f.events.length := by
      intro f hf
      obtain ⟨b, hb, rfl⟩ := hmem f hf
      exact hof.count b hb
    refine ⟨honce, hcounted, ?_, fun f hf event hevent => ?_, fun options f hf hsuccess => ?_⟩
    · rw [← foldedActivities_activity, List.map_map, ← honce.length_eq, List.length_flatMap]
      exact congrArg List.sum (List.map_congr_left hcounted)
    · obtain ⟨b, -, rfl⟩ := hmem f hf
      exact hevent
    · obtain ⟨b, hb, rfl⟩ := hmem f (shownFolded_subset options _ hf)
      exact hof.outcome b hb hsuccess

namespace Example

def textLe : TextOrder := fun p q => decide (p.toList ≤ q.toList)

def actor : AuditActor := ⟨none, some "A", [], some .user, none, none⟩

def viewed (id correlationId createdAt : String) : AuditEvent :=
  ⟨id, "governance.audit_events_viewed", .success, some actor, none, none, correlationId, createdAt, []⟩

def denied : AuditEvent :=
  ⟨"3", "tool.authorization_checked", .denied, some actor, none, none, "b", "01", []⟩

def requests : List AuditEvent := [viewed "1" "a" "02", viewed "2" "b" "01", denied]

end Example

/-- One activity that counts three events, shows success and names one event. -/
theorem denial_collapsed_into_success :
    (projectAuditActivities Example.textLe Example.requests ⟨.all, none⟩).map
        (fun activity => (activity.eventCount, activity.outcome, activity.evidence)) =
      [(3, .success, [Example.viewed "1" "a" "02"])] ∧
    Example.denied ∈ Example.requests ∧ Example.denied.status = .denied ∧
    ¬ Faithful Example.textLe Example.requests := by
  have hshown : (projectAuditActivities Example.textLe Example.requests ⟨.all, none⟩).map
        (fun activity => (activity.eventCount, activity.outcome, activity.evidence)) =
      [(3, .success, [Example.viewed "1" "a" "02"])] := by decide
  refine ⟨hshown, by decide, rfl, fun h => ?_⟩
  obtain ⟨f, hf, hin⟩ := List.mem_flatMap.mp (h.once.symm.subset (by decide : Example.denied ∈ Example.requests))
  have hnamed := h.named f hf Example.denied hin
  have hactivity : f.activity ∈ projectAuditActivities Example.textLe Example.requests ⟨.all, none⟩ :=
    foldedActivities_activity Example.textLe Example.requests ⟨.all, none⟩ ▸ List.mem_map_of_mem hf
  have hone : (f.activity.eventCount, f.activity.outcome, f.activity.evidence) ∈
      [(3, AuditActivityOutcome.success, [Example.viewed "1" "a" "02"])] :=
    hshown ▸ List.mem_map_of_mem hactivity
  have hevidence : f.activity.evidence = [Example.viewed "1" "a" "02"] :=
    congrArg (fun p => p.2.2) (List.mem_singleton.mp hone)
  rw [hevidence] at hnamed
  exact absurd hnamed (by decide)

end Catalyst.Audit
