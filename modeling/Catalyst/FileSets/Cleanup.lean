import Catalyst.FileSets.Model

/-!
# What a cleanup leaves

An object is looked after by the save that put it, until that save has recorded or removed it,
and then by the row of its Page, as long as no cleanup has already passed the Page's objects.
The one thing the code does not see to is a save that hands its objects over while a cleanup
stands between the objects of the Page and its rows.
-/

namespace Catalyst.FileSets

open Library Library.Processes

variable {db db' : Db} {s : PagePool} {g : Going} {o : ObjectKey} {saving : Saving} {page : PageId} {pid : Nat}

-- -----------------
-- Where a cleanup and a save should not meet
-- -----------------

def Going.owns? : Going → Option Saving
  | writing saving _ _ | recording saving | removing saving => some saving
  | _ => none

def Going.clears? : Going → Option PageId
  | emptied page _ | deleting page _ _ => some page
  | _ => none

def Going.found? : Going → Option (PageId × List FileSetId)
  | deleting page found _ => some (page, found)
  | _ => none

def Safe (s : PagePool) (pid : Nat) (page : PageId) : Prop :=
  s.store.HasPage page ∧ ∀ q ∈ s.leave pid, q.2.clears? ≠ some page
  deriving Decidable

def MayBreakOff (s : PagePool) (pid : Nat) (saving : Saving) : Prop :=
  ¬ s.store.Holds saving.fileSet ∨ Safe s pid saving.page
  deriving Decidable

def MayRecord (s : PagePool) (pid : Nat) (saving : Saving) : Prop :=
  (createPageFileSet s.store saving.page saving.fileSet).toOption.isSome →
    ∀ q ∈ s.leave pid, (∀ f ∈ q.2.found?, f.1 ≠ saving.page) ∧
      (s.store.Holds saving.fileSet → q.2.clears? ≠ some saving.page)
  deriving Decidable

def MayGoOn (s : PagePool) (pid : Nat) : Going → Prop
  | .recording saving => MayRecord s pid saving
  | .removing saving => saving.removed = true ∨ MayBreakOff s pid saving
  | .writing saving (.remove done :: _) true => done = true ∨ MayBreakOff s pid saving
  | .straying saving (.put _ true _ :: _) => Safe s pid saving.page
  | _ => True

instance : Decidable (MayGoOn s pid g) := by
  unfold MayGoOn
  split <;> infer_instance

def Careful (s : PagePool) : PageMove → Prop
  | .advance pid => ∀ g ∈ s.at? pid, MayGoOn s pid g
  | .abort pid => ∀ g ∈ s.at? pid, ∀ saving ∈ g.owns?, MayBreakOff s pid saving
  | _ => True

instance : DecidablePred (Careful s)
  | .advance pid => inferInstanceAs (Decidable (∀ g ∈ s.at? pid, MayGoOn s pid g))
  | .abort pid => inferInstanceAs (Decidable (∀ g ∈ s.at? pid, ∀ saving ∈ g.owns?, MayBreakOff s pid saving))
  | .start _ | .env _ => .isTrue trivial

def Saving.Of (saving : Saving) (o : ObjectKey) : Prop := saving.page = o.pageId ∧ saving.fileSet = o.fileSetId

def Owned (s : PagePool) (o : ObjectKey) : Prop :=
  ∃ pid g saving, s.at? pid = some g ∧ g.owns? = some saving ∧ saving.Of o

def Kept (s : PagePool) (page : PageId) : Prop :=
  s.store.HasPage page ∧ ∀ q ∈ s.running, q.2.clears? ≠ some page

structure PagesOk (s : PagePool) : Prop where
  started : ∀ p ∈ s.running, p.1 < s.started
  objects : ∀ o ∈ s.store.objects, Owned s o ∨ Kept s o.pageId
  fileSets : ∀ f ∈ s.store.fileSets, s.store.HasPage f.pageId ∧
    ∀ q ∈ s.running, ∀ p ∈ q.2.found?, p.1 = f.pageId → f.id ∈ p.2

-- -----------------
-- Steps
-- -----------------

/-- Whether the call goes on to look after the object, or its Page does, or it is somebody else's. -/
inductive Looked (s : PagePool) (pid : Nat) (g : Going) (r : StepResult) (o : ObjectKey) : Prop
  | own (next : ∃ g' ∈ r.2.1, ∃ saving ∈ g'.owns?, saving.Of o)
  | page (row : r.2.2.HasPage o.pageId) (others : ∀ q ∈ s.leave pid, q.2.clears? ≠ some o.pageId)
      (next : ∀ g' ∈ r.2.1, g'.clears? = none)
  | other (stored : o ∈ s.store.objects) (foreign : ∀ saving ∈ g.owns?, ¬ saving.Of o)

structure StepOk (s : PagePool) (pid : Nat) (g : Going) (r : StepResult) : Prop where
  objects : ∀ o ∈ r.2.2.objects, Looked s pid g r o
  pages : ∀ page, s.store.HasPage page → r.2.2.HasPage page ∨ g.clears? = some page
  clears : ∀ g' ∈ r.2.1, ∀ page ∈ g'.clears?, g.clears? = some page ∨ ∀ o ∈ r.2.2.objects, o.pageId ≠ page
  fileSets : ∀ f ∈ r.2.2.fileSets, r.2.2.HasPage f.pageId ∧
    (f ∈ s.store.fileSets ∨ ∀ q ∈ s.leave pid, ∀ p ∈ q.2.found?, p.1 ≠ f.pageId) ∧
    ∀ g' ∈ r.2.1, ∀ p ∈ g'.found?, p.1 = f.pageId → f.id ∈ p.2

theorem clears_none (h : g.clears? = none) : g.found? = none := by
  cases g <;> first | rfl | cases h

theorem StepOk.goesTo {g' : Going} (hs : PagesOk s) (howns : g'.owns? = g.owns? ∨ g.owns? = none) (hc : g'.clears? = none) :
    StepOk s pid g (goesTo s.store g') where
  objects o ho := by
    by_cases h : ∃ saving ∈ g.owns?, saving.Of o
    · obtain ⟨saving, hown, hof⟩ := h
      rcases howns with h | h
      · exact .own ⟨g', rfl, saving, h ▸ hown, hof⟩
      · rw [h] at hown
        cases hown
    · exact .other ho fun saving hown hof => h ⟨saving, hown, hof⟩
  pages page h := .inl h
  clears g'' hg page hp := by
    obtain rfl := Option.some.inj hg
    rw [hc] at hp
    cases hp
  fileSets f hf := by
    refine ⟨(hs.fileSets f hf).1, .inl hf, fun g'' hg p hp => ?_⟩
    obtain rfl := Option.some.inj hg
    rw [clears_none hc] at hp
    cases hp

theorem StepOk.answered {answer : Answer} (hs : PagesOk s) (howns : g.owns? = none) :
    StepOk s pid g (answered s.store answer) where
  objects o ho := .other ho fun saving hown => by rw [howns] at hown; cases hown
  pages page h := .inl h
  clears _ h := absurd h (Option.not_mem_none _)
  fileSets f hf := ⟨(hs.fileSets f hf).1, .inl hf, fun _ h => absurd h (Option.not_mem_none _)⟩

theorem ensurePage_ok (h : ensurePage db name = .ok (page, db')) :
    db'.objects = db.objects ∧ db'.fileSets = db.fileSets ∧ ∀ page, db.HasPage page → db'.HasPage page := by
  unfold ensurePage at h
  split at h
  · obtain ⟨rfl, rfl⟩ := Prod.mk.inj (Except.ok.inj h)
    exact ⟨rfl, rfl, fun _ h => h⟩
  · split at h
    · cases h
    · obtain ⟨rfl, rfl⟩ := Prod.mk.inj (Except.ok.inj h)
      refine ⟨rfl, rfl, fun page ⟨p, hp, hid⟩ => ⟨p, List.mem_append_left _ hp, hid⟩⟩

theorem ensuring_ok (hs : PagesOk s) : StepOk s pid (.ensuring name events removed) (step s.store (.ensuring name events removed)) := by
  simp only [step]
  split
  · rename_i page db' h
    obtain ⟨ho, hf, hp⟩ := ensurePage_ok h
    refine ⟨fun o hm => .other (ho ▸ hm) nofun, fun page h => .inl (hp page h), fun g' hg' => ?_, fun f hm => ?_⟩
    · obtain rfl := Option.some.inj hg'
      exact nofun
    · have hm : f ∈ s.store.fileSets := hf ▸ hm
      refine ⟨hp _ (hs.fileSets f hm).1, .inl hm, fun g' hg' => ?_⟩
      obtain rfl := Option.some.inj hg'
      exact nofun
  · exact .answered hs rfl

/-- An object that is put, by a save that owns it or at a Page that keeps it. -/
theorem put_ok {g' : Going} {path : String} {landed : Bool} (hs : PagesOk s) (hc : g'.clears? = none)
    (howns : g'.owns? = g.owns?)
    (h : g'.owns? = some saving ∨ (landed = true → Safe s pid saving.page)) :
    StepOk s pid g (goesTo (putEvent s.store saving path landed) g') := by
  have hrows : (putEvent s.store saving path landed).fileSets = s.store.fileSets ∧
      (putEvent s.store saving path landed).pages = s.store.pages := by
    unfold putEvent
    split <;> exact ⟨rfl, rfl⟩
  have hpages : ∀ page, (putEvent s.store saving path landed).HasPage page ↔ s.store.HasPage page := fun page => by
    unfold Db.HasPage
    rw [hrows.2]
  have hold : ∀ o ∈ s.store.objects, Looked s pid g (goesTo (putEvent s.store saving path landed) g') o := by
    intro o ho
    by_cases h : ∃ saving ∈ g.owns?, saving.Of o
    · obtain ⟨saving, hown, hof⟩ := h
      exact .own ⟨g', rfl, saving, howns ▸ hown, hof⟩
    · exact .other ho fun saving hown hof => h ⟨saving, hown, hof⟩
  refine ⟨fun o ho => ?_, fun page h => .inl ((hpages page).mpr h), fun g'' hg page hp => ?_, fun f hf => ?_⟩
  · cases landed with
    | false => exact hold o ho
    | true =>
      rcases List.mem_cons.mp ho with rfl | ho
      · rcases h with h | h
        · exact .own ⟨g', rfl, saving, h, rfl, rfl⟩
        · refine .page ((hpages _).mpr (h rfl).1) (h rfl).2 fun g'' hg => ?_
          obtain rfl := Option.some.inj hg
          exact hc
      · exact hold o ho
  · obtain rfl := Option.some.inj hg
    rw [hc] at hp
    cases hp
  · have hf : f ∈ s.store.fileSets := hrows.1 ▸ hf
    refine ⟨(hpages _).mpr (hs.fileSets f hf).1, .inl hf, fun g'' hg p hp => ?_⟩
    obtain rfl := Option.some.inj hg
    rw [clears_none hc] at hp
    cases hp

theorem remove_ok {next : Option Going} {answer : Option Answer} {done : Bool} (hs : PagesOk s)
    (hown : g.owns? = some saving) (hc : ∀ g' ∈ next, g'.clears? = none) (h : done = true ∨ MayBreakOff s pid saving) :
    StepOk s pid g (answer, next, remove s.store saving done) := by
  have hrows : (remove s.store saving done).fileSets = s.store.fileSets ∧
      (remove s.store saving done).pages = s.store.pages := by
    unfold remove
    split <;> exact ⟨rfl, rfl⟩
  have hpages : ∀ page, (remove s.store saving done).HasPage page ↔ s.store.HasPage page := fun page => by
    unfold Db.HasPage
    rw [hrows.2]
  have hold : ∀ o ∈ (remove s.store saving done).objects, o ∈ s.store.objects ∧ (done = true → ¬ saving.Of o) := by
    intro o ho
    unfold remove at ho
    split at ho
    · obtain ⟨ho, hn⟩ := mem_deleteWhere.mp ho
      exact ⟨ho, fun _ hof => hn ⟨hof.1.symm, hof.2.symm⟩⟩
    · exact ⟨ho, fun h => absurd h ‹_›⟩
  refine ⟨fun o ho => ?_, fun page h => .inl ((hpages page).mpr h), fun g' hg page hp => ?_, fun f hf => ?_⟩
  · obtain ⟨ho, hn⟩ := hold o ho
    by_cases hof : saving.Of o
    · rcases h with h | h | h
      · exact absurd hof (hn h)
      · exact absurd ⟨o, ho, hof.2.symm⟩ h
      · rw [hof.1] at h
        exact .page ((hpages _).mpr h.1) h.2 hc
    · refine .other ho fun saving' hown' => ?_
      rw [hown] at hown'
      obtain rfl := Option.some.inj hown'
      exact hof
  · rw [hc g' hg] at hp
    cases hp
  · have hf : f ∈ s.store.fileSets := hrows.1 ▸ hf
    refine ⟨(hpages _).mpr (hs.fileSets f hf).1, .inl hf, fun g' hg p hp => ?_⟩
    rw [clears_none (hc g' hg)] at hp
    cases hp

theorem recording_ok (hs : PagesOk s) (hm : MayRecord s pid saving) :
    StepOk s pid (.recording saving) (step s.store (.recording saving)) := by
  simp only [step]
  split
  · rename_i db' h
    have hothers := hm (by rw [h]; rfl)
    unfold createPageFileSet at h
    split at h
    · rename_i hpage
      split at h
      · cases h
      · obtain rfl := Except.ok.inj h
        refine ⟨fun o ho => ?_, fun page h => .inl h, fun _ h => absurd h (Option.not_mem_none _), fun f hf => ?_⟩
        · by_cases hof : saving.Of o
          · have hholds : s.store.Holds saving.fileSet := ⟨o, ho, hof.2.symm⟩
            refine .page (hof.1 ▸ hpage) (fun q hq => ?_) fun _ h => absurd h (Option.not_mem_none _)
            exact hof.1 ▸ (hothers q hq).2 hholds
          · refine .other ho fun saving' hown => ?_
            obtain rfl := Option.some.inj hown
            exact hof
        · rcases List.mem_append.mp hf with hf | hf
          · exact ⟨(hs.fileSets f hf).1, .inl hf, fun _ h => absurd h (Option.not_mem_none _)⟩
          · obtain rfl := List.mem_singleton.mp hf
            exact ⟨hpage, .inr fun q hq p hp => (hothers q hq).1 p hp, fun _ h => absurd h (Option.not_mem_none _)⟩
    · cases h
  · exact .goesTo hs (.inl rfl) rfl

theorem emptying_ok (hs : PagesOk s) (pages : List PageId) :
    StepOk s pid (.emptying pages) (step s.store (.emptying pages)) := by
  cases pages with
  | nil => exact .answered hs rfl
  | cons page rest =>
    refine ⟨fun o ho => .other (mem_deleteWhere.mp ho).1 nofun, fun page h => .inl h, fun g' hg p hp => .inr fun o ho => ?_,
      fun f hf => ⟨(hs.fileSets f hf).1, .inl hf, fun g' hg => ?_⟩⟩
    · obtain rfl := Option.some.inj hg
      obtain rfl := Option.some.inj hp
      exact (mem_deleteWhere.mp ho).2
    · obtain rfl := Option.some.inj hg
      exact nofun

theorem emptied_ok (hs : PagesOk s) (page : PageId) (rest : List PageId) :
    StepOk s pid (.emptied page rest) (step s.store (.emptied page rest)) := by
  refine ⟨fun o ho => .other ho nofun, fun page h => .inl h, fun g' hg p hp => .inl ?_,
    fun f hf => ⟨(hs.fileSets f hf).1, .inl hf, fun g' hg p hp he => ?_⟩⟩
  · obtain rfl := Option.some.inj hg
    exact hp
  · obtain rfl := Option.some.inj hg
    obtain rfl := Option.some.inj hp
    exact List.mem_map_of_mem (List.mem_filter.mpr ⟨hf, by simpa using he.symm⟩)

/-- The rows of the Page go together; its objects are somebody's who has not recorded them. -/
theorem deleting_ok {found : List FileSetId} {rest : List PageId} (hs : PagesOk s)
    (hat : s.at? pid = some (.deleting page found rest)) :
    StepOk s pid (.deleting page found rest) (step s.store (.deleting page found rest)) := by
  have hpages : ∀ p, p ≠ page → s.store.HasPage p → (deletePage s.store page found).HasPage p := by
    rintro p hne ⟨row, hrow, rfl⟩
    exact ⟨row, mem_deleteWhere.mpr ⟨hrow, hne⟩, rfl⟩
  refine ⟨fun o ho => .other ho nofun, fun p h => ?_, fun g' hg => ?_, fun f hf => ?_⟩
  · by_cases he : p = page
    · exact .inr (congrArg some he.symm)
    · exact .inl (hpages p he h)
  · obtain rfl := Option.some.inj hg
    exact nofun
  · obtain ⟨hf, hnot⟩ := mem_deleteWhere.mp hf
    obtain ⟨hpage, hfound⟩ := hs.fileSets f hf
    have hne : f.pageId ≠ page := fun he => hnot (hfound _ (at?_mem hat) (page, found) rfl he.symm)
    refine ⟨hpages _ hne hpage, .inl hf, fun g' hg => ?_⟩
    obtain rfl := Option.some.inj hg
    exact nofun

theorem step_ok (hs : PagesOk s) (hat : s.at? pid = some g) (hm : MayGoOn s pid g) : StepOk s pid g (step s.store g) := by
  cases g with
  | checking name events removed =>
    simp only [step]
    split
    · exact .goesTo hs (.inl rfl) rfl
    · exact .answered hs rfl
  | ensuring name events removed => exact ensuring_ok hs
  | writing saving events failed =>
    cases events with
    | nil =>
      simp only [step, writes]
      cases failed <;> exact .goesTo hs (.inl rfl) rfl
    | cons event events =>
      cases event with
      | put path landed answered => exact put_ok hs rfl rfl (.inl rfl)
      | remove done =>
        cases failed with
        | false => exact .goesTo hs (.inl rfl) rfl
        | true =>
          refine remove_ok hs rfl (fun g' hg => ?_) hm
          obtain rfl := Option.some.inj hg
          rfl
  | recording saving => exact recording_ok hs hm
  | removing saving => exact remove_ok hs rfl (fun _ h => absurd h (Option.not_mem_none _)) hm
  | straying saving events =>
    cases events with
    | nil => exact .answered hs rfl
    | cons event events =>
      cases event with
      | put path landed answered =>
        refine put_ok hs rfl rfl (.inr fun hl => ?_)
        rw [hl] at hm
        exact hm
      | remove done => exact .goesTo hs (.inr rfl) rfl
  | listing => exact .goesTo hs (.inr rfl) rfl
  | emptying pages => exact emptying_ok hs pages
  | emptied page rest => exact emptied_ok hs page rest
  | deleting page found rest => exact deleting_ok hs hat

theorem advance_ok (hs : PagesOk s) (hm : ∀ g ∈ s.at? pid, MayGoOn s pid g) : PagesOk (pageCalls.advance s pid).2 := by
  cases hat : s.at? pid with
  | none =>
    have hsame : (pageCalls.advance s pid).2 = s := by simp only [advance, hat]
    rwa [hsame]
  | some g =>
    have hstep : StepOk s pid g (step s.store g) := step_ok hs hat (hm g hat)
    have hstore : (pageCalls.advance s pid).2.store = (step s.store g).2.2 := by simp only [advance, hat]; rfl
    have hrunning : ∀ q ∈ (pageCalls.advance s pid).2.running, (∃ g' ∈ (step s.store g).2.1, q = (pid, g')) ∨ q ∈ s.leave pid := by
      intro q hq
      simp only [advance, hat] at hq
      rcases List.mem_append.mp hq with hq | hq
      · obtain ⟨g', hg', rfl⟩ := List.mem_map.mp hq
        exact .inl ⟨g', Option.mem_toList.mp hg', rfl⟩
      · exact .inr hq
    refine ⟨fun q hq => ?_, fun o ho => ?_, fun f hf => ?_⟩
    · have hstarted : (pageCalls.advance s pid).2.started = s.started := by simp only [advance, hat]
      rw [hstarted]
      rcases hrunning q hq with ⟨g', -, rfl⟩ | hq
      · exact hs.started (pid, g) (at?_mem hat)
      · exact hs.started q (mem_leave.mp hq).1
    · rw [hstore] at ho
      cases hstep.objects o ho with
      | own next =>
        obtain ⟨g', hg', saving, hown, hof⟩ := next
        exact .inl ⟨pid, g', saving, advance_at?_self hat hg', hown, hof⟩
      | page row others next =>
        refine .inr ⟨hstore ▸ row, fun q hq => ?_⟩
        rcases hrunning q hq with ⟨g', hg', rfl⟩ | hq
        · rw [next g' hg']
          exact fun h => by cases h
        · exact others q hq
      | other stored foreign =>
        rcases hs.objects o stored with ⟨pid', q, saving, hatq, hown, hof⟩ | ⟨hpage, hclear⟩
        · have hne : pid' ≠ pid := by
            rintro rfl
            obtain rfl := Option.some.inj (hat.symm.trans hatq)
            exact foreign saving hown hof
          exact .inl ⟨pid', q, saving, (advance_at?_ne hne).trans hatq, hown, hof⟩
        · have hg : g.clears? ≠ some o.pageId := hclear _ (at?_mem hat)
          refine .inr ⟨?_, fun q hq => ?_⟩
          · rw [hstore]
            exact (hstep.pages _ hpage).resolve_right hg
          · rcases hrunning q hq with ⟨g', hg', rfl⟩ | hq
            · intro hc
              exact (hstep.clears g' hg' _ hc).elim hg fun h => h o ho rfl
            · exact hclear q (mem_leave.mp hq).1
    · rw [hstore] at hf ⊢
      obtain ⟨hpage, hother, hnext⟩ := hstep.fileSets f hf
      refine ⟨hpage, fun q hq p hp he => ?_⟩
      rcases hrunning q hq with ⟨g', hg', rfl⟩ | hq
      · exact hnext g' hg' p hp he
      · rcases hother with hold | hnone
        · exact (hs.fileSets f hold).2 q (mem_leave.mp hq).1 p hp he
        · exact absurd he (hnone q hq p hp)

theorem abort_ok (hs : PagesOk s) (hm : ∀ g ∈ s.at? pid, ∀ saving ∈ g.owns?, MayBreakOff s pid saving) :
    PagesOk { s with running := s.leave pid } where
  started q hq := hs.started q (mem_leave.mp hq).1
  objects o ho := by
    rcases hs.objects o ho with ⟨pid', g, saving, hat, hown, hof⟩ | ⟨hpage, hclear⟩
    · by_cases hne : pid' = pid
      · subst hne
        rcases hm g hat saving hown with h | h
        · exact absurd ⟨o, ho, hof.2.symm⟩ h
        · rw [hof.1] at h
          exact .inr h
      · exact .inl ⟨pid', g, saving, (at?_leave_ne hne _ _).trans hat, hown, hof⟩
    · exact .inr ⟨hpage, fun q hq => hclear q (mem_leave.mp hq).1⟩
  fileSets f hf := ⟨(hs.fileSets f hf).1, fun q hq => (hs.fileSets f hf).2 q (mem_leave.mp hq).1⟩

theorem start_ok (hs : PagesOk s) (call : Call) :
    PagesOk { s with running := (s.started, call.starts) :: s.running, started := s.started + 1 } := by
  have hnone : call.starts.clears? = none := by cases call <;> rfl
  refine ⟨fun q hq => ?_, fun o ho => ?_, fun f hf => ⟨(hs.fileSets f hf).1, fun q hq p hp he => ?_⟩⟩
  · rcases List.mem_cons.mp hq with rfl | hq
    · exact Nat.lt_succ_self _
    · exact Nat.lt_succ_of_lt (hs.started q hq)
  · rcases hs.objects o ho with ⟨pid', g, saving, hat, hown, hof⟩ | ⟨hpage, hclear⟩
    · have hne : s.started ≠ pid' := Nat.ne_of_gt (hs.started _ (at?_mem hat))
      exact .inl ⟨pid', g, saving, (at?_cons_ne hne _ _ _ _).trans hat, hown, hof⟩
    · refine .inr ⟨hpage, fun q hq => ?_⟩
      rcases List.mem_cons.mp hq with rfl | hq
      · rw [hnone]
        exact fun h => by cases h
      · exact hclear q hq
  · rcases List.mem_cons.mp hq with rfl | hq
    · rw [clears_none hnone] at hp
      cases hp
    · exact (hs.fileSets f hf).2 q hq p hp he

theorem pageSystem_preserves : (pageSystem.when Careful).Preserves PagesOk := by
  intro s a hs ha
  cases a with
  | start call => exact start_ok hs call
  | abort pid => exact abort_ok hs ha.2
  | env _ => exact ⟨hs.started, hs.objects, hs.fileSets⟩
  | advance pid => exact advance_ok hs ha.2

/-- Where no save records its file set, or breaks off, at a Page that a cleanup has passed: once every
call has ended and no Page is left to clean up, no file set and no object is left either. -/
theorem page_cleanup_ok (hs : (pageSystem.when Careful).Reachable s) (hidle : s.running = []) (hnone : s.store.pages = []) :
    s.store.fileSets = [] ∧ s.store.objects = [] := by
  have hok : PagesOk s := by
    refine hs.invariant (fun s₀ hi => ?_) pageSystem_preserves
    obtain ⟨⟨-, -, hfileSets, hobjects⟩, hidle, -⟩ := hi
    exact ⟨by simp [hidle], by simp [hobjects], by simp [hfileSets]⟩
  have hpage : ∀ page, ¬ s.store.HasPage page := by
    rintro page ⟨p, hp, -⟩
    rw [hnone] at hp
    cases hp
  refine ⟨List.eq_nil_iff_forall_not_mem.mpr fun f hf => hpage _ (hok.fileSets f hf).1,
    List.eq_nil_iff_forall_not_mem.mpr fun o ho => ?_⟩
  rcases hok.objects o ho with ⟨pid, g, saving, hat, -⟩ | ⟨hrow, -⟩
  · have hm := at?_mem hat
    rw [hidle] at hm
    cases hm
  · exact hpage _ hrow

namespace Example

def start : PagePool := ⟨⟨true, [], [], [], 0, 0⟩, [], 0⟩

def save : Call := .storePageFileSet "Page" [.put "index.html" true true] true

abbrev Moves := List PageMove

def steps (pid n : Nat) : Moves := List.replicate n (.advance pid)

def passed : Moves :=
  .start save :: steps 0 2 ++ .env .claim :: .start .deleteConversationPages :: steps 1 2 ++ steps 0 3 ++ steps 1 3

def cleaned : Moves :=
  .start save :: steps 0 5 ++ .start save :: steps 1 1 ++ .env .claim :: .start .deleteConversationPages :: steps 2 5 ++
    steps 1 4 ++ .start .deleteConversationPages :: steps 3 5

instance : Decidable (pageCalls.blocks p q) := inferInstanceAs (Decidable False)

instance : Decidable (pageSystem.enabled s a) :=
  inferInstanceAs (Decidable ((pageCalls.machine _ Claimed).enabled s a))

instance : Decidable ((pageSystem.when Careful).enabled s a) :=
  inferInstanceAs (Decidable (pageSystem.enabled s a ∧ Careful s a))

theorem start_ok : pageSystem.init start := ⟨⟨rfl, rfl, rfl, rfl⟩, rfl, rfl⟩

end Example

/-- A file set that is recorded between the two halves of a cleanup leaves its objects behind. -/
theorem objects_without_page :
    ¬ ∀ s, pageSystem.Reachable s → s.running = [] → s.store.pages = [] → s.store.fileSets = [] ∧ s.store.objects = [] := by
  intro h
  have hrun : pageSystem.Allows Example.start Example.passed := by decide
  have hleft : (pageSystem.after Example.start Example.passed).running = [] ∧
      (pageSystem.after Example.start Example.passed).store.pages = [] ∧
      (pageSystem.after Example.start Example.passed).store.objects ≠ [] := by decide
  exact hleft.2.2 (h _ ⟨_, _, Example.start_ok, hrun.run⟩ hleft.1 hleft.2.1).2

theorem page_cleanup_ok_cleaned : (pageSystem.after Example.start Example.cleaned).store.objects = [] := by
  have hrun : (pageSystem.when Careful).Allows Example.start Example.cleaned := by decide
  have hidle : (pageSystem.after Example.start Example.cleaned).running = [] := by decide
  have hnone : (pageSystem.after Example.start Example.cleaned).store.pages = [] := by decide
  exact (page_cleanup_ok ⟨_, _, Example.start_ok, hrun.run⟩ hidle hnone).2

end Catalyst.FileSets
