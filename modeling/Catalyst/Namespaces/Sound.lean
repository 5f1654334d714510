import Catalyst.Namespaces.Model

/-!
# Prefixes do not overlap and grants do not dangle

What a transaction has checked behind the access lock stays so until it writes: without the
lock of an instance nobody registers or removes a prefix there or adds a grant.
-/

namespace Catalyst.Namespaces

open Library Library.Check Library.Processes Access Grants

variable {db db' : Db} {i : ClientInstanceId} {p : String}

def Registered (db : Db) (i : ClientInstanceId) (p : String) : Prop := ∃ n ∈ db.namespaces, n.key = (i, p)

def PrefixFree (db : Db) : Prop :=
  db.namespaces.Pairwise fun m n => m.clientInstanceId = n.clientInstanceId → ¬ overlaps m.namePrefix n.namePrefix

def NoneDangles (db : Db) : Prop := ∀ g ∈ db.grants, ∀ p ∈ g.inNamespace, Registered db g.clientInstanceId p

structure Db.Ok (db : Db) : Prop where
  prefixFree : PrefixFree db
  noneDangles : NoneDangles db

/-- What a step leaves alone that has the access lock of `held` only. -/
structure Effect (held : Option ClientInstanceId) (db db' : Db) : Prop where
  ok : db'.Ok
  registered : ∀ i, i ∉ held → ∀ p, Registered db' i p ↔ Registered db i p
  grants : ∀ g ∈ db'.grants, g.clientInstanceId ∉ held → g ∈ db.grants

theorem Effect.refl {held : Option ClientInstanceId} (hd : db.Ok) : Effect held db db :=
  ⟨hd, fun _ _ _ => Iff.rfl, fun _ h _ => h⟩

theorem insertGrant_effect {input : PermissionGrant} {row : GrantRow} (hd : db.Ok)
    (hregistered : input.scopeKind = .ofNamespace → Registered db input.clientInstanceId (input.inNamespace.getD ""))
    (h : insertGrant db input = .ok (row, db')) : Effect (some input.clientInstanceId) db db' := by
  obtain ⟨_, hnamespace, h⟩ := bind_ok.mp h
  obtain ⟨_, _, h⟩ := bind_ok.mp h
  obtain ⟨_, _, h⟩ := bind_ok.mp h
  have hnamespace := require_ok.mp hnamespace
  obtain ⟨rfl, rfl⟩ := Prod.mk.inj (pure_ok.mp h)
  refine ⟨⟨hd.prefixFree, ?_⟩, fun _ _ _ => Iff.rfl, ?_⟩
  · intro g hg p hp
    rcases List.mem_cons.mp hg with rfl | hg
    · have hp : input.inNamespace = some p := hp
      have hreg := hregistered (hnamespace.mpr (by simp [hp]))
      rw [hp, Option.getD_some] at hreg
      exact hreg
    · exact hd.noneDangles g hg p hp
  · intro g hg hne
    rcases List.mem_cons.mp hg with rfl | hg
    · exact absurd rfl hne
    · exact hg

theorem removeGrants_effect {held : Option ClientInstanceId} {grants : List GrantRow} (hd : db.Ok)
    (hsub : ∀ g ∈ grants, g ∈ db.grants) : Effect held db { db with grants } :=
  ⟨⟨hd.prefixFree, fun g hg => hd.noneDangles g (hsub g hg)⟩, fun _ _ _ => Iff.rfl, fun g hg _ => hsub g hg⟩

theorem insertNamespace_effect {input : Namespace} (hd : db.Ok)
    (hfree : ∀ q, Registered db input.clientInstanceId q → ¬ overlaps input.namePrefix q)
    (h : insertNamespace db input = .ok db') : Effect (some input.clientInstanceId) db db' := by
  obtain ⟨_, _, h⟩ := bind_ok.mp h
  obtain rfl := pure_ok.mp h
  have hmem : ∀ i q, Registered db i q → Registered { db with namespaces := input :: db.namespaces } i q :=
    fun i q ⟨n, hn, hk⟩ => ⟨n, List.mem_cons_of_mem _ hn, hk⟩
  refine ⟨⟨List.pairwise_cons.mpr ⟨fun n hn hi => ?_, hd.prefixFree⟩, fun g hg p hp => hmem _ _ (hd.noneDangles g hg p hp)⟩,
    fun i hne q => ⟨?_, hmem i q⟩, fun g hg _ => hg⟩
  · exact hfree n.namePrefix ⟨n, hn, Prod.ext hi.symm rfl⟩
  · rintro ⟨n, hn, hk⟩
    rcases List.mem_cons.mp hn with rfl | hn
    · exact absurd (congrArg (some ·.1) hk) hne
    · exact ⟨n, hn, hk⟩

theorem deleteNamespace_effect (hd : db.Ok) (hunused : ∀ g ∈ db.grants, g.clientInstanceId = i → g.inNamespace ≠ some p) :
    Effect (some i) db (deleteNamespace db i p).2 := by
  have hkeeps : ∀ j q, (j, q) ≠ (i, p) → (Registered (deleteNamespace db i p).2 j q ↔ Registered db j q) := by
    intro j q hne
    constructor
    · rintro ⟨n, hn, hk⟩
      exact ⟨n, (mem_deleteWhere.mp hn).1, hk⟩
    · rintro ⟨n, hn, hk⟩
      exact ⟨n, mem_deleteWhere.mpr ⟨hn, hk ▸ hne⟩, hk⟩
  refine ⟨⟨hd.prefixFree.filter _, fun g hg q hq => ?_⟩, fun j hne q => hkeeps j q fun he => hne ?_, fun g hg _ => hg⟩
  · refine (hkeeps _ _ fun he => ?_).mpr (hd.noneDangles g hg q hq)
    obtain ⟨hi, rfl⟩ := Prod.mk.inj he
    exact hunused g hg hi hq
  · exact congrArg some (Prod.mk.inj he).1.symm

theorem registered_iff : Registered db i p ↔ (i, p) ∈ db.namespaces.map Namespace.key := by
  simp [Registered, List.mem_map]

theorem prefixFree_iff : PrefixFree db ↔
    (db.namespaces.map Namespace.key).Pairwise fun k l => k.1 = l.1 → ¬ overlaps k.2 l.2 := by
  rw [List.pairwise_map]
  exact Iff.rfl

theorem updateNamespace_effect {held : Option ClientInstanceId} {update : NamespaceUpdate} (hd : db.Ok) :
    Effect held db (updateNamespace db i p update).2 := by
  have hkeys : (updateNamespace db i p update).2.namespaces.map Namespace.key = db.namespaces.map Namespace.key :=
    map_updateWhere Namespace.key fun _ _ => rfl
  have hregistered : ∀ j q, Registered (updateNamespace db i p update).2 j q ↔ Registered db j q := fun j q => by
    rw [registered_iff, registered_iff, hkeys]
  refine ⟨⟨?_, fun g hg q hq => (hregistered _ q).mpr (hd.noneDangles g hg q hq)⟩, fun j _ q => hregistered j q,
    fun _ h _ => h⟩
  rw [prefixFree_iff, hkeys, ← prefixFree_iff]
  exact hd.prefixFree

theorem markUserDeletionRequested_effect {held : Option ClientInstanceId} {userId : String} (hd : db.Ok) :
    Effect held db (markUserDeletionRequested db i userId) :=
  ⟨⟨hd.prefixFree, hd.noneDangles⟩, fun _ _ _ => Iff.rfl, fun _ h _ => h⟩

def Process.Relies (db : Db) : Process → Prop
  | granting input .inserting =>
    input.scopeKind = .ofNamespace → Registered db input.clientInstanceId (input.inNamespace.getD "")
  | creating input .writing => ∀ q, Registered db input.clientInstanceId q → ¬ overlaps input.namePrefix q
  | deleting i p .writing => ∀ g ∈ db.grants, g.clientInstanceId = i → g.inNamespace ≠ some p
  | _ => True

def Apart (t q : Process) : Prop := ∀ i ∈ t.access, i ∉ q.access

theorem Effect.relies {t q : Process} (h : Effect t.access db db') (hap : Apart t q) (hq : q.Relies db) : q.Relies db' := by
  cases q with
  | revoking | updating | marking => trivial
  | granting input phase =>
    cases phase with
    | acquiring | findingHolder | findingNamespace => trivial
    | inserting => exact fun hs => (h.registered _ (fun hi => hap _ hi rfl) _).mpr (hq hs)
  | creating input phase =>
    cases phase with
    | acquiring | checking => trivial
    | writing => exact fun p hp => hq p ((h.registered _ (fun hi => hap _ hi rfl) p).mp hp)
  | deleting i p phase =>
    cases phase with
    | acquiring | checking => trivial
    | writing =>
      rintro g hg rfl
      exact hq g (h.grants g hg fun hi => hap _ hi rfl) rfl

structure Steps (db : Db) (t : Process) (r : StepResult) : Prop where
  effect : Effect t.access db r.2.2
  relies : ∀ t' ∈ r.2.1, t'.Relies r.2.2
  access : ∀ t' ∈ r.2.1, ∀ i ∈ t'.access, i ∈ t.access ∨ ∀ q, q.access = some i → waitsFor q t

theorem Steps.answers {t : Process} {answer : Answer} (h : Effect t.access db db') :
    Steps db t (Namespaces.answers db' answer) := ⟨h, by simp [Namespaces.answers], by simp [Namespaces.answers]⟩

theorem Steps.acquires {t t' : Process} (hd : db.Ok) (hr : t'.Relies db)
    (h : ∀ i ∈ t'.access, ∀ q, q.access = some i → waitsFor q t) : Steps db t (none, some t', db) := by
  refine ⟨.refl hd, ?_, ?_⟩
  · rintro _ ⟨⟩
    exact hr
  · rintro _ ⟨⟩ i hi
    exact .inr (h i hi)

theorem Steps.checks {t next : Process} {check : Except AppError Unit} (hd : db.Ok) (hlock : next.access = t.access)
    (hr : check = .ok () → next.Relies db) : Steps db t (Namespaces.checks db check next) := by
  unfold Namespaces.checks
  cases check with
  | error e => exact .answers (.refl hd)
  | ok _ =>
    refine ⟨.refl hd, ?_, ?_⟩
    · rintro _ ⟨⟩
      exact hr rfl
    · rintro _ ⟨⟩ i hi
      exact .inl (hlock ▸ hi)

theorem checkOverlaps_ok {input : Namespace} (h : checkOverlaps db input = .ok ()) {q : String}
    (hq : Registered db input.clientInstanceId q) : ¬ overlaps input.namePrefix q := by
  intro hoverlaps
  obtain ⟨n, hn, hk⟩ := hq
  obtain ⟨hi, rfl⟩ := Prod.mk.inj hk
  have hmem : n.namePrefix ∈ ((overlapping db input).map (·.namePrefix)).mergeSort :=
    List.mem_mergeSort.mpr (List.mem_map.mpr ⟨n, List.mem_filter.mpr ⟨hn, by simpa using ⟨hi, hoverlaps⟩⟩, rfl⟩)
  unfold checkOverlaps at h
  split at h
  · rename_i hnil
    rw [hnil] at hmem
    cases hmem
  · cases h

theorem grant_steps {input : PermissionGrant} {phase : GrantPhase} (hd : db.Ok)
    (hr : (Process.granting input phase).Relies db) : Steps db (.granting input phase) (grant db input phase) := by
  cases phase with
  | acquiring =>
    refine .acquires hd trivial ?_
    rintro _ ⟨⟩ q hq
    exact hq
  | findingHolder => exact .checks hd rfl fun _ => trivial
  | findingNamespace =>
    have hchecked : checkRegistered db input = .ok () → (Process.granting input .inserting).Relies db := by
      intro h
      have hregistered := require_ok.mp h
      exact hregistered
    exact .checks hd rfl hchecked
  | inserting =>
    simp only [grant]
    cases h : insertGrant db input with
    | error e => exact .answers (.refl hd)
    | ok r => exact .answers (insertGrant_effect hd hr h)

theorem create_steps {input : Namespace} {phase : NamespacePhase} (hd : db.Ok)
    (hr : (Process.creating input phase).Relies db) : Steps db (.creating input phase) (create db input phase) := by
  cases phase with
  | acquiring =>
    refine .acquires hd trivial ?_
    rintro _ ⟨⟩ q hq
    exact hq
  | checking => exact .checks hd rfl fun h q hq => checkOverlaps_ok h hq
  | writing =>
    simp only [create]
    cases h : insertNamespace db input with
    | error e => exact .answers (.refl hd)
    | ok db' => exact .answers (insertNamespace_effect hd hr h)

theorem delete_steps {phase : NamespacePhase} (hd : db.Ok) (hr : (Process.deleting i p phase).Relies db) :
    Steps db (.deleting i p phase) (delete db i p phase) := by
  cases phase with
  | acquiring =>
    refine .acquires hd trivial ?_
    rintro _ ⟨⟩ q hq
    exact hq
  | checking =>
    refine .checks hd rfl fun h g hg hi hp => ?_
    exact count_eq_zero.mp (require_ok.mp h) g hg ⟨hi, hp⟩
  | writing => exact .answers (deleteNamespace_effect hd hr)

theorem process_steps {t : Process} (hd : db.Ok) (hr : t.Relies db) : Steps db t (accessSystem.step db t) := by
  cases t with
  | granting input phase => exact grant_steps hd hr
  | revoking i grantId => exact .answers (removeGrants_effect hd fun g hg => (mem_deleteWhere.mp hg).1)
  | creating input phase => exact create_steps hd hr
  | updating i p update => exact .answers (updateNamespace_effect hd)
  | deleting i p phase => exact delete_steps hd hr
  | marking i userId => exact .answers (markUserDeletionRequested_effect hd)

def assertions : Assertions Db Process Answer where
  holds _ db := db.Ok
  relies _ db t := t.Relies db
  apart := Apart

theorem access_inductive : accessSystem.Inductive assertions fun _ _ => True where
  symm t q h i hi hi' := h i hi' hi
  start log s request _ _ := by
    cases request with
    | createGrant | deleteGrant | createNamespace | updateNamespace | deleteNamespace | markUserDeletionRequested =>
      exact ⟨trivial, fun q _ h => by cases h⟩
  step log s pid t hs _ _ ht hothers := by
    have hsteps : Steps s.store t (accessSystem.step s.store t) := process_steps hs.holds ht
    refine ⟨⟨hsteps.effect.ok, fun q hq => hsteps.effect.relies hq.1⟩, fun t' ht' => ⟨hsteps.relies t' ht', ?_⟩⟩
    intro q _ hap hwaits i hi hi'
    exact (hsteps.access t' ht' i hi).elim (fun h => hap i h hi') fun h => hwaits (h q hi')
  env _ _ e := e.elim

def accessMachine : Machine (Pool Db Process) (Move Request Empty) (Option Answer) :=
  accessSystem.machine (fun db => db.namespaces = [] ∧ db.grants = []) fun _ _ => True

theorem namespaces_ok {s₀ s : Pool Db Process} {h : List (Move Request Empty × Option Answer)}
    (hi : accessMachine.init s₀) (hr : accessMachine.Run s₀ h s) : PrefixFree s.store ∧ NoneDangles s.store := by
  obtain ⟨⟨hnone, hno⟩, hidle, _⟩ := hi
  have hd : s₀.store.Ok := ⟨by simp [PrefixFree, hnone], by simp [NoneDangles, hno]⟩
  have hstart : assertions.Ok [] s₀ := .of_idle hidle hd
  have hok := access_inductive.run_ok hr hstart
  exact ⟨hok.holds.prefixFree, hok.holds.noneDangles⟩

instance : Decidable (accessSystem.blocks q t) :=
  match t with
  | .granting input .acquiring => inferInstanceAs (Decidable (q.access = some input.clientInstanceId))
  | .creating input .acquiring => inferInstanceAs (Decidable (q.access = some input.clientInstanceId))
  | .deleting i _ .acquiring => inferInstanceAs (Decidable (q.access = some i))
  | .marking i userId => inferInstanceAs (Decidable (q.shares = some (i, userId)))
  | .granting _ .findingHolder | .granting _ .findingNamespace | .granting _ .inserting
  | .creating _ .checking | .creating _ .writing | .deleting _ _ .checking | .deleting _ _ .writing
  | .revoking .. | .updating .. => .isFalse id

instance : Decidable (accessMachine.enabled s a) := inferInstanceAs (Decidable (accessSystem.Unblocked s a ∧ True))

namespace Example

def empty : Pool Db Process := ⟨⟨[], [], [], 0⟩, [], 0⟩

def sales : Namespace := ⟨"instance", "sales-", "Sales", none, none, "admin"⟩

def salesEurope : Namespace := ⟨"instance", "sales-eu-", "Sales in Europe", none, none, "admin"⟩

def reads : PermissionGrant := ⟨"instance", .user, "u", "agent.read", .allow, .ofNamespace, none, some "sales-"⟩

def moves : List (Move Request Empty) :=
  .start (.createNamespace sales) :: List.replicate 3 (.advance 0) ++
    .start (.createGrant reads) :: .start (.deleteNamespace "instance" "sales-") :: List.replicate 4 (.advance 1) ++
    List.replicate 2 (.advance 2) ++ .start (.createNamespace salesEurope) :: List.replicate 2 (.advance 3)

end Example

theorem namespaces_ok_refused :
    (Processes.answers (accessMachine.history Example.empty Example.moves)).length = 4 ∧
      PrefixFree (accessMachine.after Example.empty Example.moves).store ∧
      NoneDangles (accessMachine.after Example.empty Example.moves).store := by
  have hallows : accessMachine.Allows Example.empty Example.moves := by with_unfolding_all decide
  exact ⟨by with_unfolding_all decide, namespaces_ok ⟨⟨rfl, rfl⟩, rfl, rfl⟩ hallows.run⟩

end Catalyst.Namespaces
