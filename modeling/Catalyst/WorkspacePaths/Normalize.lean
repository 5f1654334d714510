import Catalyst.Library.Check
import Catalyst.Library.JsText
import Catalyst.Library.PosixPath

/-!
# Paths of workspace files

A path that a tool is given is trimmed, freed of the root of the workspace, checked and
normalized. The checks look at the path as it was given, or before it was normalized, so what is
left may be spelled in a way that they would refuse or change.
-/

namespace Catalyst.WorkspacePaths

open Library Library.Check Library.PosixPath

abbrev Text := List Char

structure WorkspacePathLimits where
  maxPathLength : Nat

inductive PathDetail where
  | path (value : Text)
  | maxPathLength (limit : Nat)
  deriving DecidableEq

structure WorkspacePathFailure where
  message : String
  details : Option PathDetail
  deriving DecidableEq

/-- `value.length` -/
def jsLength (value : Text) : Nat := (Js.utf16 value).length

def root : Text := "/workspace".toList

def rootSlash : Text := "/workspace/".toList

def withoutRoot (value : Text) : Text :=
  let trimmedInput := Js.trim value
  if trimmedInput = root then ['.']
  else if rootSlash <+: trimmedInput then trimmedInput.drop rootSlash.length
  else trimmedInput

/-- `/^[A-Za-z]:/` -/
def startsWithDrive : Text → Bool
  | c :: ':' :: _ => c.isAlpha
  | _ => false

def normalizeWorkspacePath (value : Text) (limits : WorkspacePathLimits) : Except WorkspacePathFailure Text := do
  let trimmed := withoutRoot value
  require (trimmed ≠ []) ⟨"Workspace path cannot be blank", none⟩
  require (jsLength trimmed ≤ limits.maxPathLength)
    ⟨"Workspace path is too long", some (.maxPathLength limits.maxPathLength)⟩
  require ('\x00' ∉ trimmed) ⟨"Workspace path cannot contain NUL bytes", none⟩
  require (¬ (trimmed.head? = some '/' ∨ trimmed.head? = some '\\' ∨ startsWithDrive trimmed))
    ⟨"Workspace path must be relative", some (.path value)⟩
  require ('\\' ∉ trimmed) ⟨"Workspace path must use forward slashes", some (.path value)⟩
  let normalized := PosixPath.normalize trimmed
  require (¬ (normalized = parent ∨ parent ++ ['/'] <+: normalized))
    ⟨"Workspace path cannot traverse outside the workspace", some (.path value)⟩
  return normalized

def normalizeWorkspaceFilePath (value : Text) (limits : WorkspacePathLimits) : Except WorkspacePathFailure Text := do
  let normalized ← normalizeWorkspacePath value limits
  require (normalized ≠ ['.']) ⟨"Workspace file path must name a file", none⟩
  require (value.getLast? ≠ some '/') ⟨"Workspace file path must not end with a slash", some (.path value)⟩
  return normalized

variable {limits : WorkspacePathLimits} {value p : Text}

structure Accepted (limits : WorkspacePathLimits) (trimmed p : Text) : Prop where
  ne_nil : trimmed ≠ []
  length_le : jsLength trimmed ≤ limits.maxPathLength
  nul : '\x00' ∉ trimmed
  slash : trimmed.head? ≠ some '/'
  drive : startsWithDrive trimmed = false
  backslash : '\\' ∉ trimmed
  normalized : PosixPath.normalize trimmed = p
  inside : ¬ (p = parent ∨ parent ++ ['/'] <+: p)

theorem normalizeWorkspacePath_ok : normalizeWorkspacePath value limits = .ok p ↔ Accepted limits (withoutRoot value) p := by
  simp only [normalizeWorkspacePath, bind_ok, require_ok, pure_ok]
  constructor
  · rintro ⟨_, hne, _, hle, _, hnul, _, hrel, _, hback, _, hin, rfl⟩
    obtain ⟨hslash, -, hdrive⟩ := by simpa only [not_or] using hrel
    exact ⟨hne, hle, hnul, hslash, by simpa using hdrive, hback, rfl, hin⟩
  · rintro ⟨hne, hle, hnul, hslash, hdrive, hback, rfl, hin⟩
    have hrel : ¬ ((withoutRoot value).head? = some '/' ∨ (withoutRoot value).head? = some '\\' ∨
        startsWithDrive (withoutRoot value)) := by
      rintro (h | h | h)
      · exact hslash h
      · exact hback (List.mem_of_mem_head? h)
      · simp [hdrive] at h
    exact ⟨(), hne, (), hle, (), hnul, (), hrel, (), hback, (), hin, rfl⟩

theorem normalizeWorkspaceFilePath_ok : normalizeWorkspaceFilePath value limits = .ok p ↔
    Accepted limits (withoutRoot value) p ∧ p ≠ ['.'] ∧ value.getLast? ≠ some '/' := by
  simp only [normalizeWorkspaceFilePath, bind_ok, require_ok, pure_ok, normalizeWorkspacePath_ok]
  constructor
  · rintro ⟨p, h, _, hdot, _, hlast, rfl⟩
    exact ⟨h, hdot, hlast⟩
  · rintro ⟨h, hdot, hlast⟩
    exact ⟨p, h, (), hdot, (), hlast, rfl⟩

def Trimmed (t : Text) : Prop := (∀ c ∈ t.head?, Js.isWhitespace c = false) ∧ ∀ c ∈ t.getLast?, Js.isWhitespace c = false
  deriving Decidable

variable {t : Text}

theorem trim_sublist (t : Text) : (Js.trim t).Sublist t := by
  have hback := (List.dropWhile_suffix Js.isWhitespace (l := (t.dropWhile Js.isWhitespace).reverse)).sublist
  have hfront := (List.dropWhile_suffix Js.isWhitespace (l := t)).sublist
  rw [← List.reverse_sublist, List.reverse_reverse] at hback
  exact hback.trans hfront

theorem dropWhile_eq_self {q : Char → Bool} (h : ∀ c ∈ t.head?, q c = false) : t.dropWhile q = t := by
  cases t with
  | nil => rfl
  | cons c t => exact List.dropWhile_cons_of_neg (by simp [h c rfl])

theorem trim_eq_self_iff : Js.trim t = t ↔ Trimmed t := by
  constructor
  · intro h
    have hback : ∀ u : Text, ∀ c ∈ (u.dropWhile Js.isWhitespace).head?, Js.isWhitespace c = false := by
      intro u c hc
      have hnot := List.head?_dropWhile_not Js.isWhitespace u
      rw [hc] at hnot
      simpa using hnot
    have hdrop : t.dropWhile Js.isWhitespace = t := by
      have hle : t.length ≤ (t.dropWhile Js.isWhitespace).length := by
        calc t.length = (Js.trim t).length := by rw [h]
          _ ≤ (t.dropWhile Js.isWhitespace).length := by
            rw [Js.trim, List.length_reverse]
            exact (List.dropWhile_suffix _).length_le.trans (Nat.le_of_eq List.length_reverse)
      exact (List.dropWhile_suffix _).eq_of_length_le hle
    refine ⟨fun c hc => hback t c (by rwa [hdrop]), fun c hc => ?_⟩
    rw [Js.trim, hdrop, List.reverse_eq_iff] at h
    refine hback t.reverse c ?_
    rwa [h, List.head?_reverse]
  · rintro ⟨hhead, hlast⟩
    rw [Js.trim, dropWhile_eq_self hhead, dropWhile_eq_self (by rwa [List.head?_reverse]), List.reverse_reverse]

/-- The path consists of names, so it is relative, inside the root and without a slash at its end, and it
is what the path itself is normalized to, with the root before it or not. -/
def OneSpelling (limits : WorkspacePathLimits) (p : Text) : Prop :=
  (∀ s ∈ p.splitOn '/', IsName s) ∧ normalizeWorkspaceFilePath p limits = .ok p ∧
    normalizeWorkspaceFilePath (rootSlash ++ p) limits = .ok p
  deriving Decidable

/-- The path without the root does not end with a slash. Of the segments that no later one takes back, the
first starts neither with white space nor with a drive, and the last does not end with white space. -/
def Spelled (value : Text) : Prop :=
  (withoutRoot value).getLast? ≠ some '/' ∧
    ∀ front s behind, (withoutRoot value).splitOn '/' = front ++ s :: behind → IsName s → Stays behind →
      (depth front = 0 → (∀ c ∈ s.head?, Js.isWhitespace c = false) ∧ startsWithDrive s = false) ∧
        (depth behind = 0 → ∀ c ∈ s.getLast?, Js.isWhitespace c = false)

theorem withoutRoot_sublist (value : Text) : (withoutRoot value).Sublist (Js.trim value) ∨ withoutRoot value = ['.'] := by
  simp only [withoutRoot]
  split_ifs
  · exact .inr rfl
  · exact .inl (List.drop_sublist _ _)
  · exact .inl (.refl _)

theorem withoutRoot_of_relative (htrim : Trimmed t) (hhead : t.head? ≠ some '/') : withoutRoot t = t := by
  rw [withoutRoot, trim_eq_self_iff.mpr htrim, if_neg, if_neg]
  · rintro ⟨rest, rfl⟩
    exact hhead rfl
  · rintro rfl
    exact hhead rfl

theorem withoutRoot_rootSlash (htrim : Trimmed t) (hne : t ≠ []) : withoutRoot (rootSlash ++ t) = t := by
  have hroot : Trimmed (rootSlash ++ t) := by
    refine ⟨fun c hc => ?_, ?_⟩
    · obtain rfl : '/' = c := Option.some.inj hc
      decide
    · rw [List.getLast?_append_of_ne_nil _ hne]
      exact htrim.2
  rw [withoutRoot, trim_eq_self_iff.mpr hroot, if_neg, if_pos (List.prefix_append _ _), List.drop_left]
  intro he
  have hlength : 11 + t.length = 10 := List.length_append.symm.trans (congrArg List.length he)
  omega

theorem Accepted.stays (h : Accepted limits t p) : Stays (t.splitOn '/') := by
  by_contra hout
  obtain ⟨rest, hrest⟩ := escapes hout
  have hp := h.normalized.symm.trans (normalize_relative h.ne_nil h.slash hrest)
  by_cases hnil : rest = []
  · subst hnil
    rw [joinWith_singleton, if_neg (by decide)] at hp
    split_ifs at hp
    · exact h.inside (.inr (hp ▸ List.prefix_rfl))
    · exact h.inside (.inl (by simpa using hp))
  · rw [joinWith_cons hnil, if_neg (by simp)] at hp
    exact h.inside (.inr ⟨joinWith '/' rest ++ if t.getLast? = some '/' then ['/'] else [], by simp [hp]⟩)

abbrev namesOf (t : Text) : List Segment := resolve true (t.splitOn '/')

theorem Accepted.sublist (h : Accepted limits t p) : (namesOf t).Sublist (t.splitOn '/') := by
  obtain ⟨top, hfold, -, -, hsub⟩ := foldl_push true h.stays []
  rw [namesOf, resolve, hfold, List.append_nil]
  exact hsub

theorem Accepted.names (h : Accepted limits t p) (hne : namesOf t ≠ []) : Names (namesOf t) where
  isName := by
    obtain ⟨top, hfold, -, hnames, -⟩ := foldl_push true h.stays []
    rw [namesOf, resolve, hfold, List.append_nil]
    exact fun s hs => hnames s (List.mem_reverse.mp hs)
  unbroken s hs hslash := (Lines.mem_splitOn (h.sublist.subset hs) _ hslash).2 rfl
  ne_nil := hne

theorem Accepted.names_sublist (h : Accepted limits t p) : (joinWith '/' (namesOf t)).Sublist t := by
  have hjoined : joinWith '/' (t.splitOn '/') = t := List.intercalate_splitOn '/'
  have hsub : (joinWith '/' (namesOf t)).Sublist (joinWith '/' (t.splitOn '/')) := joinWith_sublist h.sublist
  rwa [hjoined] at hsub

theorem Accepted.result (h : Accepted limits t p) (hdot : p ≠ ['.']) (htrailing : t.getLast? ≠ some '/') :
    Names (namesOf t) ∧ p = joinWith '/' (namesOf t) := by
  have hp := h.normalized.symm.trans (normalize_relative h.ne_nil h.slash rfl)
  rw [if_neg htrailing, List.append_nil] at hp
  by_cases hne : namesOf t = []
  · rw [show joinWith '/' (resolve true (t.splitOn '/')) = [] from congrArg (joinWith '/') hne, if_pos rfl] at hp
    exact absurd hp hdot
  · rw [if_neg (h.names hne).path_ne_nil] at hp
    exact ⟨h.names hne, hp⟩

theorem Accepted.trailing (h : Accepted limits t p) (htrailing : t.getLast? = some '/') : p.getLast? = some '/' := by
  rw [h.normalized.symm.trans (normalize_relative h.ne_nil h.slash rfl), if_pos htrailing, List.getLast?_concat]

theorem startsWithDrive_joinWith {s : Segment} {rest : List Segment} (hs : s ≠ []) :
    startsWithDrive (joinWith '/' (s :: rest)) = startsWithDrive s := by
  by_cases hrest : rest = []
  · rw [hrest, joinWith_singleton]
  · rw [joinWith_cons hrest]
    obtain ⟨c, s, rfl⟩ := List.exists_cons_of_ne_nil hs
    cases s with
    | nil => simp [startsWithDrive]
    | cons d s => by_cases hd : d = ':' <;> simp [startsWithDrive, hd]

theorem jsLength_le_of_sublist {a b : Text} (h : a.Sublist b) : jsLength a ≤ jsLength b :=
  (h.flatMap Js.codeUnits).length_le

theorem Names.accepted {names : List Segment} (hn : Names names)
    (hlength : jsLength (joinWith '/' names) ≤ limits.maxPathLength) (hnul : '\x00' ∉ joinWith '/' names)
    (hback : '\\' ∉ joinWith '/' names) (hdrive : startsWithDrive (joinWith '/' names) = false) :
    Accepted limits (joinWith '/' names) (joinWith '/' names) ∧ joinWith '/' names ≠ ['.'] := by
  have hmem : ∀ rest : List Segment, (joinWith '/' names).splitOn '/' = parent :: rest → False := fun rest h =>
    (hn.isName parent (hn.split.symm.trans h ▸ List.mem_cons_self)).2.2 rfl
  refine ⟨⟨hn.path_ne_nil, hlength, hnul, hn.head_ne, hdrive, hback, hn.normalize, ?_⟩, fun hdot => ?_⟩
  · rintro (h | ⟨rest, h⟩)
    · exact hmem [] (by rw [h]; rfl)
    · refine hmem (rest.splitOn '/') ?_
      rw [← h, List.append_assoc, List.singleton_append, List.splitOn_append_cons_self_of_not_mem (by decide)]
  · have hnames : names = [['.']] := by rw [← hn.split, hdot]; rfl
    exact (hn.isName ['.'] (by simp [hnames])).2.1 rfl

theorem normalize_names_iff {names : List Segment} (hn : Names names)
    (hlength : jsLength (joinWith '/' names) ≤ limits.maxPathLength) (hnul : '\x00' ∉ joinWith '/' names)
    (hback : '\\' ∉ joinWith '/' names) :
    normalizeWorkspaceFilePath (joinWith '/' names) limits = .ok (joinWith '/' names) ↔
      Trimmed (joinWith '/' names) ∧ startsWithDrive (joinWith '/' names) = false := by
  rw [normalizeWorkspaceFilePath_ok]
  constructor
  · rintro ⟨h, hdot, hlast⟩
    -- normalizing lengthens nothing, so nothing was trimmed
    have htrailing : (withoutRoot (joinWith '/' names)).getLast? ≠ some '/' := fun he => hn.last_ne (h.trailing he)
    obtain ⟨hn', hp⟩ := h.result hdot htrailing
    have hsub : (joinWith '/' names).Sublist (withoutRoot (joinWith '/' names)) := by
      conv_lhs => rw [hp]
      exact h.names_sublist
    rcases withoutRoot_sublist (joinWith '/' names) with hsub' | hroot
    · have htrim : Trimmed (joinWith '/' names) := by
        refine trim_eq_self_iff.mp ((trim_sublist _).eq_of_length_le ?_)
        exact (hsub.trans hsub').length_le
      rw [withoutRoot_of_relative htrim hn.head_ne] at h
      exact ⟨htrim, h.drive⟩
    · rw [hroot] at h
      exact absurd (h.normalized.symm.trans (by decide)) hdot
  · rintro ⟨htrim, hdrive⟩
    rw [withoutRoot_of_relative htrim hn.head_ne]
    obtain ⟨hacc, hdot⟩ := Names.accepted hn hlength hnul hback hdrive
    exact ⟨hacc, hdot, hn.last_ne⟩

theorem normalize_rooted {names : List Segment} (hn : Names names)
    (hlength : jsLength (joinWith '/' names) ≤ limits.maxPathLength) (hnul : '\x00' ∉ joinWith '/' names)
    (hback : '\\' ∉ joinWith '/' names) (htrim : Trimmed (joinWith '/' names))
    (hdrive : startsWithDrive (joinWith '/' names) = false) :
    normalizeWorkspaceFilePath (rootSlash ++ joinWith '/' names) limits = .ok (joinWith '/' names) := by
  rw [normalizeWorkspaceFilePath_ok, withoutRoot_rootSlash htrim hn.path_ne_nil]
  obtain ⟨hacc, hdot⟩ := Names.accepted hn hlength hnul hback hdrive
  refine ⟨hacc, hdot, ?_⟩
  rw [List.getLast?_append_of_ne_nil _ hn.path_ne_nil]
  exact hn.last_ne

/-- A path that is accepted has one spelling left, exactly where it is spelled without a slash at its end
and without what the checks look for at the ends of what is left. -/
theorem one_spelling_iff (h : normalizeWorkspaceFilePath value limits = .ok p) : OneSpelling limits p ↔ Spelled value := by
  obtain ⟨hacc, hdot, hslash⟩ := normalizeWorkspaceFilePath_ok.mp h
  by_cases htrailing : (withoutRoot value).getLast? = some '/'
  · have hlast := hacc.trailing htrailing
    refine iff_of_false ?_ fun hs => hs.1 htrailing
    rintro ⟨hnames, -⟩
    obtain ⟨front, rfl⟩ := List.getLast?_eq_some_iff.mp hlast
    rw [List.splitOn_append_cons_self] at hnames
    exact (hnames [] (by simp)).1 rfl
  obtain ⟨hn, rfl⟩ := hacc.result hdot htrailing
  have hsub := hacc.names_sublist
  have hlength := (jsLength_le_of_sublist hsub).trans hacc.length_le
  have hnul := fun hm => hacc.nul (hsub.subset hm)
  have hback := fun hm => hacc.backslash (hsub.subset hm)
  have hiff : OneSpelling limits (joinWith '/' (namesOf (withoutRoot value))) ↔
      Trimmed (joinWith '/' (namesOf (withoutRoot value))) ∧
        startsWithDrive (joinWith '/' (namesOf (withoutRoot value))) = false := by
    rw [OneSpelling, normalize_names_iff hn hlength hnul hback, hn.split]
    exact ⟨fun hs => hs.2.1, fun hs => ⟨hn.isName, hs, normalize_rooted hn hlength hnul hback hs.1 hs.2⟩⟩
  rw [hiff]
  obtain ⟨first, rest, hfirst, hhead, -⟩ := hn.head
  obtain ⟨last, front, hlast, hend⟩ := hn.last
  have hdrive : startsWithDrive (joinWith '/' (namesOf (withoutRoot value))) = startsWithDrive first := by
    rw [hfirst, startsWithDrive_joinWith (hn.isName first (hfirst ▸ List.mem_cons_self)).1]
  rw [Trimmed, hhead, hend, hdrive]
  have hleft : ((withoutRoot value).splitOn '/').foldl (push true) [] = (namesOf (withoutRoot value)).reverse :=
    (List.reverse_reverse _).symm
  have hstays := hacc.stays
  constructor
  · rintro ⟨⟨hstart, hstop⟩, hdrive⟩
    refine ⟨htrailing, fun before s behind heq hs hbehind => ?_⟩
    obtain ⟨top, hfold, htop⟩ := name_left true before hs hbehind []
    rw [← heq, hleft] at hfold
    refine ⟨fun hbefore => ?_, fun hnone => ?_⟩
    · have hbstays : Stays before := fun f hf => hstays f (heq ▸ hf.trans (List.prefix_append _ _))
      obtain ⟨below, hbelow, hzero, -⟩ := foldl_push true hbstays []
      obtain rfl : below = [] := List.length_eq_zero_iff.mp (by omega)
      rw [hbelow, hfirst, List.reverse_cons, List.append_nil] at hfold
      obtain ⟨-, rfl⟩ := List.append_inj' hfold rfl |>.imp_right List.singleton_inj.mp
      exact ⟨hstart, hdrive⟩
    · obtain rfl : top = [] := List.length_eq_zero_iff.mp (by omega)
      rw [hlast, List.reverse_append, List.reverse_singleton, List.singleton_append, List.nil_append] at hfold
      obtain ⟨rfl, -⟩ := List.cons.inj hfold
      exact hstop
  · rintro ⟨-, hspelled⟩
    obtain ⟨before, behind, heq, hbehind, -, hbefore⟩ := left_name true hstays rest.reverse []
      (show _ = _ ++ [first] by rw [hleft, hfirst, List.reverse_cons])
    obtain ⟨hstart, hdrive⟩ := (hspelled before first behind heq (hn.isName first (by simp [hfirst])) hbehind).1 hbefore
    obtain ⟨before', behind', heq', hbehind', hzero, -⟩ := left_name true hstays [] front.reverse
      (show _ = [] ++ last :: front.reverse by rw [hleft, hlast, List.reverse_append]; rfl)
    exact ⟨⟨hstart, (hspelled before' last behind' heq' (hn.isName last (by simp [hlast])) hbehind').2 hzero⟩, hdrive⟩

theorem one_spelling_iff_nested : OneSpelling ⟨512⟩ "notes/a.txt".toList ↔ Spelled " ./notes/b/../a.txt ".toList :=
  one_spelling_iff (by decide)

/-- The check for a slash at the end looks at what stands before the blank, and the others look at the
path before a dot in front of it goes. -/
theorem file_path_with_slash :
    (normalizeWorkspaceFilePath "notes/ ".toList ⟨512⟩ = .ok "notes/".toList ∧ ¬ OneSpelling ⟨512⟩ "notes/".toList) ∧
      normalizeWorkspaceFilePath "./c:/a.txt".toList ⟨512⟩ = .ok "c:/a.txt".toList ∧
      normalizeWorkspaceFilePath "c:/a.txt".toList ⟨512⟩ =
        .error ⟨"Workspace path must be relative", some (.path "c:/a.txt".toList)⟩ := by
  decide

end Catalyst.WorkspacePaths
