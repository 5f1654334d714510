import Catalyst.Library.IpText
import Catalyst.Library.Lines
import Mathlib

/-!
# POSIX paths

A path is cut at its slashes. An empty segment and `.` name nothing, `..` takes back the segment
before it, and every other segment is a name. What is left, joined by single slashes, is the
normal form of the path; a slash at its end stays.
-/

namespace Catalyst.Library.PosixPath

abbrev Segment := List Char

def parent : Segment := ['.', '.']

def IsName (s : Segment) : Prop := s ≠ [] ∧ s ≠ ['.'] ∧ s ≠ parent
  deriving Decidable

/-- One more segment behind those that are left, the last of them first. -/
def push (allowAboveRoot : Bool) (left : List Segment) (s : Segment) : List Segment :=
  if s = [] ∨ s = ['.'] then left
  else if s = parent then
    match left with
    | [] => if allowAboveRoot then [parent] else []
    | top :: rest => if top ≠ parent then rest else if allowAboveRoot then parent :: left else left
  else s :: left

def resolve (allowAboveRoot : Bool) (segments : List Segment) : List Segment :=
  (segments.foldl (push allowAboveRoot) []).reverse

/-- `posix.normalize` -/
def normalize (path : List Char) : List Char :=
  if path = [] then ['.']
  else
    let isAbsolute := path.head? = some '/'
    let trailingSeparator := path.getLast? = some '/'
    let resolved := joinWith '/' (resolve (!isAbsolute) (path.splitOn '/'))
    if resolved = [] then if isAbsolute then ['/'] else if trailingSeparator then ['.', '/'] else ['.']
    else (if isAbsolute then ['/'] else []) ++ resolved ++ if trailingSeparator then ['/'] else []

def rise (s : Segment) : Int := if IsName s then 1 else if s = parent then -1 else 0

def depth (segments : List Segment) : Int := (segments.map rise).sum

def Stays (segments : List Segment) : Prop := ∀ front, front <+: segments → 0 ≤ depth front

variable {s : Segment} {segments behind left : List Segment} {above : Bool}

@[simp] theorem depth_nil : depth [] = 0 := rfl

theorem depth_concat (segments : List Segment) (s : Segment) : depth (segments ++ [s]) = depth segments + rise s := by
  simp [depth]

theorem stays_nil : Stays [] := fun front h => by simp [List.prefix_nil.mp h]

theorem Stays.concat (h : Stays segments) (hs : 0 ≤ depth (segments ++ [s])) : Stays (segments ++ [s]) := by
  intro front hfront
  rcases List.prefix_concat_iff.mp hfront with rfl | hfront
  · exact hs
  · exact h front hfront

theorem Stays.of_concat (h : Stays (segments ++ [s])) : Stays segments ∧ 0 ≤ depth segments + rise s :=
  ⟨fun front hfront => h front (hfront.trans (List.prefix_append _ _)), depth_concat segments s ▸ h _ List.prefix_rfl⟩

theorem push_name (h : IsName s) : push above left s = s :: left := by
  unfold push
  rw [if_neg (not_or.mpr ⟨h.1, h.2.1⟩), if_neg h.2.2]

theorem push_nothing (h : s = [] ∨ s = ['.']) : push above left s = left := if_pos h

theorem push_parent (htop : IsName s) : push above (s :: left) parent = left := by
  unfold push
  rw [if_neg (by decide), if_pos rfl]
  exact if_pos htop.2.2

theorem rise_name (h : IsName s) : rise s = 1 := if_pos h

theorem rise_nothing (h : s = [] ∨ s = ['.']) : rise s = 0 := by
  rcases h with rfl | rfl <;> rfl

theorem rise_parent : rise parent = -1 := rfl

/-- A segment is a name, names nothing, or is `..`. -/
theorem segment_cases (s : Segment) : IsName s ∨ (s = [] ∨ s = ['.']) ∨ s = parent := by
  by_cases h : IsName s
  · exact .inl h
  · by_cases h' : s = [] ∨ s = ['.']
    · exact .inr (.inl h')
    · exact .inr (.inr (by_contra fun hp => h ⟨fun he => h' (.inl he), fun he => h' (.inr he), hp⟩))

theorem resolve_concat (above : Bool) (segments : List Segment) (s : Segment) :
    (segments ++ [s]).foldl (push above) left = push above (segments.foldl (push above) left) s := by
  rw [List.foldl_append]
  rfl

theorem foldl_push (above : Bool) (h : Stays segments) (left : List Segment) :
    ∃ top, segments.foldl (push above) left = top ++ left ∧ (top.length : Int) = depth segments ∧ (∀ s ∈ top, IsName s) ∧
      top.reverse.Sublist segments := by
  induction segments using List.reverseRecOn with
  | nil => exact ⟨[], rfl, rfl, List.forall_mem_nil _, .slnil⟩
  | append_singleton segments s ih =>
    obtain ⟨hstays, hdepth⟩ := h.of_concat
    obtain ⟨top, hfold, hlength, hnames, hsub⟩ := ih hstays
    rw [resolve_concat, hfold, depth_concat]
    rcases segment_cases s with hs | hs | rfl
    · refine ⟨s :: top, push_name hs, ?_, List.forall_mem_cons.mpr ⟨hs, hnames⟩, ?_⟩
      · rw [rise_name hs, ← hlength]
        push_cast [List.length_cons]
        rfl
      · rw [List.reverse_cons]
        exact hsub.append_right [s]
    · refine ⟨top, push_nothing hs, ?_, hnames, hsub.trans (List.sublist_append_left _ _)⟩
      rw [rise_nothing hs, hlength, add_zero]
    · cases top with
      | nil =>
        rw [rise_parent, ← hlength] at hdepth
        exact absurd hdepth (by decide)
      | cons name top =>
        obtain ⟨hname, hnames⟩ := List.forall_mem_cons.mp hnames
        refine ⟨top, push_parent hname, ?_, hnames, ?_⟩
        · rw [rise_parent, ← hlength]
          push_cast [List.length_cons]
          omega
        · rw [List.reverse_cons] at hsub
          exact (List.sublist_append_left _ _).trans (hsub.trans (List.sublist_append_left _ _))

theorem name_left (above : Bool) (front : List Segment) (hs : IsName s) (h : Stays behind) (left : List Segment) :
    ∃ top, (front ++ s :: behind).foldl (push above) left = top ++ s :: front.foldl (push above) left ∧
      (top.length : Int) = depth behind := by
  obtain ⟨top, hfold, hlength, _⟩ := foldl_push above h (s :: front.foldl (push above) left)
  refine ⟨top, ?_, hlength⟩
  rw [List.foldl_append, List.foldl_cons, push_name hs, hfold]

/-- Every name that is left stands among the segments, and nothing behind it takes it back. -/
theorem left_name (above : Bool) (h : Stays segments) (top rest : List Segment)
    (hleft : segments.foldl (push above) [] = top ++ s :: rest) :
    ∃ front behind, segments = front ++ s :: behind ∧ Stays behind ∧ depth behind = top.length ∧
      depth front = rest.length := by
  induction segments using List.reverseRecOn generalizing top with
  | nil => simp at hleft
  | append_singleton segments x ih =>
    obtain ⟨hstays, hdepth⟩ := h.of_concat
    obtain ⟨before, hfold, hlength, hnames, _⟩ := foldl_push above hstays []
    rw [List.append_nil] at hfold
    rw [resolve_concat, hfold] at hleft
    rcases segment_cases x with hx | hx | rfl
    · rw [push_name hx] at hleft
      cases top with
      | nil =>
        obtain ⟨rfl, rfl⟩ := List.cons.inj hleft
        exact ⟨segments, [], rfl, stays_nil, rfl, hlength.symm⟩
      | cons y top =>
        obtain ⟨rfl, hbefore⟩ := List.cons.inj hleft
        obtain ⟨front, behind, rfl, hbehind, htop, hrest⟩ := ih hstays top (hfold.trans hbefore)
        refine ⟨front, behind ++ [x], by simp, hbehind.concat ?_, ?_, hrest⟩
        · rw [depth_concat, htop, rise_name hx]
          positivity
        · rw [depth_concat, htop, rise_name hx]
          push_cast [List.length_cons]
          rfl
    · rw [push_nothing hx] at hleft
      obtain ⟨front, behind, rfl, hbehind, htop, hrest⟩ := ih hstays top (hfold.trans hleft)
      have hsame : depth (behind ++ [x]) = top.length := by rw [depth_concat, htop, rise_nothing hx, add_zero]
      exact ⟨front, behind ++ [x], by simp, hbehind.concat (hsame ▸ Int.natCast_nonneg _), hsame, hrest⟩
    · cases before with
      | nil =>
        rw [rise_parent, ← hlength] at hdepth
        exact absurd hdepth (by decide)
      | cons name before =>
        rw [push_parent (List.forall_mem_cons.mp hnames).1] at hleft
        obtain ⟨front, behind, rfl, hbehind, htop, hrest⟩ := ih hstays (name :: top)
          (by rw [hfold, hleft, List.cons_append])
        have hsame : depth (behind ++ [parent]) = top.length := by
          rw [depth_concat, htop, rise_parent]
          push_cast [List.length_cons]
          omega
        exact ⟨front, behind ++ [parent], by simp, hbehind.concat (hsame ▸ Int.natCast_nonneg _), hsame, hrest⟩

/-- Segments that lead above where they start leave `..` in front. -/
theorem escapes (h : ¬ Stays segments) : ∃ rest, resolve true segments = parent :: rest := by
  suffices hlast : ∃ top, segments.foldl (push true) [] = top ++ [parent] by
    obtain ⟨top, htop⟩ := hlast
    exact ⟨top.reverse, by simp [resolve, htop]⟩
  induction segments using List.reverseRecOn with
  | nil => exact absurd stays_nil h
  | append_singleton segments s ih =>
    rw [resolve_concat]
    by_cases hstays : Stays segments
    · obtain ⟨top, hfold, hlength, -⟩ := foldl_push true hstays []
      have hdepth : ¬ 0 ≤ depth segments + rise s := fun hs => h (hstays.concat (depth_concat segments s ▸ hs))
      rw [← hlength] at hdepth
      rcases segment_cases s with hs | hs | rfl
      · rw [rise_name hs] at hdepth
        omega
      · rw [rise_nothing hs] at hdepth
        omega
      · rw [rise_parent] at hdepth
        obtain rfl : top = [] := List.length_eq_zero_iff.mp (by omega)
        exact ⟨[], by rw [hfold]; rfl⟩
    · obtain ⟨top, htop⟩ := ih hstays
      rw [htop]
      rcases segment_cases s with hs | hs | rfl
      · exact ⟨s :: top, push_name hs⟩
      · exact ⟨top, push_nothing hs⟩
      · cases top with
        | nil => exact ⟨[parent], rfl⟩
        | cons last top =>
          by_cases hlast : last = parent
          · exact ⟨parent :: last :: top, by rw [hlast]; rfl⟩
          · refine ⟨top, ?_⟩
            unfold push
            rw [if_neg (by decide), if_pos rfl]
            exact if_pos hlast

structure Names (names : List Segment) : Prop where
  isName : ∀ s ∈ names, IsName s
  unbroken : ∀ s ∈ names, '/' ∉ s
  ne_nil : names ≠ []

variable {names : List Segment} {path : List Char}

theorem joinWith_sublist {sep : Char} {ts us : List (List Char)} (h : ts.Sublist us) :
    (joinWith sep ts).Sublist (joinWith sep us) := by
  induction h with
  | slnil => exact List.nil_sublist _
  | @cons ts us u h ih =>
    by_cases hus : us = []
    · subst hus
      rw [List.sublist_nil.mp h]
      exact List.nil_sublist _
    · rw [joinWith_cons hus]
      exact ih.trans ((List.sublist_cons_self _ _).trans (List.sublist_append_right _ _))
  | @cons_cons ts us u h ih =>
    by_cases hts : ts = []
    · subst hts
      rw [joinWith_singleton]
      by_cases hus : us = []
      · rw [hus, joinWith_singleton]
      · rw [joinWith_cons hus]
        exact List.sublist_append_left _ _
    · have hus : us ≠ [] := fun he => hts (List.sublist_nil.mp (he ▸ h))
      rw [joinWith_cons hts, joinWith_cons hus]
      exact (ih.cons_cons sep).append_left u

theorem foldl_push_names (h : ∀ s ∈ names, IsName s) (left : List Segment) :
    names.foldl (push above) left = names.reverse ++ left := by
  induction names generalizing left with
  | nil => rfl
  | cons s names ih =>
    obtain ⟨hs, hnames⟩ := List.forall_mem_cons.mp h
    rw [List.foldl_cons, push_name hs, ih hnames, List.reverse_cons, List.append_assoc, List.singleton_append]

theorem resolve_names (h : ∀ s ∈ names, IsName s) : resolve above names = names := by
  rw [resolve, foldl_push_names h, List.append_nil, List.reverse_reverse]

theorem Names.split (h : Names names) : (joinWith '/' names).splitOn '/' = names := splitOn_joinWith h.unbroken h.ne_nil

theorem Names.head (h : Names names) : ∃ s rest, names = s :: rest ∧ (joinWith '/' names).head? = s.head? ∧
    s <+: joinWith '/' names := by
  obtain ⟨s, rest, rfl⟩ := List.exists_cons_of_ne_nil h.ne_nil
  refine ⟨s, rest, rfl, ?_, ?_⟩
  · by_cases hrest : rest = []
    · rw [hrest, joinWith_singleton]
    · rw [joinWith_cons hrest, List.head?_append_of_ne_nil _ (h.isName s List.mem_cons_self).1]
  · by_cases hrest : rest = []
    · rw [hrest, joinWith_singleton]
    · rw [joinWith_cons hrest]
      exact List.prefix_append _ _

theorem Names.last (h : Names names) : ∃ s front, names = front ++ [s] ∧ (joinWith '/' names).getLast? = s.getLast? := by
  obtain ⟨front, s, rfl⟩ := (List.eq_nil_or_concat' names).resolve_left h.ne_nil
  refine ⟨s, front, rfl, ?_⟩
  by_cases hfront : front = []
  · rw [hfront, List.nil_append, joinWith_singleton]
  · rw [joinWith_append hfront (List.cons_ne_nil s []), joinWith_singleton, List.getLast?_append_cons]
    obtain ⟨c, s', hs⟩ := List.exists_cons_of_ne_nil (h.isName s (by simp)).1
    rw [hs, List.getLast?_cons_cons]

theorem Names.path_ne_nil (h : Names names) : joinWith '/' names ≠ [] := by
  obtain ⟨s, rest, rfl, -, hprefix⟩ := h.head
  intro he
  rw [he, List.prefix_nil] at hprefix
  exact (h.isName s List.mem_cons_self).1 hprefix

theorem Names.head_ne (h : Names names) : (joinWith '/' names).head? ≠ some '/' := by
  obtain ⟨s, rest, rfl, hhead, -⟩ := h.head
  rw [hhead]
  exact fun he => h.unbroken s List.mem_cons_self (List.mem_of_mem_head? he)

theorem Names.last_ne (h : Names names) : (joinWith '/' names).getLast? ≠ some '/' := by
  obtain ⟨s, front, rfl, hlast⟩ := h.last
  rw [hlast]
  exact fun he => h.unbroken s (by simp) (List.mem_of_mem_getLast? he)

theorem normalize_relative (hne : path ≠ []) (hhead : path.head? ≠ some '/')
    (hnames : resolve true (path.splitOn '/') = names) :
    normalize path = (if joinWith '/' names = [] then ['.'] else joinWith '/' names) ++
      if path.getLast? = some '/' then ['/'] else [] := by
  rw [normalize, if_neg hne]
  simp only [hhead, decide_false, Bool.not_false, hnames, if_false, List.nil_append]
  split_ifs <;> rfl

theorem Names.normalize (h : Names names) : normalize (joinWith '/' names) = joinWith '/' names := by
  rw [normalize_relative h.path_ne_nil h.head_ne (by rw [h.split, resolve_names h.isName]), if_neg h.path_ne_nil,
    if_neg h.last_ne, List.append_nil]

end Catalyst.Library.PosixPath
