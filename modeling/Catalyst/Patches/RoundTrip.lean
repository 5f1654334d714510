import Catalyst.Patches.Parse
import Mathlib

/-!
# Patches that are written and read back

A patch is written as a unified diff: two headers for each file, then its hunks. It is read back as
it was unless a line that it takes away looks like a header once its marker stands before it.
-/

namespace Catalyst.Patches

open Library Library.Lines Library.Check WorkspacePaths

-- -----------------
-- Writing a patch
-- -----------------

def WorkspacePatchLine.render : WorkspacePatchLine → Line
  | .context text => ' ' :: text
  | .delete text => '-' :: text
  | .add text => '+' :: text

def renderRange (start count : Nat) : Line :=
  Nat.toDigits 10 start ++ if count = 1 then [] else ',' :: Nat.toDigits 10 count

def renderHeader (hunk : WorkspacePatchHunk) : Line :=
  "@@ -".toList ++ (renderRange hunk.oldStart hunk.oldCount ++ (" +".toList ++
    (renderRange hunk.newStart hunk.newCount ++ " @@".toList)))

def renderHunk (hunk : WorkspacePatchHunk) : List Line := renderHeader hunk :: hunk.lines.map (·.render)

def renderOldPath (change : WorkspacePatchChange) : Text :=
  if change.operation = .create then devNull else "a/".toList ++ change.path.toList

def renderNewPath (change : WorkspacePatchChange) : Text :=
  if change.operation = .delete then devNull else "b/".toList ++ change.path.toList

def renderChange (change : WorkspacePatchChange) : List Line :=
  ("--- ".toList ++ renderOldPath change) :: ("+++ ".toList ++ renderNewPath change) :: change.hunks.flatMap renderHunk

def renderPatch (changes : List WorkspacePatchChange) : List Char := unlines (changes.flatMap renderChange)

def WorkspacePatchLine.looksLikeHeader : WorkspacePatchLine → Bool
  | .delete text => startsWith text "-- "
  | _ => false

/-- A path that stands in a header as it is: whole, without breaks and in its normal form. -/
structure HeaderPath (limits : WorkspaceCommandServiceLimits) (path : Text) : Prop where
  unbroken : Unbroken path
  no_tab : '\t' ∉ path
  no_blank_end : ∀ c ∈ path.getLast?, Js.isWhitespace c = false
  normal : normalizeWorkspaceFilePath path limits.toWorkspacePathLimits = .ok path

structure Admitted (limits : WorkspaceCommandServiceLimits) (changes : List WorkspacePatchChange) : Prop where
  ne_nil : changes ≠ []
  size : jsLength (renderPatch changes) ≤ limits.maxApplyPatchBytes
  no_nul : '\x00' ∉ renderPatch changes
  distinct : (changes.map (·.path)).Nodup
  path : ∀ change ∈ changes, HeaderPath limits change.path.toList
  hunks : ∀ change ∈ changes, change.hunks ≠ []

def Clean (hunk : WorkspacePatchHunk) : Prop := ∀ line ∈ hunk.lines, line.looksLikeHeader = false

theorem unbroken_cons (hc : c ≠ '\n' ∧ c ≠ '\r') (h : Unbroken text) : Unbroken (c :: text) :=
  ⟨by simp [h.1, hc.1.symm], by simp [h.2, hc.2.symm]⟩

def marked (line : HunkLine) : UnbrokenLine :=
  ⟨line.1.render, by
    obtain ⟨line, h⟩ := line
    cases line <;> exact unbroken_cons (by decide) h⟩

theorem hunkLine?_marked (line : HunkLine) : hunkLine? (marked line) = some line := by
  obtain ⟨line, h⟩ := line
  cases line <;> rfl

theorem endsHunk_marked (line : HunkLine) : endsHunk (marked line).1 = line.1.looksLikeHeader := by
  obtain ⟨line, h⟩ := line
  cases line <;> simp [marked, WorkspacePatchLine.render, endsHunk, startsFile, startsWith,
    WorkspacePatchLine.looksLikeHeader, List.isPrefixOf]

theorem marked_ne (line : HunkLine) : (marked line).1 ≠ "\\ No newline at end of file".toList := by
  obtain ⟨line, h⟩ := line
  cases line <;> exact fun h => by cases h

def Ended (rest : List UnbrokenLine) : Prop := ∀ line ∈ rest.head?, endsHunk line

theorem parseHunkLines_marked (path : Text) (index : Nat) (body : List HunkLine) (h : Ended rest) :
    parseHunkLines path index (body.map marked ++ rest) = .ok (body.takeWhile (!·.1.looksLikeHeader)) := by
  induction body generalizing index with
  | nil =>
    cases rest with
    | nil => rfl
    | cons line rest =>
      rw [List.map_nil, List.nil_append, parseHunkLines, if_pos (h line rfl), List.takeWhile_nil]
  | cons line body ih =>
    rw [List.map_cons, List.cons_append, parseHunkLines, endsHunk_marked]
    by_cases hlooks : line.1.looksLikeHeader = true
    · rw [if_pos hlooks, List.takeWhile_cons_of_neg (by simp [hlooks])]
    · rw [if_neg hlooks, if_neg (marked_ne line), hunkLine?_marked, ih, List.takeWhile_cons_of_pos (by simp [hlooks])]
      rfl

theorem behindHunk_marked {body : List HunkLine} (hclean : ∀ line ∈ body, line.1.looksLikeHeader = false) (h : Ended rest) :
    behindHunk (body.map marked ++ rest) = rest := by
  induction body with
  | nil =>
    cases rest with
    | nil => rfl
    | cons line rest => simp [behindHunk, h line rfl]
  | cons line body ih =>
    obtain ⟨hline, hbody⟩ := List.forall_mem_cons.mp hclean
    have hrest := ih hbody
    simpa [behindHunk, endsHunk_marked, hline] using hrest

def NoDigit (s : Line) : Prop := ∀ c ∈ s.head?, c.isDigit = false

theorem digits?_toDigits (n : Nat) (h : NoDigit s) : digits? (Nat.toDigits 10 n ++ s) = some (n, s) := by
  have hdigits : ∀ c ∈ Nat.toDigits 10 n, c.isDigit = true := by
    intro c hc
    exact Nat.isDigit_of_mem_toDigits (by decide) (by decide) hc
  have htake : s.takeWhile Char.isDigit = [] ∧ s.dropWhile Char.isDigit = s := by
    cases s with
    | nil => exact ⟨rfl, rfl⟩
    | cons c s =>
      have hc : c.isDigit = false := h c rfl
      exact ⟨List.takeWhile_cons_of_neg (by simp [hc]), List.dropWhile_cons_of_neg (by simp [hc])⟩
  unfold digits?
  simp only [List.takeWhile_append_of_pos hdigits, List.dropWhile_append_of_pos hdigits, htake, List.append_nil]
  rw [if_neg (by simp), Nat.ofDigitChars_toDigits (by decide) (by decide)]

theorem count?_renderRange (count : Nat) (h : NoDigit s) (hcomma : s.head? ≠ some ',') :
    count? ((if count = 1 then [] else ',' :: Nat.toDigits 10 count) ++ s) = some (count, s) := by
  by_cases hone : count = 1
  · subst hone
    cases s with
    | nil => rfl
    | cons c s =>
      have hc : c ≠ ',' := fun hc => hcomma (congrArg some hc)
      simp [count?, hc]
  · rw [if_neg hone, List.cons_append, count?, digits?_toDigits count h]

theorem noDigit_range (count : Nat) (h : NoDigit s) :
    NoDigit ((if count = 1 then [] else ',' :: Nat.toDigits 10 count) ++ s) := by
  by_cases hone : count = 1
  · simpa [hone] using h
  · simp [hone, NoDigit]

theorem expect_append (word : String) (s : Line) : expect word (word.toList ++ s) = some s := by
  have hword : startsWith (word.toList ++ s) word = true := by simp [startsWith]
  rw [expect, if_pos hword, ← String.length_toList, List.drop_left]

theorem hunkHeader?_renderHeader (hunk : WorkspacePatchHunk) :
    hunkHeader? (renderHeader hunk) = some ⟨hunk.oldStart, hunk.oldCount, hunk.newStart, hunk.newCount⟩ := by
  have hnew : NoDigit " @@".toList := by simp [NoDigit]
  have hold (s : Line) : NoDigit (" +".toList ++ s) := by simp [NoDigit]
  unfold hunkHeader? renderHeader renderRange
  simp only [List.append_assoc]
  rw [expect_append, Option.bind_eq_bind, Option.bind_some, digits?_toDigits _ (noDigit_range _ (hold _))]
  simp only [Option.bind_eq_bind, Option.bind_some]
  rw [count?_renderRange _ (hold _) (by simp), Option.bind_some, expect_append, Option.bind_some,
    digits?_toDigits _ (noDigit_range _ hnew), Option.bind_some, count?_renderRange _ hnew (by simp), Option.bind_some]
  rfl

theorem not_mem_toDigits (hc : c.isDigit = false) (n : Nat) : c ∉ Nat.toDigits 10 n := by
  intro hmem
  exact absurd (Nat.isDigit_of_mem_toDigits (by decide) (by decide) hmem) (by simp [hc])

theorem unbroken_renderHeader (hunk : WorkspacePatchHunk) : Unbroken (renderHeader hunk) := by
  have hrange (start count : Nat) {c : Char} (hc : c.isDigit = false) (hcomma : c ≠ ',') :
      c ∉ renderRange start count := by
    unfold renderRange
    split_ifs <;> simp [not_mem_toDigits hc, hcomma]
  unfold Unbroken renderHeader
  simp only [List.mem_append, not_or]
  exact ⟨⟨by decide, hrange _ _ rfl (by decide), by decide, hrange _ _ rfl (by decide), by decide⟩,
    ⟨by decide, hrange _ _ rfl (by decide), by decide, hrange _ _ rfl (by decide), by decide⟩⟩

def body (hunk : WorkspacePatchHunk) : List HunkLine := hunk.lines.attachWith _ hunk.unbroken

@[simp] theorem body_val (hunk : WorkspacePatchHunk) : (body hunk).map (·.1) = hunk.lines := by
  simp [body]

def headerLine (hunk : WorkspacePatchHunk) : UnbrokenLine := ⟨renderHeader hunk, unbroken_renderHeader hunk⟩

def hunkLines (hunk : WorkspacePatchHunk) : List UnbrokenLine := headerLine hunk :: (body hunk).map marked

theorem clean_body : Clean hunk ↔ ∀ line ∈ body hunk, line.1.looksLikeHeader = false := by
  rw [Clean, ← body_val hunk, List.forall_mem_map]

theorem takeWhile_body (h : Clean hunk) : (body hunk).takeWhile (!·.1.looksLikeHeader) = body hunk := by
  rw [List.takeWhile_eq_self_iff]
  intro line hline
  simp [clean_body.mp h line hline]

theorem old?_of_looksLikeHeader {line : WorkspacePatchLine} (h : line.looksLikeHeader = true) : line.old?.isSome := by
  cases line with
  | delete text => rfl
  | _ => cases h

/-- Without the lines from the first that looks like a header on, the old lines are too few. -/
theorem old_count_lt {lines : List HunkLine} (h : ∃ line ∈ lines, line.1.looksLikeHeader = true) :
    (((lines.takeWhile (!·.1.looksLikeHeader)).map (·.1)).filterMap (·.old?)).length <
      ((lines.map (·.1)).filterMap (·.old?)).length := by
  induction lines with
  | nil => simp at h
  | cons line lines ih =>
    by_cases hline : line.1.looksLikeHeader = true
    · obtain ⟨text, htext⟩ := Option.isSome_iff_exists.mp (old?_of_looksLikeHeader hline)
      rw [List.takeWhile_cons_of_neg (by simp [hline])]
      simp [htext]
    · have hlines : ∃ line ∈ lines, line.1.looksLikeHeader = true := by
        obtain ⟨other, hmem, hother⟩ := h
        obtain rfl | hmem := List.mem_cons.mp hmem
        · exact absurd hother hline
        · exact ⟨other, hmem, hother⟩
      have hrest := ih hlines
      rw [List.takeWhile_cons_of_pos (by simp [hline])]
      cases hold : line.1.old? with
      | none => simpa [hold] using hrest
      | some text => simpa [hold] using hrest

/-- A hunk is read back when none of its lines looks like a header, and refused otherwise. -/
theorem parseHunk_hunkLines (path : Text) (index : Nat) (hunk read : WorkspacePatchHunk) (h : Ended rest) :
    parseHunk path index (headerLine hunk) ((body hunk).map marked ++ rest) = .ok read ↔ Clean hunk ∧ read = hunk := by
  simp only [parseHunk, bind_ok, need_ok, parseHunkLines_marked path _ _ h, Except.ok.injEq]
  rw [headerLine, hunkHeader?_renderHeader]
  constructor
  · rintro ⟨numbers, hnumbers, lines, rfl, hread⟩
    obtain rfl := Option.some.inj hnumbers
    split at hread
    · next hcounts =>
      have hclean : Clean hunk := by
        rw [clean_body]
        by_contra hlooks
        push Not at hlooks
        have hlooks : ∃ line ∈ body hunk, line.1.looksLikeHeader = true := by simpa using hlooks
        have hlt := old_count_lt hlooks
        rw [body_val, hunk.oldCounted] at hlt
        exact absurd hcounts.1 hlt.ne
      refine ⟨hclean, ?_⟩
      obtain rfl := pure_ok.mp hread
      cases hunk
      simp only [takeWhile_body hclean, body_val]
    · cases hread
  · rintro ⟨hclean, rfl⟩
    refine ⟨_, rfl, _, rfl, ?_⟩
    have hcounts := And.intro read.oldCounted read.newCounted
    simp only [takeWhile_body hclean, body_val]
    rw [dif_pos hcounts]
    rfl

def FileEnded (rest : List UnbrokenLine) : Prop := ∀ line ∈ rest.head?, startsFile line

theorem isBlank_cons (hc : Js.isWhitespace c = false) (text : Line) : isBlank (c :: text) = false := by
  have htrim : Js.trim (c :: text) ≠ [] := by
    rw [Js.trim, List.dropWhile_cons_of_neg (by simp [hc]), Ne, List.reverse_eq_nil_iff, List.dropWhile_eq_nil_iff]
    intro h
    exact absurd (h c (by simp)) (by simp [hc])
  simp [isBlank, htrim]

theorem ended_hunks (hunks : List WorkspacePatchHunk) (h : FileEnded rest) : Ended (hunks.flatMap hunkLines ++ rest) := by
  cases hunks with
  | nil =>
    intro line hline
    have hstarts : startsFile line = true := h line hline
    simp [endsHunk, hstarts]
  | cons hunk hunks =>
    intro line hline
    obtain rfl : headerLine hunk = line := Option.some.inj hline
    rfl

theorem parseHunks_cons (path : Text) (index : Nat) (hunk : WorkspacePatchHunk) (lines : List UnbrokenLine) :
    parseHunks path index (headerLine hunk :: lines) = (do
      let hunk ← parseHunk path index (headerLine hunk) lines
      let hunks ← parseHunks path (index + 1 + (lines.length - (behindHunk lines).length)) (behindHunk lines)
      return hunk :: hunks) := by
  rw [parseHunks]
  have hblank : isBlank (headerLine hunk).1 = false := isBlank_cons rfl _
  have hmeta : isGitMetadataLine (headerLine hunk).1 = false := rfl
  have hfile : startsFile (headerLine hunk).1 = false := rfl
  have hbinary : isBinary (headerLine hunk).1 = false := rfl
  have hstart : startsWith (headerLine hunk).1 "@@ " = true := rfl
  simp only [hblank, hmeta, hfile, hbinary, hstart, Bool.or_self, Bool.not_true, Bool.false_eq_true, if_false]

/-- The hunks of a file are read back when none of their lines looks like a header, and refused otherwise. -/
theorem parseHunks_hunkLines (path : Text) (index : Nat) (hunks read : List WorkspacePatchHunk) (h : FileEnded rest) :
    parseHunks path index (hunks.flatMap hunkLines ++ rest) = .ok read ↔ (∀ hunk ∈ hunks, Clean hunk) ∧ read = hunks := by
  induction hunks generalizing index read with
  | nil =>
    have hnil : parseHunks path index rest = .ok [] := by
      cases rest with
      | nil => rw [parseHunks]
      | cons line rest => rw [parseHunks, if_pos (h line rfl)]
    simp [hnil, eq_comm]
  | cons hunk hunks ih =>
    have hended := ended_hunks hunks h
    rw [List.flatMap_cons, hunkLines, List.cons_append, List.cons_append, List.append_assoc, parseHunks_cons]
    simp only [bind_ok, pure_ok, parseHunk_hunkLines path _ hunk _ hended]
    constructor
    · rintro ⟨hunk', ⟨hclean, rfl⟩, hunks', hread, rfl⟩
      rw [behindHunk_marked (clean_body.mp hclean) hended, ih] at hread
      exact ⟨List.forall_mem_cons.mpr ⟨hclean, hread.1⟩, by rw [hread.2]⟩
    · rintro ⟨hclean, rfl⟩
      obtain ⟨hhunk, hhunks⟩ := List.forall_mem_cons.mp hclean
      refine ⟨hunk, ⟨hhunk, rfl⟩, hunks, ?_, rfl⟩
      rw [behindHunk_marked (clean_body.mp hhunk) hended, ih]
      exact ⟨hhunks, rfl⟩

-- -----------------
-- The path of a header
-- -----------------

def trimEnd (t : Text) : Text := (t.reverse.dropWhile Js.isWhitespace).reverse

theorem trimEnd_sublist (t : Text) : (trimEnd t).Sublist t := by
  rw [← List.reverse_sublist, trimEnd, List.reverse_reverse]
  exact List.dropWhile_sublist _

theorem trimEnd_end (t : Text) : ∀ c ∈ (trimEnd t).getLast?, Js.isWhitespace c = false := by
  intro c hc
  rw [trimEnd, List.getLast?_reverse] at hc
  have hhead := List.head?_dropWhile_not Js.isWhitespace t.reverse
  rw [Option.mem_def.mp hc] at hhead
  simpa using hhead

theorem trimEnd_of_end (h : ∀ c ∈ t.getLast?, Js.isWhitespace c = false) : trimEnd t = t := by
  rw [trimEnd, dropWhile_eq_self (by simpa using h), List.reverse_reverse]

theorem trim_side (hc : Js.isWhitespace c = false) (t : Text) : Js.trim (c :: '/' :: t) = c :: '/' :: trimEnd t := by
  have hslash : Js.isWhitespace '/' = false := rfl
  rw [Js.trim, List.dropWhile_cons_of_neg (by simp [hc])]
  simp only [List.reverse_cons, List.append_assoc, List.cons_append, List.nil_append, List.dropWhile_append]
  split_ifs with hempty
  · have hnil : trimEnd t = [] := by
      rw [trimEnd, List.isEmpty_iff.mp hempty, List.reverse_nil]
    rw [hnil, List.dropWhile_cons_of_neg (by simp [hslash])]
    rfl
  · rw [List.reverse_append]
    rfl

theorem normalizePatchHeaderPath_side {limits : WorkspaceCommandServiceLimits} (hc : c = 'a' ∨ c = 'b') (p : Text) :
    normalizePatchHeaderPath (c :: '/' :: p) limits =
      (ofPathCheck (normalizeWorkspaceFilePath (trimEnd (p.takeWhile (· ≠ '\t'))) limits.toWorkspacePathLimits)).map some := by
  have hslash : c ≠ '/' := by rcases hc with rfl | rfl <;> decide
  have hwhite : Js.isWhitespace c = false := by rcases hc with rfl | rfl <;> rfl
  have htake : (c :: '/' :: p).takeWhile (· ≠ '\t') = c :: '/' :: p.takeWhile (· ≠ '\t') := by
    rcases hc with rfl | rfl <;> rfl
  have hrooted (q t : Text) (ht : t.head? = some '/') : ¬ t <+: c :: '/' :: q := by
    rintro ⟨rest, h⟩
    have hhead : t.head?.or rest.head? = some c := List.head?_append.symm.trans (congrArg List.head? h)
    rw [ht] at hhead
    exact hslash (Option.some.inj hhead).symm
  have hstrip (q : Text) : stripWorkspacePatchPrefix (c :: '/' :: q) = .ok q := by
    rw [stripWorkspacePatchPrefix, if_neg fun h => hrooted q root rfl ⟨[], by simp [h]⟩, if_neg (hrooted q rootSlash rfl),
      if_neg, if_pos]
    · rfl
    · rcases hc with rfl | rfl
      · exact .inl rfl
      · exact .inr rfl
    · rcases hc with rfl | rfl <;> simp
  have hdev (q : Text) : c :: '/' :: q ≠ devNull := fun h => hrooted q devNull rfl ⟨[], by simp [h]⟩
  rw [normalizePatchHeaderPath, htake, trim_side hwhite]
  simp only [if_neg (hdev _), hstrip]
  change (ofPathCheck _ >>= fun normalized => pure (some normalized)) = _
  generalize ofPathCheck _ = result
  cases result <;> rfl

theorem getLast?_suffix {s t : Text} (h : s <:+ t) (hne : s ≠ []) : t.getLast? = s.getLast? := by
  obtain ⟨front, rfl⟩ := h
  exact List.getLast?_append_of_ne_nil _ hne

theorem sublist_of_normalize {limits : WorkspacePathLimits} (hend : ∀ c ∈ value.getLast?, Js.isWhitespace c = false)
    (h : normalizeWorkspaceFilePath value limits = .ok p) : p.Sublist value := by
  obtain ⟨haccepted, hdot, hslash⟩ := normalizeWorkspaceFilePath_ok.mp h
  have htrim : Js.trim value <:+ value := by
    have hsuffix := List.dropWhile_suffix Js.isWhitespace (l := value)
    have hlast : ∀ c ∈ (value.dropWhile Js.isWhitespace).getLast?, Js.isWhitespace c = false := by
      intro c hc
      have hne : value.dropWhile Js.isWhitespace ≠ [] := by
        rintro hnil
        simp [hnil] at hc
      exact hend c (getLast?_suffix hsuffix hne ▸ hc)
    have heq : Js.trim value = value.dropWhile Js.isWhitespace := trimEnd_of_end hlast
    rwa [heq]
  have hroot : withoutRoot value <:+ value ∨ withoutRoot value = ['.'] := by
    simp only [withoutRoot]
    split_ifs
    · exact .inr rfl
    · exact .inl ((List.drop_suffix _ _).trans htrim)
    · exact .inl htrim
  rcases hroot with hsuffix | hroot
  · have hlast : (withoutRoot value).getLast? ≠ some '/' := by
      rwa [← getLast?_suffix hsuffix haccepted.ne_nil]
    obtain ⟨-, hp⟩ := haccepted.result hdot hlast
    rw [hp]
    exact haccepted.names_sublist.trans hsuffix.sublist
  · obtain ⟨hnames, hp⟩ := haccepted.result hdot (by rw [hroot]; decide)
    have hsub := haccepted.names_sublist
    rw [← hp, hroot] at hsub
    rcases List.sublist_singleton.mp hsub with hnil | hone
    · exact absurd (hp.symm.trans hnil) hnames.path_ne_nil
    · exact absurd hone hdot

/-- A header gives back the path it was written for when that stands in it as it is. -/
theorem normalizePatchHeaderPath_ok {limits : WorkspaceCommandServiceLimits} (hc : c = 'a' ∨ c = 'b') (hbreaks : Unbroken p) :
    normalizePatchHeaderPath (c :: '/' :: p) limits = .ok (some p) ↔ HeaderPath limits p := by
  have hread : normalizePatchHeaderPath (c :: '/' :: p) limits = .ok (some p) ↔
      normalizeWorkspaceFilePath (trimEnd (p.takeWhile (· ≠ '\t'))) limits.toWorkspacePathLimits = .ok p := by
    rw [normalizePatchHeaderPath_side hc]
    cases normalizeWorkspaceFilePath (trimEnd (p.takeWhile (· ≠ '\t'))) limits.toWorkspacePathLimits <;>
      simp [ofPathCheck, Except.mapError, Except.map]
  rw [hread]
  constructor
  · intro h
    have hsub := sublist_of_normalize (trimEnd_end _) h
    have htake : (p.takeWhile (· ≠ '\t')).Sublist p := List.takeWhile_sublist _
    have htrim : (trimEnd (p.takeWhile (· ≠ '\t'))).Sublist (p.takeWhile (· ≠ '\t')) := trimEnd_sublist _
    have hwhole : p.takeWhile (· ≠ '\t') = p := htake.antisymm (hsub.trans htrim)
    rw [hwhole] at h hsub htrim
    have hsame : trimEnd p = p := htrim.antisymm hsub
    have hend := trimEnd_end p
    rw [hsame] at h hend
    refine ⟨hbreaks, ?_, hend, h⟩
    intro htab
    have hno := List.mem_takeWhile_imp (hwhole.symm ▸ htab)
    simp at hno
  · rintro ⟨-, htab, hend, h⟩
    have hwhole : p.takeWhile (· ≠ '\t') = p := by
      rw [List.takeWhile_eq_self_iff]
      intro c hc
      have hne : c ≠ '\t' := by
        rintro rfl
        exact htab hc
      simp [hne]
    rwa [hwhole, trimEnd_of_end hend]

theorem normalizePatchHeaderPath_devNull (limits : WorkspaceCommandServiceLimits) :
    normalizePatchHeaderPath devNull limits = .ok none := by
  have hraw : Js.trim (devNull.takeWhile (· ≠ '\t')) = devNull := by decide
  rw [normalizePatchHeaderPath, hraw, if_pos rfl]

theorem headers_ok {limits : WorkspaceCommandServiceLimits} {change : WorkspacePatchChange}
    (hbreaks : Unbroken change.path.toList) :
    (∃ oldPath newPath, normalizePatchHeaderPath (renderOldPath change) limits = .ok oldPath ∧
      normalizePatchHeaderPath (renderNewPath change) limits = .ok newPath ∧
      resolvePatchOperation oldPath newPath = .ok (change.operation, change.path.toList)) ↔
    HeaderPath limits change.path.toList := by
  have hold : normalizePatchHeaderPath ("a/".toList ++ change.path.toList) limits = .ok (some change.path.toList) ↔
      HeaderPath limits change.path.toList :=
    normalizePatchHeaderPath_ok (.inl rfl) hbreaks
  have hnew : normalizePatchHeaderPath ("b/".toList ++ change.path.toList) limits = .ok (some change.path.toList) ↔
      HeaderPath limits change.path.toList :=
    normalizePatchHeaderPath_ok (.inr rfl) hbreaks
  unfold renderOldPath renderNewPath
  cases hop : change.operation with
  | create =>
    rw [← hnew, if_pos rfl, if_neg (by decide), normalizePatchHeaderPath_devNull]
    constructor
    · rintro ⟨_, newPath, heq, hpath, hresolve⟩
      obtain rfl := Except.ok.inj heq
      cases newPath with
      | none => cases hresolve
      | some path =>
        obtain ⟨-, rfl⟩ := Prod.mk.inj (Except.ok.inj hresolve)
        exact hpath
    · intro h
      exact ⟨none, _, rfl, h, rfl⟩
  | delete =>
    rw [← hold, if_neg (by decide), if_pos rfl, normalizePatchHeaderPath_devNull]
    constructor
    · rintro ⟨oldPath, _, hpath, heq, hresolve⟩
      obtain rfl := Except.ok.inj heq
      cases oldPath with
      | none => cases hresolve
      | some path =>
        obtain ⟨-, rfl⟩ := Prod.mk.inj (Except.ok.inj hresolve)
        exact hpath
    · intro h
      exact ⟨_, none, h, rfl, rfl⟩
  | update =>
    rw [if_neg (by decide), if_neg (by decide)]
    constructor
    · rintro ⟨oldPath, newPath, hpath, -, hresolve⟩
      cases oldPath with
      | none => cases newPath <;> cases hresolve
      | some oldPath =>
        cases newPath with
        | none => cases hresolve
        | some newPath =>
          rw [resolvePatchOperation] at hresolve
          split at hresolve
          · cases hresolve
          · obtain ⟨-, rfl⟩ := Prod.mk.inj (Except.ok.inj hresolve)
            exact hold.mp hpath
    · intro h
      refine ⟨_, _, hold.mpr h, hnew.mpr h, ?_⟩
      rw [resolvePatchOperation, if_neg (not_not_intro rfl)]

abbrev UnbrokenChange := { change : WorkspacePatchChange // Unbroken change.path.toList }

theorem unbroken_append {s t : Line} (hs : Unbroken s) (ht : Unbroken t) : Unbroken (s ++ t) := by
  simp only [Unbroken, List.mem_append, not_or]
  exact ⟨⟨hs.1, ht.1⟩, ⟨hs.2, ht.2⟩⟩

theorem unbroken_renderOldPath (change : UnbrokenChange) : Unbroken (renderOldPath change.1) := by
  unfold renderOldPath
  split_ifs
  · decide
  · exact unbroken_append (by decide) change.2

theorem unbroken_renderNewPath (change : UnbrokenChange) : Unbroken (renderNewPath change.1) := by
  unfold renderNewPath
  split_ifs
  · decide
  · exact unbroken_append (by decide) change.2

def oldLine (change : UnbrokenChange) : UnbrokenLine :=
  ⟨"--- ".toList ++ renderOldPath change.1, unbroken_append (by decide) (unbroken_renderOldPath change)⟩

def newLine (change : UnbrokenChange) : UnbrokenLine :=
  ⟨"+++ ".toList ++ renderNewPath change.1, unbroken_append (by decide) (unbroken_renderNewPath change)⟩

def changeLines (change : UnbrokenChange) : List UnbrokenLine :=
  oldLine change :: newLine change :: change.1.hunks.flatMap hunkLines

theorem startsFile_marked (line : HunkLine) (h : line.1.looksLikeHeader = false) : startsFile (marked line).1 = false := by
  rw [← endsHunk_marked, endsHunk, Bool.or_eq_false_iff] at h
  exact h.2

theorem startsFile_hunkLines (h : Clean hunk) : ∀ line ∈ hunkLines hunk, startsFile line.1 = false := by
  intro line hline
  obtain rfl | hline := List.mem_cons.mp hline
  · rfl
  · obtain ⟨hunkLine, hmem, rfl⟩ := List.mem_map.mp hline
    exact startsFile_marked hunkLine (clean_body.mp h hunkLine hmem)

theorem behindFile_hunkLines {hunks : List WorkspacePatchHunk} (hclean : ∀ hunk ∈ hunks, Clean hunk) (h : FileEnded rest) :
    behindFile (hunks.flatMap hunkLines ++ rest) = rest := by
  have hall : ∀ line ∈ hunks.flatMap hunkLines, (!startsFile line.1) = true := by
    intro line hline
    obtain ⟨hunk, hhunk, hline⟩ := List.mem_flatMap.mp hline
    simp [startsFile_hunkLines (hclean hunk hhunk) line hline]
  rw [behindFile, List.dropWhile_append_of_pos hall]
  cases rest with
  | nil => rfl
  | cons line rest =>
    have hline : startsFile line.1 = true := h line rfl
    exact List.dropWhile_cons_of_neg (by simp [hline])

theorem fileEnded_changes (changes : List UnbrokenChange) : FileEnded (changes.flatMap changeLines) := by
  cases changes with
  | nil => simp [FileEnded]
  | cons change changes =>
    intro line hline
    obtain rfl : oldLine change = line := Option.some.inj hline
    rfl

theorem parseFiles_cons {limits : WorkspaceCommandServiceLimits} {read : List WorkspacePatchChange}
    (change : UnbrokenChange) (lines : List UnbrokenLine) :
    parseFiles limits index (oldLine change :: newLine change :: lines) = .ok read ↔
      ∃ oldPath, normalizePatchHeaderPath (renderOldPath change.1) limits = .ok oldPath ∧
      ∃ newPath, normalizePatchHeaderPath (renderNewPath change.1) limits = .ok newPath ∧
      ∃ operation path, resolvePatchOperation oldPath newPath = .ok (operation, path) ∧
      ∃ hunks, parseHunks path (index + 2) lines = .ok hunks ∧ hunks ≠ [] ∧
      ∃ changes, parseFiles limits (index + 2 + (lines.length - (behindFile lines).length)) (behindFile lines) = .ok changes ∧
        ⟨operation, String.ofList path, hunks⟩ :: changes = read := by
  have hblank : isBlank (oldLine change).1 = false := isBlank_cons rfl _
  have hmeta : isGitMetadataLine (oldLine change).1 = false := rfl
  have hgit : startsWith (oldLine change).1 "diff --git " = false := rfl
  have hbinary : isBinary (oldLine change).1 = false := rfl
  have hold : startsWith (oldLine change).1 "--- " = true := rfl
  have hnew : startsWith (newLine change).1 "+++ " = true := rfl
  have holdPath : (oldLine change).1.drop 4 = renderOldPath change.1 := rfl
  have hnewPath : (newLine change).1.drop 4 = renderNewPath change.1 := rfl
  rw [parseFiles]
  simp only [hblank, hmeta, hgit, hbinary, hold, hnew, holdPath, hnewPath, Bool.or_self, Bool.not_true,
    Bool.false_eq_true, if_false, List.head?_cons, Option.map_some, Option.getD_some, List.tail_cons, bind_ok, pure_ok,
    require_ok, Prod.exists, exists_const, true_and]

def Reads (limits : WorkspaceCommandServiceLimits) (change : WorkspacePatchChange) : Prop :=
  HeaderPath limits change.path.toList ∧ change.hunks ≠ [] ∧ ∀ hunk ∈ change.hunks, Clean hunk

theorem parseFiles_changeLines (limits : WorkspaceCommandServiceLimits) (index : Nat) (changes : List UnbrokenChange) :
    parseFiles limits index (changes.flatMap changeLines) = .ok (changes.map (·.1)) ↔
      ∀ change ∈ changes, Reads limits change.1 := by
  induction changes generalizing index with
  | nil => simp [parseFiles]
  | cons change changes ih =>
    have hended := fileEnded_changes changes
    rw [List.flatMap_cons, changeLines, List.cons_append, List.cons_append, parseFiles_cons, List.map_cons,
      List.forall_mem_cons]
    constructor
    · rintro ⟨oldPath, hold, newPath, hnew, operation, path, hresolve, hunks, hhunks, hne, others, hothers, hread⟩
      obtain ⟨hclean, rfl⟩ := (parseHunks_hunkLines path _ _ _ hended).mp hhunks
      obtain ⟨hchange, rfl⟩ := List.cons.inj hread
      rw [behindFile_hunkLines hclean hended, ih] at hothers
      have hop : operation = change.1.operation := congrArg (·.operation) hchange
      have hpath : path = change.1.path.toList := by
        rw [← congrArg (·.path) hchange, String.toList_ofList]
      refine ⟨⟨(headers_ok change.2).mp ⟨oldPath, newPath, hold, hnew, ?_⟩, hne, hclean⟩, hothers⟩
      rw [hresolve, hop, hpath]
    · rintro ⟨⟨hpath, hne, hclean⟩, hothers⟩
      obtain ⟨oldPath, newPath, hold, hnew, hresolve⟩ := (headers_ok change.2).mpr hpath
      refine ⟨oldPath, hold, newPath, hnew, _, _, hresolve, change.1.hunks, ?_, hne, changes.map (·.1), ?_, ?_⟩
      · exact (parseHunks_hunkLines _ _ _ _ hended).mpr ⟨hclean, rfl⟩
      · rw [behindFile_hunkLines hclean hended, ih]
        exact hothers
      · rw [String.ofList_toList]

theorem map_changeLines (change : UnbrokenChange) : (changeLines change).map (·.1) = renderChange change.1 := by
  have hhunk (hunk : WorkspacePatchHunk) : (hunkLines hunk).map (·.1) = renderHunk hunk := by
    have hmarked : (body hunk).map (fun line => (marked line).1) = ((body hunk).map (·.1)).map (·.render) := by
      rw [List.map_map]
      rfl
    rw [hunkLines, List.map_cons, List.map_map, renderHunk, ← body_val hunk, ← hmarked]
    rfl
  rw [changeLines, List.map_cons, List.map_cons, List.map_flatMap, renderChange]
  simp only [hhunk]
  rfl

theorem intercalate_concat_nil {ls : List Line} (hne : ls ≠ []) :
    ['\n'].intercalate (ls ++ [[]]) = ['\n'].intercalate ls ++ ['\n'] := by
  induction ls with
  | nil => exact absurd rfl hne
  | cons line ls ih =>
    cases ls with
    | nil => simp
    | cons next ls =>
      have hrest := ih (by simp)
      rw [List.cons_append] at hrest
      rw [List.cons_append, List.cons_append, List.intercalate_cons_cons, List.intercalate_cons_cons, hrest]
      simp

theorem patchLines_unlines {ls : List Line} (h : ∀ line ∈ ls, Unbroken line) (hne : ls ≠ []) : patchLines (unlines ls) = ls := by
  have hreturn : '\r' ∉ ['\n'].intercalate ls ++ ['\n'] := return_not_mem_intercalate fun line hline => (h line hline).2
  have hsplit : (['\n'].intercalate ls ++ ['\n']).splitOn '\n' = ls ++ [[]] := by
    rw [← intercalate_concat_nil hne]
    refine List.splitOn_intercalate _ ?_ (by simp)
    intro line hline
    rcases List.mem_append.mp hline with hline | hline
    · exact (h line hline).1
    · obtain rfl := List.mem_singleton.mp hline
      exact List.not_mem_nil
  unfold patchLines unlines
  simp only [if_neg hne, normalizeBreaks_of_not_mem hreturn, hsplit]
  simp

theorem splitPatchLines_val (patch : List Char) : (splitPatchLines patch).map (·.1) = patchLines patch := by
  simp [splitPatchLines]

theorem splitPatchLines_renderPatch (changes : List UnbrokenChange) (hne : changes ≠ []) :
    splitPatchLines (renderPatch (changes.map (·.1))) = changes.flatMap changeLines := by
  have hrender : (changes.flatMap changeLines).map (·.1) = (changes.map (·.1)).flatMap renderChange := by
    rw [List.map_flatMap, List.flatMap_map]
    simp only [map_changeLines]
  have hunbroken : ∀ line ∈ (changes.map (·.1)).flatMap renderChange, Unbroken line := by
    rw [← hrender]
    intro line hline
    obtain ⟨unbroken, -, rfl⟩ := List.mem_map.mp hline
    exact unbroken.2
  have hlines : (changes.map (·.1)).flatMap renderChange ≠ [] := by
    obtain ⟨change, rest, rfl⟩ := List.exists_cons_of_ne_nil hne
    simp [renderChange]
  refine List.map_injective_iff.mpr Subtype.val_injective ?_
  rw [splitPatchLines_val, renderPatch, patchLines_unlines hunbroken hlines, hrender]

theorem repeatedPath?_none {seenPaths : List String} {changes : List WorkspacePatchChange} :
    repeatedPath? seenPaths changes = none ↔ (changes.map (·.path)).Nodup ∧ ∀ change ∈ changes, change.path ∉ seenPaths := by
  induction changes generalizing seenPaths with
  | nil => simp [repeatedPath?]
  | cons change changes ih =>
    rw [repeatedPath?, List.map_cons, List.nodup_cons, List.forall_mem_cons]
    split_ifs with hseen
    · simp [hseen]
    · rw [ih]
      simp only [List.mem_cons, not_or, List.mem_map, not_exists, not_and]
      constructor
      · rintro ⟨hnodup, hall⟩
        exact ⟨⟨fun other hother => (hall other hother).1, hnodup⟩, hseen, fun other hother => (hall other hother).2⟩
      · rintro ⟨⟨hpath, hnodup⟩, -, hall⟩
        exact ⟨hnodup, fun other hother => ⟨hpath other hother, hall other hother⟩⟩

theorem parseWorkspaceApplyPatch_ok {limits : WorkspaceCommandServiceLimits} {patch : List Char}
    {read : List WorkspacePatchChange} :
    parseWorkspaceApplyPatch patch limits = .ok read ↔
      jsLength patch ≤ limits.maxApplyPatchBytes ∧ '\x00' ∉ patch ∧ parseFiles limits 0 (splitPatchLines patch) = .ok read ∧
        read ≠ [] ∧ (read.map (·.path)).Nodup := by
  simp only [parseWorkspaceApplyPatch, bind_ok, require_ok, exists_const]
  refine and_congr_right fun _ => and_congr_right fun _ => ?_
  constructor
  · rintro ⟨changes, hparse, hne, hrepeated⟩
    split at hrepeated
    · cases hrepeated
    · next hnone =>
      obtain rfl := pure_ok.mp hrepeated
      exact ⟨hparse, hne, (repeatedPath?_none.mp hnone).1⟩
  · rintro ⟨hparse, hne, hnodup⟩
    refine ⟨read, hparse, hne, ?_⟩
    rw [repeatedPath?_none.mpr ⟨hnodup, fun _ _ => List.not_mem_nil⟩]
    rfl

theorem stripWorkspacePatchPrefix_suffix (h : stripWorkspacePatchPrefix rawPath = .ok t) : t <:+ rawPath := by
  unfold stripWorkspacePatchPrefix at h
  split_ifs at h
  · exact Except.ok.inj h ▸ List.drop_suffix _ _
  · exact Except.ok.inj h ▸ List.drop_suffix _ _
  · exact Except.ok.inj h ▸ List.suffix_rfl

theorem normalizePatchHeaderPath_sublist {limits : WorkspaceCommandServiceLimits}
    (h : normalizePatchHeaderPath value limits = .ok (some p)) : p.Sublist value := by
  unfold normalizePatchHeaderPath at h
  simp only at h
  split_ifs at h
  · cases h
  · simp only [bind_ok, pure_ok, Option.some.injEq] at h
    obtain ⟨t, hstrip, p, hnormal, rfl⟩ := h
    have hsuffix := stripWorkspacePatchPrefix_suffix hstrip
    have hend : ∀ c ∈ t.getLast?, Js.isWhitespace c = false := by
      intro c hc
      have hne : t ≠ [] := by
        rintro rfl
        cases hc
      exact trimEnd_end ((value.takeWhile (· ≠ '\t')).dropWhile Js.isWhitespace) c (getLast?_suffix hsuffix hne ▸ hc)
    have hok : normalizeWorkspaceFilePath t limits.toWorkspacePathLimits = .ok p := by
      cases hresult : normalizeWorkspaceFilePath t limits.toWorkspacePathLimits with
      | error failure => simp [hresult, ofPathCheck, Except.mapError] at hnormal
      | ok q => simpa [hresult, ofPathCheck, Except.mapError] using hnormal
    exact (sublist_of_normalize hend hok).trans
      (hsuffix.sublist.trans ((trim_sublist _).trans (List.takeWhile_sublist _)))

theorem resolvePatchOperation_path (h : resolvePatchOperation oldPath newPath = .ok (operation, path)) :
    oldPath = some path ∨ newPath = some path := by
  cases oldPath with
  | none =>
    cases newPath with
    | none => cases h
    | some newPath =>
      obtain ⟨-, rfl⟩ := Prod.mk.inj (Except.ok.inj h)
      exact .inr rfl
  | some oldPath =>
    cases newPath with
    | none =>
      obtain ⟨-, rfl⟩ := Prod.mk.inj (Except.ok.inj h)
      exact .inl rfl
    | some newPath =>
      rw [resolvePatchOperation] at h
      split at h
      · cases h
      · obtain ⟨-, rfl⟩ := Prod.mk.inj (Except.ok.inj h)
        exact .inl rfl

theorem unbroken_sublist (h : Unbroken t) (hsub : s.Sublist t) : Unbroken s :=
  ⟨fun hc => h.1 (hsub.subset hc), fun hc => h.2 (hsub.subset hc)⟩

theorem parseFiles_unbroken {limits : WorkspaceCommandServiceLimits} {lines : List UnbrokenLine}
    {read : List WorkspacePatchChange}
    (h : parseFiles limits index lines = .ok read) : ∀ change ∈ read, Unbroken change.path.toList := by
  induction hlength : lines.length using Nat.strongRecOn generalizing lines index read with
  | ind n ih =>
    cases lines with
    | nil =>
      rw [parseFiles] at h
      obtain rfl := Except.ok.inj h
      exact fun _ hmem => absurd hmem List.not_mem_nil
    | cons line rest =>
      subst hlength
      rw [parseFiles] at h
      split_ifs at h
      · exact ih _ (Nat.lt_succ_self _) h rfl
      · simp only [bind_ok, pure_ok, require_ok, Prod.exists, exists_const] at h
        obtain ⟨oldPath, hold, -, newPath, hnew, operation, path, hresolve, hunks, -, -, changes, hchanges, rfl⟩ := h
        have hlt : (behindFile rest.tail).length < (line :: rest).length := by
          have hbehind : (behindFile rest.tail).length ≤ rest.tail.length := List.length_dropWhile_le _ _
          rw [List.length_tail] at hbehind
          rw [List.length_cons]
          omega
        refine List.forall_mem_cons.mpr ⟨?_, ih _ hlt hchanges rfl⟩
        rw [String.toList_ofList]
        have hnext : Unbroken ((rest.head?.map (·.1)).getD []) := by
          cases rest with
          | nil => exact ⟨List.not_mem_nil, List.not_mem_nil⟩
          | cons next rest => exact next.2
        rcases resolvePatchOperation_path hresolve with rfl | rfl
        · exact unbroken_sublist line.2 ((normalizePatchHeaderPath_sublist hold).trans (List.drop_sublist _ _))
        · exact unbroken_sublist hnext ((normalizePatchHeaderPath_sublist hnew).trans (List.drop_sublist _ _))

theorem parseFiles_renderPatch (limits : WorkspaceCommandServiceLimits) {changes : List WorkspacePatchChange}
    (hpaths : ∀ change ∈ changes, Unbroken change.path.toList) (hne : changes ≠ []) :
    parseFiles limits 0 (splitPatchLines (renderPatch changes)) = .ok changes ↔ ∀ change ∈ changes, Reads limits change := by
  have hval : (changes.attachWith _ hpaths).map (·.1) = changes := by simp
  have hfiles := parseFiles_changeLines limits 0 (changes.attachWith _ hpaths)
  rw [← splitPatchLines_renderPatch _ (by simpa using hne), hval] at hfiles
  rw [hfiles]
  constructor
  · intro h change hchange
    exact h ⟨change, hpaths change hchange⟩ (by simpa using hchange)
  · intro h change hchange
    exact h change.1 (by simpa using hchange)

theorem reads_of_parse {limits : WorkspaceCommandServiceLimits} {changes : List WorkspacePatchChange}
    (h : parseWorkspaceApplyPatch (renderPatch changes) limits = .ok changes) : ∀ change ∈ changes, Reads limits change := by
  obtain ⟨-, -, hparse, hne, -⟩ := parseWorkspaceApplyPatch_ok.mp h
  exact (parseFiles_renderPatch limits (parseFiles_unbroken hparse) hne).mp hparse

/-- The changes of a patch are read back as they were written if and only if they pass the checks and no
line that is taken away begins with two hyphens and a blank. -/
theorem parse_renderPatch_iff {limits : WorkspaceCommandServiceLimits} {changes : List WorkspacePatchChange} :
    parseWorkspaceApplyPatch (renderPatch changes) limits = .ok changes ↔
      Admitted limits changes ∧ ∀ change ∈ changes, ∀ hunk ∈ change.hunks, Clean hunk := by
  constructor
  · intro h
    have hreads := reads_of_parse h
    obtain ⟨hsize, hnul, -, hne, hdistinct⟩ := parseWorkspaceApplyPatch_ok.mp h
    exact ⟨⟨hne, hsize, hnul, hdistinct, fun c hc => (hreads c hc).1, fun c hc => (hreads c hc).2.1⟩,
      fun c hc => (hreads c hc).2.2⟩
  · rintro ⟨h, hclean⟩
    have hpaths : ∀ change ∈ changes, Unbroken change.path.toList := fun c hc => (h.path c hc).unbroken
    refine parseWorkspaceApplyPatch_ok.mpr ⟨h.size, h.no_nul, ?_, h.ne_nil, h.distinct⟩
    exact (parseFiles_renderPatch limits hpaths h.ne_nil).mpr fun c hc => ⟨h.path c hc, h.hunks c hc, hclean c hc⟩

namespace Example

def limits : WorkspaceCommandServiceLimits := ⟨⟨512⟩, 1000⟩

def comment : WorkspacePatchHunk :=
  ⟨1, 1, 1, 1, [.delete "-- note".toList, .add "select 1".toList], rfl, rfl, by decide⟩

def query : WorkspacePatchChange := ⟨.update, "query.sql", [comment]⟩

theorem query_path : HeaderPath limits query.path.toList := by
  have hlast : query.path.toList.getLast? = some 'l' := by decide
  refine ⟨by decide, by decide, ?_, by decide⟩
  intro c hc
  obtain rfl : 'l' = c := Option.some.inj (hlast.symm.trans hc)
  decide

theorem query_admitted : Admitted limits [query] :=
  ⟨by simp, by decide, by decide, by simp, by simpa using query_path, by simp [query]⟩

end Example

/-- The line `-- note` is taken away as `--- note`, which is read as the header of another file. -/
theorem parse_renderPatch_comment : Admitted Example.limits [Example.query] ∧
    parseWorkspaceApplyPatch (renderPatch [Example.query]) Example.limits ≠ .ok [Example.query] := by
  refine ⟨Example.query_admitted, ?_⟩
  intro h
  have hclean := (reads_of_parse h Example.query List.mem_cons_self).2.2 Example.comment List.mem_cons_self
  exact absurd (hclean _ List.mem_cons_self) (by decide)

end Catalyst.Patches
