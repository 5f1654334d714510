import Mathlib.Data.List.Basic

/-!
# The lines of a text

A text is a list of characters. A line ends with a line feed, a carriage return or both, and the
last one may lack its end. Lines without breaks are written and read back as they are.
-/

namespace Catalyst.Library.Lines

abbrev Line := List Char

def normalizeBreaks : List Char → List Char
  | '\r' :: '\n' :: rest => '\n' :: normalizeBreaks rest
  | '\r' :: rest => '\n' :: normalizeBreaks rest
  | c :: rest => c :: normalizeBreaks rest
  | [] => []

def withoutFinalBreak (text : List Char) : List Char :=
  if text.getLast? = some '\n' then text.dropLast else text

def lines (text : List Char) : List Line :=
  let normalized := normalizeBreaks text
  if normalized = [] then [] else (withoutFinalBreak normalized).splitOn '\n'

def unlines (ls : List Line) : List Char := if ls = [] then [] else ['\n'].intercalate ls ++ ['\n']

def Unbroken (line : Line) : Prop := '\n' ∉ line ∧ '\r' ∉ line
  deriving Decidable

theorem return_not_mem_normalizeBreaks (text : List Char) : '\r' ∉ normalizeBreaks text := by
  fun_induction normalizeBreaks text with
  | case1 rest ih => simpa using ih
  | case2 rest _ ih => simpa using ih
  | case3 c rest _ hc ih => simpa [Ne.symm hc] using ih
  | case4 => exact List.not_mem_nil

theorem normalizeBreaks_of_not_mem (h : '\r' ∉ text) : normalizeBreaks text = text := by
  fun_induction normalizeBreaks text with
  | case1 rest _ => exact absurd List.mem_cons_self h
  | case2 rest _ _ => exact absurd List.mem_cons_self h
  | case3 c rest _ _ ih => rw [ih fun hmem => h (List.mem_cons_of_mem _ hmem)]
  | case4 => rfl

theorem mem_splitOn {text line : List Char} (h : line ∈ text.splitOn sep) : ∀ c ∈ line, c ∈ text ∧ c ≠ sep := by
  induction text generalizing line with
  | nil =>
    obtain rfl : line = [] := by simpa using h
    exact fun c hc => absurd hc List.not_mem_nil
  | cons d text ih =>
    rw [List.splitOn_cons_eq_if_modifyHead] at h
    have hrest {other : List Char} (hother : other ∈ text.splitOn sep) : ∀ c ∈ other, c ∈ d :: text ∧ c ≠ sep :=
      fun c hc => ⟨List.mem_cons_of_mem _ (ih hother c hc).1, (ih hother c hc).2⟩
    split at h
    · obtain rfl | h := List.mem_cons.mp h
      · exact fun c hc => absurd hc List.not_mem_nil
      · exact hrest h
    · next hsep =>
      obtain ⟨first, others, hsplit⟩ := List.exists_cons_of_ne_nil (List.splitOn_ne_nil sep text)
      rw [hsplit, List.modifyHead_cons] at h
      obtain rfl | h := List.mem_cons.mp h
      · intro c hc
        obtain rfl | hc := List.mem_cons.mp hc
        · exact ⟨List.mem_cons_self, by simpa using hsep⟩
        · exact hrest (hsplit ▸ List.mem_cons_self) c hc
      · exact hrest (hsplit ▸ List.mem_cons_of_mem _ h)

theorem unbroken_of_mem_lines (h : line ∈ lines text) : Unbroken line := by
  unfold lines at h
  simp only at h
  split at h
  · exact absurd h List.not_mem_nil
  · have hsub : ∀ c ∈ withoutFinalBreak (normalizeBreaks text), c ∈ normalizeBreaks text := by
      intro c hc
      unfold withoutFinalBreak at hc
      split at hc
      · exact (List.dropLast_sublist _).subset hc
      · exact hc
    refine ⟨fun hc => (mem_splitOn h _ hc).2 rfl, fun hc => ?_⟩
    exact return_not_mem_normalizeBreaks text (hsub _ (mem_splitOn h _ hc).1)

theorem return_not_mem_intercalate {ls : List Line} (h : ∀ line ∈ ls, '\r' ∉ line) :
    '\r' ∉ ['\n'].intercalate ls ++ ['\n'] := by
  induction ls with
  | nil => simp
  | cons line ls ih =>
    obtain ⟨hline, hls⟩ := List.forall_mem_cons.mp h
    cases ls with
    | nil => simpa using hline
    | cons next ls =>
      rw [List.intercalate_cons_cons]
      simpa [hline] using ih hls

theorem lines_unlines (h : ∀ line ∈ ls, Unbroken line) : lines (unlines ls) = ls := by
  unfold unlines
  by_cases hls : ls = []
  · subst hls
    rfl
  · have hreturn : '\r' ∉ ['\n'].intercalate ls ++ ['\n'] := return_not_mem_intercalate fun line hline => (h line hline).2
    rw [if_neg hls]
    unfold lines
    simp only [normalizeBreaks_of_not_mem hreturn]
    rw [if_neg (by simp), withoutFinalBreak, if_pos (by simp), List.dropLast_concat]
    exact List.splitOn_intercalate _ (fun line hline => (h line hline).1) hls

end Catalyst.Library.Lines
