import Mathlib
import Catalyst.Library.JsText
import Catalyst.Library.Utf8Stream

/-!
# Server-sent events

The body of a response comes in chunks that end anywhere. The decoder keeps the character that a
chunk ends in, the parser the line, so the data that are read are those of the whole body.
-/

namespace Catalyst.Gateway

open Library Transducer Utf8Stream

abbrev Text := List Char

def trimStart (s : Text) : Text := s.dropWhile Js.isWhitespace

def trimEnd (s : Text) : Text := (s.reverse.dropWhile Js.isWhitespace).reverse

def dataField : Text := "data:".toList

def lineData (line : Text) : List Text :=
  if dataField <+: trimEnd line then [trimStart ((trimEnd line).drop dataField.length)] else []

structure DataLineParser where
  pendingLineFragments : List Text := []
  deriving DecidableEq

namespace DataLineParser

def completeLine (p : DataLineParser) (finalFragment : Text) : List Text :=
  lineData (if p.pendingLineFragments.length = 0 then finalFragment
    else (p.pendingLineFragments ++ [finalFragment]).flatten)

def pushLines (p : DataLineParser) (chunk : Text) : List Text × DataLineParser :=
  match _h : chunk.idxOf? '\n' with
  | some newlineIndex =>
    let (dataLines, p') := pushLines {} (chunk.drop (newlineIndex + 1))
    (p.completeLine (chunk.take newlineIndex) ++ dataLines, p')
  | none => ([], if 0 < chunk.length then ⟨p.pendingLineFragments ++ [chunk]⟩ else p)
termination_by chunk.length
decreasing_by
  have hlt : newlineIndex < chunk.length := by
    rw [List.idxOf?_eq_some_iff] at _h
    exact _h.1
  rw [List.length_drop]
  omega

def push (p : DataLineParser) (chunk : Text) : List Text × DataLineParser := p.pushLines chunk

/-- `parser.push(chunk, true)` -/
def pushEnd (p : DataLineParser) (chunk : Text) : List Text :=
  let (dataLines, p') := p.pushLines chunk
  if p'.pendingLineFragments.length > 0 then dataLines ++ p'.completeLine [] else dataLines

end DataLineParser

structure EventReader where
  decoder : TextDecoder := {}
  parser : DataLineParser := {}
  deriving DecidableEq

/-- `yield* parser.push(decoder.decode(value, { stream: true }))` -/
def EventReader.read : Transducer EventReader (List Nat) Text := fun r value =>
  let (text, decoder) := r.decoder.decode value
  let (dataLines, parser) := r.parser.push text
  (dataLines, ⟨decoder, parser⟩)

def readServerSentEventData (chunks : List (List Nat)) : List Text :=
  let (dataLines, r) := run EventReader.read {} chunks
  dataLines ++ r.parser.pushEnd r.decoder.finish

def lineStep : Transducer Text Char Text := fun line c => if c = '\n' then (lineData line, []) else ([], line ++ [c])

def DataLineParser.line (p : DataLineParser) : Text := p.pendingLineFragments.flatten

theorem run_lineStep_of_not_mem (h : '\n' ∉ s) : run lineStep line s = ([], line ++ s) := by
  induction s generalizing line with
  | nil => simp
  | cons c s ih =>
    rw [List.mem_cons, not_or] at h
    rw [run_cons, lineStep, if_neg (Ne.symm h.1), ih h.2]
    simp

theorem completeLine_eq (p : DataLineParser) (finalFragment : Text) :
    p.completeLine finalFragment = lineData (p.line ++ finalFragment) := by
  unfold DataLineParser.completeLine DataLineParser.line
  split
  case isTrue hnil => rw [List.length_eq_zero_iff.mp hnil, List.flatten_nil, List.nil_append]
  case isFalse => rw [List.flatten_append, List.flatten_singleton]

theorem idxOf?_split {c : Char} (h : s.idxOf? c = some i) : s = s.take i ++ c :: s.drop (i + 1) ∧ c ∉ s.take i := by
  obtain ⟨hlt, hat, hbefore⟩ := List.idxOf?_eq_some_iff.mp h
  constructor
  · rw [← hat, List.getElem_cons_drop, List.take_append_drop]
  · intro hmem
    obtain ⟨j, hj, he⟩ := List.mem_take_iff_getElem.mp hmem
    exact hbefore j (lt_of_lt_of_le hj (min_le_left _ _)) he

theorem pushLines_eq (p : DataLineParser) (chunk : Text) :
    (p.pushLines chunk).1 = (run lineStep p.line chunk).1 ∧ (p.pushLines chunk).2.line = (run lineStep p.line chunk).2 := by
  fun_induction DataLineParser.pushLines p chunk with
  | case1 p chunk newlineIndex h dataLines p' hpush ih =>
    obtain ⟨hchunk, hfirst⟩ := idxOf?_split h
    have hrun : run lineStep p.line chunk
        = (lineData (p.line ++ chunk.take newlineIndex) ++ (run lineStep [] (chunk.drop (newlineIndex + 1))).1,
          (run lineStep [] (chunk.drop (newlineIndex + 1))).2) := by
      conv_lhs => rw [hchunk]
      rw [run_append, run_lineStep_of_not_mem hfirst, run_cons, lineStep, if_pos rfl]
      rfl
    rw [hpush] at ih
    rw [hrun, completeLine_eq]
    exact ⟨congrArg _ ih.1, ih.2⟩
  | case2 p chunk h =>
    have hnone : '\n' ∉ chunk := List.idxOf?_eq_none_iff.mp h
    rw [run_lineStep_of_not_mem hnone]
    refine ⟨rfl, ?_⟩
    split
    case isTrue => rw [DataLineParser.line, List.flatten_append, List.flatten_singleton, DataLineParser.line]
    case isFalse hempty =>
      obtain rfl : chunk = [] := by simpa using hempty
      simp

theorem pushEnd_eq (p : DataLineParser) (chunk : Text) :
    p.pushEnd chunk = (run lineStep p.line chunk).1 ++ lineData (run lineStep p.line chunk).2 := by
  obtain ⟨hlines, hline⟩ := pushLines_eq p chunk
  unfold DataLineParser.pushEnd
  simp only
  rw [← hlines, ← hline]
  split
  case isTrue => rw [completeLine_eq, List.append_nil]
  case isFalse hempty =>
    have hnil : (p.pushLines chunk).2.pendingLineFragments = [] := by simpa using hempty
    have hdata : lineData [] = [] := by decide
    rw [DataLineParser.line, hnil, List.flatten_nil, hdata, List.append_nil]

theorem run_read (r : EventReader) (chunks : List (List Nat)) :
    let text := r.decoder.decode chunks.flatten
    (run EventReader.read r chunks).1 = (run lineStep r.parser.line text.1).1 ∧
      (run EventReader.read r chunks).2.parser.line = (run lineStep r.parser.line text.1).2 ∧
      (run EventReader.read r chunks).2.decoder = text.2 := by
  induction chunks generalizing r with
  | nil => exact ⟨rfl, rfl, rfl⟩
  | cons chunk chunks ih =>
    obtain ⟨hlines, hline⟩ := pushLines_eq r.parser (r.decoder.decode chunk).1
    obtain ⟨ihlines, ihline, ihdecoder⟩ := ih (EventReader.read r chunk).2
    have hdecode : r.decoder.decode (chunk :: chunks).flatten
        = ((r.decoder.decode chunk).1 ++ ((r.decoder.decode chunk).2.decode chunks.flatten).1,
          ((r.decoder.decode chunk).2.decode chunks.flatten).2) := by
      rw [List.flatten_cons, TextDecoder.decode_eq_run, run_append, ← TextDecoder.decode_eq_run,
        ← TextDecoder.decode_eq_run]
    simp only [hdecode, run_cons, run_append]
    rw [← hline, ← hlines]
    exact ⟨congrArg _ ihlines, ihline, ihdecoder⟩

theorem readServerSentEventData_eq (chunks : List (List Nat)) :
    readServerSentEventData chunks
      = (run lineStep [] (TextDecoder.read chunks.flatten)).1
        ++ lineData (run lineStep [] (TextDecoder.read chunks.flatten)).2 := by
  obtain ⟨hlines, hline, hdecoder⟩ := run_read {} chunks
  unfold readServerSentEventData TextDecoder.read
  simp only
  rw [pushEnd_eq, hlines, hline, hdecoder, run_append, List.append_assoc]
  rfl

theorem modifyHead_nil_append (lines : List Text) : lines.modifyHead (([] : Text) ++ ·) = lines := by
  cases lines <;> rfl

theorem run_lineStep_eq (line text : Text) :
    (run lineStep line text).1 ++ lineData (run lineStep line text).2
      = ((text.splitOn '\n').modifyHead (line ++ ·)).flatMap lineData := by
  induction text generalizing line with
  | nil => simp
  | cons c text ih =>
    rw [run_cons, List.splitOn_cons_eq_if_modifyHead]
    by_cases hc : c = '\n'
    · simp only [lineStep, hc, if_true, beq_self_eq_true, List.modifyHead_cons, List.flatMap_cons, List.append_assoc,
        List.append_nil]
      rw [ih, modifyHead_nil_append]
    · simp only [lineStep, hc, if_false, List.nil_append, beq_iff_eq]
      rw [ih]
      simp [List.modifyHead_modifyHead, Function.comp_def]

theorem readServerSentEventData_lines (chunks : List (List Nat)) :
    readServerSentEventData chunks = ((TextDecoder.read chunks.flatten).splitOn '\n').flatMap lineData := by
  rw [readServerSentEventData_eq, run_lineStep_eq, modifyHead_nil_append]

end Catalyst.Gateway
