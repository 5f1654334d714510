import Catalyst.Pages.Guard

/-!
# The shell of a page

An HTML file of a page is answered as a shell document: a frame whose document
holds one script, the guard called with the stored HTML. The HTML is a string
literal inside a script, and the script is inside the value of an attribute. The
stored HTML is decoded from bytes, so it is a sequence of characters.
-/

namespace Catalyst.Pages

open Library

def composePageScript (storedHtml : List Char) : List Char :=
  pageGuardSource ++ '(' :: replaceAll '<' "\\u003c".toList (Js.stringify storedHtml) ++ [')', ';']

def pageHead : List Char :=
  ("<!doctype html><html><head><meta charset=\"utf-8\">" ++
    "<meta http-equiv=\"x-dns-prefetch-control\" content=\"off\"><script>").toList

def composePageDocument (pageScript : List Char) : List Char :=
  pageHead ++ pageScript ++ "</script>".toList

def escapeAttribute (value : List Char) : List Char :=
  replaceAll '"' "&quot;".toList (replaceAll '&' "&amp;".toList value)

/-- `SHELL_STYLE` -/
def shellStyle : String :=
  "html, body \x7b height: 100%; margin: 0; overflow: hidden; \x7d " ++
    "iframe \x7b display: block; width: 100%; height: 100%; border: 0; \x7d"

/-- The shell document up to the value of its frame's `srcdoc`. -/
def shellHead : List Char :=
  ("<!doctype html>\n<html><head><meta charset=\"utf-8\"><title>Page</title>\n<style>" ++ shellStyle ++
    "</style>\n</head><body>\n<iframe sandbox=\"allow-scripts\" title=\"Page\" srcdoc=\"").toList

def shellTail : List Char := "></iframe>\n</body></html>\n".toList

structure PageShell where
  document : List Char
  pageScriptHash : String

/-- What an answer takes from the platform: the digest of a text, which is never
empty, and the host a URL names. -/
structure Platform where
  sha256Base64 : List Char → String
  digest_ne : ∀ text, sha256Base64 text ≠ ""
  hostname? : String → Option String

variable (platform : Platform)

def composePageShell (storedHtml : List Char) : PageShell :=
  let pageScript := composePageScript storedHtml
  let pageDocument := composePageDocument pageScript
  { document := shellHead ++ escapeAttribute pageDocument ++ '"' :: shellTail
    pageScriptHash := platform.sha256Base64 pageScript }

def isPolicySource (origin : String) : Bool :=
  (platform.hostname? origin).any fun hostname => !hostname.startsWith "["

def appContentDirectives (frameAncestors : List String) (pageScriptHash : Option String) :
    List (String × String) :=
  [("sandbox", "allow-scripts"),
    ("default-src", "'none'"),
    ("script-src", match pageScriptHash.filter (· ≠ "") with
      | some hash => s!"'self' 'sha256-{hash}'"
      | none => "'self'"),
    ("style-src", "'self' 'unsafe-inline'"),
    ("img-src", "'self' data:"),
    ("connect-src", "'none'"),
    ("frame-src", "'none'"),
    ("base-uri", "'none'"),
    ("form-action", "'none'"),
    ("worker-src", "'none'"),
    ("frame-ancestors", " ".intercalate ("'self'" :: frameAncestors.filter (isPolicySource platform)))]

def appContentPolicy (frameAncestors : List String) (pageScriptHash : Option String) : String :=
  "; ".intercalate ((appContentDirectives platform frameAncestors pageScriptHash).map fun d => s!"{d.1} {d.2}")

def appContentHeaders (frameAncestors : List String) (pageScriptHash : Option String) :
    List (String × String) :=
  [("content-security-policy", appContentPolicy platform frameAncestors pageScriptHash),
    ("x-content-type-options", "nosniff"),
    ("referrer-policy", "no-referrer"),
    ("x-dns-prefetch-control", "off"),
    ("access-control-allow-origin", "*"),
    ("cross-origin-resource-policy", "cross-origin"),
    ("vary", "Origin, Sec-Fetch-Dest")]

def answerPage (frameAncestors : List String) (storedHtml : List Char) :
    List (String × String) × List Char :=
  let shell := composePageShell platform storedHtml
  (appContentHeaders platform frameAncestors (some shell.pageScriptHash), shell.document)

def literalChar (c : Char) : List Char := replaceAll '<' "\\u003c".toList (Js.quoteChar c)

theorem composePageScript_eq (storedHtml : List Char) :
    composePageScript storedHtml =
      pageGuardSource ++ ('(' :: '"' :: storedHtml.flatMap literalChar ++ ['"', ')', ';']) := by
  have hq : replaceAll '<' "\\u003c".toList ['"'] = ['"'] := rfl
  simp [composePageScript, Js.stringify, replaceAll_flatMap]
  rfl

theorem literalChar_lt : literalChar '<' = Js.unicodeEscape 0x3c := by decide

theorem literalChar_of_ne (hc : c ≠ '<') : literalChar c = Js.quoteChar c :=
  replaceAll_eq_self fun h => (Js.mem_quoteChar h).elim (fun he => hc he.1.symm) (by decide)

theorem spells_literalChar (c : Char) : Js.Spells (literalChar c) (Js.codeUnits c) := by
  by_cases hc : c = '<'
  · subst hc
    exact literalChar_lt ▸ Js.spells_unicodeEscape (by decide)
  · exact literalChar_of_ne hc ▸ Js.spells_quoteChar c

theorem lt_not_mem_literal (storedHtml : List Char) : '<' ∉ storedHtml.flatMap literalChar := fun h => by
  obtain ⟨c, _, hc⟩ := List.mem_flatMap.mp h
  exact not_mem_replaceAll (by decide) hc

theorem le_of_mem_literal {storedHtml : List Char} (h : d ∈ storedHtml.flatMap literalChar) : 0x20 ≤ d.toNat := by
  obtain ⟨c, _, hc⟩ := List.mem_flatMap.mp h
  obtain hd | ⟨_, hd⟩ := mem_replaceAll hc
  · exact (by decide : ∀ d ∈ "\\u003c".toList, 0x20 ≤ d.toNat) d hd
  · exact Js.le_of_mem_quoteChar hd

theorem not_mem_composePageScript (hc : c.toNat < 0x20) (hn : c ≠ '\n') (hg : ∀ l ∈ guardLines, c ∉ l.toList)
    (storedHtml : List Char) : c ∉ composePageScript storedHtml := fun h => by
  have hascii (d : Char) (hd : 0x20 ≤ d.toNat) : c ≠ d := fun he => by
    subst he
    omega
  rw [composePageScript_eq] at h
  simp only [List.cons_append, List.mem_append, List.mem_cons, List.not_mem_nil, or_false] at h
  obtain hguard | he | he | hliteral | he | he | he := h
  · exact not_mem_pageGuardSource hn hg hguard
  · exact hascii _ (by decide) he
  · exact hascii _ (by decide) he
  · exact absurd (le_of_mem_literal hliteral) (by omega)
  · exact hascii _ (by decide) he
  · exact hascii _ (by decide) he
  · exact hascii _ (by decide) he

theorem tagless_composePageScript (storedHtml : List Char) :
    Html.Tagless (composePageScript storedHtml) := by
  rw [composePageScript_eq]
  refine tagless_pageGuardSource.append (.of_not_mem fun h => ?_) (by simp)
  simp only [List.cons_append, List.mem_cons, List.mem_append, List.not_mem_nil, or_false] at h
  obtain he | he | hliteral | he | he | he := h
  · exact absurd he (by decide)
  · exact absurd he (by decide)
  · exact lt_not_mem_literal storedHtml hliteral
  · exact absurd he (by decide)
  · exact absurd he (by decide)
  · exact absurd he (by decide)

def attributeChar (c : Char) : List Char :=
  if c = '&' then "&amp;".toList else if c = '"' then "&quot;".toList else [c]

theorem escapeAttribute_eq (value : List Char) : escapeAttribute value = value.flatMap attributeChar := by
  have hchar (c : Char) : replaceAll '"' "&quot;".toList (if c = '&' then "&amp;".toList else [c]) =
      attributeChar c := by
    unfold attributeChar
    split_ifs with ha hq
    · decide
    · simp [hq]
    · simp [hq]
  simp only [escapeAttribute, replaceAll_flatMap, replaceAll.eq_def '&', hchar]

theorem shows_attributeChar (refs : Html.References) (h0 : c ≠ '\x00') :
    Html.Shows refs (attributeChar c) [c] := by
  unfold attributeChar
  split_ifs with ha hq
  · subst ha
    exact Html.shows_reference (m := "amp".toList) refs.amp (by decide)
  · subst hq
    exact Html.shows_reference (m := "quot".toList) refs.quot (by decide)
  · exact Html.shows_self hq ha h0

theorem readValue_escapeAttribute (refs : Html.References) (h0 : '\x00' ∉ value) (rest : List Char) :
    Html.readValue refs 0 (escapeAttribute value ++ '"' :: rest) = some (value, rest) := by
  have hshows : Html.Shows refs (escapeAttribute value) value := by
    rw [escapeAttribute_eq]
    exact .flatMap fun c hc => shows_attributeChar refs fun he => h0 (he ▸ hc)
  exact hshows.read rest

theorem not_mem_escapeAttribute (hc : c ∉ "&quot;amp".toList) (h : c ∉ value) : c ∉ escapeAttribute value :=
  fun hmem => by
  have hsub : ∀ d ∈ "&quot;".toList ++ "&amp;".toList, d ∈ "&quot;amp".toList := by decide
  obtain hq | ⟨_, hmem⟩ := mem_replaceAll hmem
  · exact hc (hsub c (List.mem_append_left _ hq))
  · obtain ha | ⟨_, hv⟩ := mem_replaceAll hmem
    · exact hc (hsub c (List.mem_append_right _ ha))
    · exact h hv

theorem not_mem_ofList {l : List Char} (h : c ∉ l) : c ∉ (String.ofList l).toList := by
  rwa [String.toList_ofList]

theorem return_not_mem_shellHead : '\r' ∉ shellHead := by
  unfold shellHead shellStyle
  rw [String.toList_append, String.toList_append, String.toList_append]
  refine List.not_mem_append (List.not_mem_append ?_ (List.not_mem_append ?_ ?_)) ?_
  all_goals exact not_mem_ofList (by decide)

theorem not_mem_composePageDocument (hc : c = '\x00' ∨ c = '\r') (h : c ∉ script) :
    c ∉ composePageDocument script := by
  have hhead : c ∉ pageHead := by
    unfold pageHead
    rw [String.toList_append]
    rcases hc with rfl | rfl <;>
      exact List.not_mem_append (not_mem_ofList (by decide)) (not_mem_ofList (by decide))
  have htail : c ∉ "</script>".toList := not_mem_ofList (by rcases hc with rfl | rfl <;> decide)
  exact List.not_mem_append (List.not_mem_append hhead h) htail

/-- For every stored HTML, a browser that reads the shell finds exactly the page
document in the frame's attribute, exactly the script in its script element, and
exactly the stored HTML in the literal. The policy names the digest of that script. -/
theorem page_shell_ok (refs : Html.References) (frameAncestors : List String) (storedHtml : List Char) :
    let script := composePageScript storedHtml
    let page := composePageDocument script
    let answer := answerPage platform frameAncestors storedHtml
    (∃ srcdoc, answer.2 = shellHead ++ srcdoc ++ '"' :: shellTail ∧ '"' ∉ srcdoc ∧
      Html.normalizeNewlines answer.2 = answer.2 ∧
      Html.readValue refs 0 (srcdoc ++ '"' :: shellTail) = some (page, shellTail)) ∧
    (page = pageHead ++ script ++ "</script>".toList ∧ Html.normalizeNewlines page = page ∧
      Html.readScript (script ++ "</script>".toList) = some (script, "</script>".toList)) ∧
    (∃ literal, script = pageGuardSource ++ ('(' :: '"' :: literal ++ ['"', ')', ';']) ∧ '<' ∉ literal ∧
      Js.readString .text (literal ++ ['"', ')', ';']) = some (Js.utf16 storedHtml, [')', ';'])) ∧
    ∃ directives : List (String × String), answer.1.lookup "content-security-policy" =
        some ("; ".intercalate (directives.map fun d => s!"{d.1} {d.2}")) ∧
      directives.filter (·.1 = "script-src") =
        [("script-src", s!"'self' 'sha256-{platform.sha256Base64 script}'")] := by
  intro script page answer
  have hscript (c : Char) (hc : c = '\x00' ∨ c = '\r') : c ∉ script := by
    refine not_mem_composePageScript ?_ ?_ (fun l hl => ?_) storedHtml
    · obtain rfl | rfl := hc <;> decide
    · obtain rfl | rfl := hc <;> decide
    · obtain rfl | rfl := hc
      · exact (guardLines_plain l hl).1
      · exact (guardLines_plain l hl).2.1
  have h0 : '\x00' ∉ page := not_mem_composePageDocument (.inl rfl) (hscript _ (.inl rfl))
  have hr : '\r' ∉ page := not_mem_composePageDocument (.inr rfl) (hscript _ (.inr rfl))
  have hanswer : '\r' ∉ answer.2 := by
    have htail : '\r' ∉ '"' :: shellTail := List.not_mem_cons_of_ne_of_not_mem (by decide) (not_mem_ofList (by decide))
    have hvalue : '\r' ∉ escapeAttribute page := not_mem_escapeAttribute (by decide) hr
    exact fun h => (List.mem_append.mp h).elim (fun h => (List.mem_append.mp h).elim return_not_mem_shellHead hvalue) htail
  refine ⟨⟨escapeAttribute page, rfl, not_mem_replaceAll (by decide),
    Html.normalizeNewlines_eq_self hanswer, readValue_escapeAttribute refs h0 shellTail⟩,
    ⟨rfl, Html.normalizeNewlines_eq_self hr, ?_⟩, ?_, ?_⟩
  · exact Html.readScript_tagless (tagless_composePageScript storedHtml) (hscript _ (.inl rfl)) rfl rfl
  · refine ⟨storedHtml.flatMap literalChar, composePageScript_eq storedHtml, lt_not_mem_literal storedHtml, ?_⟩
    exact (Js.Spells.flatMap fun c _ => spells_literalChar c).read [')', ';']
  · refine ⟨appContentDirectives platform frameAncestors (some (platform.sha256Base64 script)), rfl, ?_⟩
    simp [appContentDirectives, Option.filter, platform.digest_ne]

example : Html.readValue .markup 0 (escapeAttribute ['a', '&', 'l', 't', ';', '"'] ++ ['"', '>']) =
    some (['a', '&', 'l', 't', ';', '"'], ['>']) := by decide

end Catalyst.Pages
