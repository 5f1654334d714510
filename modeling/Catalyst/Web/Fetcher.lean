import Catalyst.Web.Spelling
import Catalyst.Library.Transition

/-!
# Fetching a page

A fetch goes from hop to hop. On each hop the URL is validated, and its
addresses are tried in turn until one answers; a redirect begins the next hop.
The environment answers for the resolver and the requests, and may abort.

The connection goes to the address it was given: for a name through the
request's own lookup, for a literal host because the host is that address.
-/

namespace Catalyst.Web

open Library

inductive AbortStatus
  | cancelled | timedOut
  deriving DecidableEq

inductive ToolExecutionErrorCode
  | handlerFailed | validationFailed | timedOut | cancelled
  deriving DecidableEq

/-- A failure; `reason` is the one its metadata names. -/
structure WebFetchFailure where
  message : String
  code : ToolExecutionErrorCode := .handlerFailed
  aborted : Option AbortStatus := none
  reason : Option String
  redirectCount : Nat
  deriving DecidableEq

structure WebFetchHttpResponse where
  status : Nat
  location : Option String
  contentType : Option String
  contentEncoding : Option String
  bytesRead : Nat
  deriving DecidableEq

structure WebFetchResult where
  finalUrl : String
  contentType : String
  bytes : Nat
  redirectCount : Nat
  deriving DecidableEq

inductive FetchPhase
  | validating (currentUrl : String) (redirectCount : Nat)
  | requesting (target : WebFetchTarget) (current : WebFetchResolvedAddress)
      (rest : List WebFetchResolvedAddress) (redirectCount : Nat)
  | finished (result : Except WebFetchFailure WebFetchResult)

structure FetchState where
  phase : FetchPhase
  aborted : Option AbortStatus

inductive FetchAction
  | validate (answer : ResolverAnswer)
  | respond (answer : Except String WebFetchHttpResponse)
  | abort (status : AbortStatus)

structure Connection where
  url : Url
  address : WebFetchResolvedAddress
  connectedTo : Text
  deriving DecidableEq

inductive FetchEvent
  | resolved (redirectCount : Nat) (hostname : Text) (addresses : List WebFetchResolvedAddress)
  | connected (redirectCount : Nat) (connection : Connection)
  deriving DecidableEq

-- -----------------
-- Responses
-- -----------------

def isRedirectStatus (status : Nat) : Bool := status ∈ [301, 302, 303, 307, 308]

def trim (t : Text) : Text := ((t.dropWhile isSpace).reverse.dropWhile isSpace).reverse

def parseMediaType (contentType : String) : Option String :=
  let mediaType := ((trim (contentType.toList.takeWhile (· ≠ ';')))).toLower
  if mediaType = [] then none else some (String.ofList mediaType)

def allowedContentTypes : List String := ["text/html", "text/plain", "application/xhtml+xml"]

/-- What a response that is no redirect comes to. -/
def readPage (target : WebFetchTarget) (response : WebFetchHttpResponse) (redirectCount : Nat) :
    Except WebFetchFailure WebFetchResult :=
  let contentType := response.contentType.getD ""
  let encoding := (response.contentEncoding.map fun e => String.ofList (trim e.toList).toLower).getD ""
  let status := response.status
  if status < 200 ∨ 300 ≤ status then
    .error { message := s!"web_fetch received HTTP {status}", reason := some "http_error", redirectCount }
  else if encoding ≠ "" ∧ encoding ≠ "identity" then
    .error
      { message := s!"Content encoding '{encoding}' is not allowed for web_fetch"
        code := .validationFailed, reason := some "unsupported_content_encoding", redirectCount }
  else
    match (parseMediaType contentType).filter (· ∈ allowedContentTypes) with
    | none =>
      .error
        { message := if contentType ≠ "" then
            s!"Content type '{contentType}' is not allowed for web_fetch"
          else "Response did not include an allowed content type"
          code := .validationFailed, reason := some "unsupported_content_type", redirectCount }
    | some mediaType =>
      .ok ⟨target.url.href, if contentType = "" then mediaType else contentType, response.bytesRead,
        redirectCount⟩

def followRedirect (P : Platform) (maxRedirects : Nat) (target : WebFetchTarget)
    (response : WebFetchHttpResponse) (redirectCount : Nat) : Except WebFetchFailure String := do
  let href := target.url.href
  let location ← Check.need (response.location.filter (· ≠ ""))
    { message := s!"Redirect response from '{href}' did not include a Location header"
      reason := some "missing_redirect_location", redirectCount }
  Check.require (redirectCount < maxRedirects)
    { message := s!"web_fetch exceeded redirect limit of {maxRedirects}"
      reason := some "redirect_limit_exceeded", redirectCount }
  Check.need (P.resolveUrl location target.url)
    { message := s!"Redirect response from '{href}' included an invalid Location header"
      code := .validationFailed, reason := some "invalid_redirect_location", redirectCount }

def abortFailure (redirectCount : Nat) : AbortStatus → WebFetchFailure
  | .timedOut => ⟨"web_fetch timed out", .timedOut, some .timedOut, none, redirectCount⟩
  | .cancelled => ⟨"web_fetch was cancelled", .cancelled, some .cancelled, none, redirectCount⟩

def validationFailure (redirectCount : Nat) : ValidationError → WebFetchFailure
  | .safety message => ⟨message, .validationFailed, none, some "blocked_url", redirectCount⟩
  | .thrown message => ⟨message, .handlerFailed, none, some "handler_error", redirectCount⟩

def connectsTo (P : Platform) (url : Url) (address : WebFetchResolvedAddress) : Text :=
  let hostname := normalizeHostname url.hostname
  if P.isIP hostname ≠ .none then hostname else address.address

namespace FetchState

def finish (s : FetchState) (result : Except WebFetchFailure WebFetchResult) : FetchState :=
  { s with phase := .finished result }

def hop (s : FetchState) (currentUrl : String) (redirectCount : Nat) : FetchState :=
  match s.aborted with
  | some status => s.finish (.error (abortFailure redirectCount status))
  | none => { s with phase := .validating currentUrl redirectCount }

def requestTarget (P : Platform) (s : FetchState) (target : WebFetchTarget)
    (addresses : List WebFetchResolvedAddress) (lastError : String) (redirectCount : Nat) :
    List FetchEvent × FetchState :=
  match addresses with
  | [] => ([], s.finish (.error ⟨lastError, .handlerFailed, none, some "network_error", redirectCount⟩))
  | address :: rest =>
    ([.connected redirectCount ⟨target.url, address, connectsTo P target.url address⟩],
      { s with phase := .requesting target address rest redirectCount })

def step (P : Platform) (maxRedirects : Nat) (s : FetchState) :
    FetchAction → List FetchEvent × FetchState
  | .validate answer =>
    match s.phase with
    | .validating currentUrl redirectCount =>
      match validateWebFetchUrl P (fun _ => answer) currentUrl with
      | .error e => ([], s.finish (.error (validationFailure redirectCount e)))
      | .ok target =>
        let hostname := normalizeHostname target.url.hostname
        let resolved := if P.isIP hostname ≠ .none then []
          else [FetchEvent.resolved redirectCount hostname target.addresses]
        let (events, s) := s.requestTarget P target target.addresses
          "web_fetch network request failed" redirectCount
        (resolved ++ events, s)
    | _ => ([], s)
  | .respond answer =>
    match s.phase with
    | .requesting target _ rest redirectCount =>
      match answer with
      | .error message =>
        match s.aborted with
        | some status => ([], s.finish (.error (abortFailure redirectCount status)))
        | none => s.requestTarget P target rest message redirectCount
      | .ok response =>
        if isRedirectStatus response.status then
          match followRedirect P maxRedirects target response redirectCount with
          | .error e => ([], s.finish (.error e))
          | .ok url => ([], s.hop url (redirectCount + 1))
        else ([], s.finish (readPage target response redirectCount))
    | _ => ([], s)
  | .abort status =>
    let s := { s with aborted := s.aborted.or (some status) }
    match s.phase with
    | .validating currentUrl redirectCount => ([], s.hop currentUrl redirectCount)
    | _ => ([], s)

end FetchState

def fetcher (P : Platform) (maxRedirects : Nat) : Machine FetchState FetchAction (List FetchEvent) where
  init s := ∃ url aborted, s = FetchState.hop ⟨.validating url 0, aborted⟩ url 0
  enabled _ _ := True
  step s a := s.step P maxRedirects a

-- -----------------
-- Connections
-- -----------------

def events (h : List (FetchAction × List FetchEvent)) : List FetchEvent := h.flatMap Prod.snd

def connectionsOf (redirectCount : Nat) (log : List FetchEvent) : List Connection :=
  log.filterMap fun
    | .connected n connection => if n = redirectCount then some connection else none
    | .resolved .. => none

def ResolvedFor (P : Platform) (log : List FetchEvent) (redirectCount : Nat) (url : Url)
    (addresses : List WebFetchResolvedAddress) : Prop :=
  let hostname := normalizeHostname url.hostname
  if P.isIP hostname ≠ .none then addresses = [⟨hostname, P.isIP hostname⟩]
  else .resolved redirectCount hostname addresses ∈ log

def connectionsTo (P : Platform) (url : Url) (addresses : List WebFetchResolvedAddress) :
    List Connection := addresses.map fun a => ⟨url, a, connectsTo P url a⟩

structure HopSound (P : Platform) (log : List FetchEvent) (redirectCount : Nat) (url : Url)
    (addresses : List WebFetchResolvedAddress) : Prop where
  resolved : ResolvedFor P log redirectCount url addresses
  passed : ∀ a ∈ addresses, isBlockedIpAddress P a.address = false
  connections : connectionsOf redirectCount log <+: connectionsTo P url addresses

def HopsSound (P : Platform) (maxRedirects : Nat) (log : List FetchEvent) : Prop :=
  ∀ n, connectionsOf n log ≠ [] → n ≤ maxRedirects ∧ ∃ url addresses, HopSound P log n url addresses

def FetchPhase.Ok (P : Platform) (maxRedirects : Nat) (log : List FetchEvent) : FetchPhase → Prop
  | .validating _ n => n ≤ maxRedirects ∧ ∀ m, n ≤ m → connectionsOf m log = []
  | .requesting target current rest n => n ≤ maxRedirects ∧ (∀ m, n < m → connectionsOf m log = []) ∧
      ResolvedFor P log n target.url target.addresses ∧
      (∀ a ∈ target.addresses, isBlockedIpAddress P a.address = false) ∧
      ∃ tried, target.addresses = tried ++ current :: rest ∧
        connectionsOf n log = connectionsTo P target.url (tried ++ [current])
  | .finished _ => True

structure FetchState.Ok (P : Platform) (maxRedirects : Nat) (log : List FetchEvent) (s : FetchState) :
    Prop where
  hops : HopsSound P maxRedirects log
  phase : s.phase.Ok P maxRedirects log

variable {P : Platform} {maxRedirects : Nat}

@[simp] theorem connectionsOf_append (log log' : List FetchEvent) :
    connectionsOf n (log ++ log') = connectionsOf n log ++ connectionsOf n log' :=
  List.filterMap_append

theorem connectionsOf_connected_self : connectionsOf n [.connected n c] = [c] := by
  simp [connectionsOf]

theorem connectionsOf_connected_of_ne (h : m ≠ n) : connectionsOf n [.connected m c] = [] := by
  simp [connectionsOf, h]

theorem connectionsTo_append (us vs : List WebFetchResolvedAddress) :
    connectionsTo P url (us ++ vs) = connectionsTo P url us ++ connectionsTo P url vs := List.map_append

theorem resolvedFor_literal (hip : P.isIP (normalizeHostname url.hostname) ≠ .none) :
    ResolvedFor P log n url addresses ↔ addresses =
      [⟨normalizeHostname url.hostname, P.isIP (normalizeHostname url.hostname)⟩] := by
  simp [ResolvedFor, hip]

theorem resolvedFor_name (hip : P.isIP (normalizeHostname url.hostname) = .none) :
    ResolvedFor P log n url addresses ↔
      .resolved n (normalizeHostname url.hostname) addresses ∈ log := by
  simp [ResolvedFor, hip]

theorem ResolvedFor.mono (h : ResolvedFor P log n url addresses) (log' : List FetchEvent) :
    ResolvedFor P (log ++ log') n url addresses := by
  by_cases hip : P.isIP (normalizeHostname url.hostname) = .none
  · rw [resolvedFor_name hip] at h ⊢
    exact List.mem_append_left _ h
  · rw [resolvedFor_literal hip] at h ⊢
    exact h

theorem HopSound.mono (h : HopSound P log n url addresses) (hc : connectionsOf n log' = []) :
    HopSound P (log ++ log') n url addresses where
  resolved := h.resolved.mono log'
  passed := h.passed
  connections := by simpa [hc] using h.connections

theorem HopsSound.mono (h : HopsSound P maxRedirects log) (hc : ∀ n, connectionsOf n log' = []) :
    HopsSound P maxRedirects (log ++ log') := by
  intro n hn
  rw [connectionsOf_append, hc, List.append_nil] at hn
  obtain ⟨hle, url, addresses, hs⟩ := h n hn
  exact ⟨hle, url, addresses, hs.mono (hc n)⟩

theorem hop_ok {s : FetchState} (hops : HopsSound P maxRedirects log) (hle : n ≤ maxRedirects)
    (hnone : ∀ m, n ≤ m → connectionsOf m log = []) : (s.hop url n).Ok P maxRedirects log := by
  unfold FetchState.hop
  cases s.aborted with
  | some status => exact ⟨hops, trivial⟩
  | none => exact ⟨hops, hle, hnone⟩

theorem requestTarget_ok {s : FetchState} {target : WebFetchTarget}
    (hops : HopsSound P maxRedirects log) (hle : n ≤ maxRedirects)
    (hlater : ∀ m, n < m → connectionsOf m log = [])
    (hres : ResolvedFor P log n target.url target.addresses)
    (hpass : ∀ a ∈ target.addresses, isBlockedIpAddress P a.address = false)
    (hsplit : target.addresses = tried ++ addresses)
    (hconn : connectionsOf n log = connectionsTo P target.url tried) :
    (s.requestTarget P target addresses lastError n).2.Ok P maxRedirects
      (log ++ (s.requestTarget P target addresses lastError n).1) := by
  cases addresses with
  | nil => exact ⟨by simpa [FetchState.requestTarget] using hops, trivial⟩
  | cons address rest =>
    have hnow : ∀ log' : List FetchEvent, log' = log ++ [.connected n
        ⟨target.url, address, connectsTo P target.url address⟩] →
        connectionsOf n log' = connectionsTo P target.url (tried ++ [address]) := by
      rintro log' rfl
      rw [connectionsOf_append, hconn, connectionsOf_connected_self, connectionsTo_append]
      rfl
    have hprefix : tried ++ [address] <+: target.addresses := by
      rw [hsplit]
      exact ⟨rest, by simp⟩
    simp only [FetchState.requestTarget]
    refine ⟨fun m hm => ?_, hle, ?_, hres.mono _, hpass, tried, hsplit, hnow _ rfl⟩
    · by_cases hmn : m = n
      · subst hmn
        refine ⟨hle, _, _, hres.mono _, hpass, ?_⟩
        rw [hnow _ rfl]
        exact hprefix.map _
      · have hc := connectionsOf_connected_of_ne (c := ⟨target.url, address,
          connectsTo P target.url address⟩) (fun h : n = m => hmn h.symm)
        rw [connectionsOf_append, hc, List.append_nil] at hm
        obtain ⟨hle, url, addresses, hs⟩ := hops m hm
        exact ⟨hle, url, addresses, hs.mono hc⟩
    · intro m hm
      rw [connectionsOf_append, hlater m hm, connectionsOf_connected_of_ne (Nat.ne_of_lt hm),
        List.append_nil]

theorem validateWebFetchUrl_ok (h : validateWebFetchUrl P resolver rawUrl = .ok target) :
    (∀ a ∈ target.addresses, isBlockedIpAddress P a.address = false) ∧
      (P.isIP (normalizeHostname target.url.hostname) ≠ .none → target.addresses =
        [⟨normalizeHostname target.url.hostname, P.isIP (normalizeHostname target.url.hostname)⟩]) := by
  obtain ⟨url, -, h⟩ := Check.bind_ok.mp h
  obtain ⟨_, -, h⟩ := Check.bind_ok.mp h
  split at h
  · obtain ⟨_, hb, h⟩ := Check.bind_ok.mp h
    obtain rfl := Check.pure_ok.mp h
    exact ⟨by simpa using Check.require_ok.mp hb, fun _ => rfl⟩
  · rename_i hip
    obtain ⟨addresses, -, h⟩ := Check.bind_ok.mp h
    obtain ⟨_, hc, h⟩ := Check.bind_ok.mp h
    obtain rfl := Check.pure_ok.mp h
    refine ⟨?_, fun hne => absurd hne hip⟩
    obtain ⟨_, -, hc⟩ := Check.bind_ok.mp hc
    split at hc
    · rename_i hf
      intro a ha
      simpa using List.find?_eq_none.mp hf a ha
    · cases hc

theorem followRedirect_lt (h : followRedirect P maxRedirects target response n = .ok url) :
    n < maxRedirects := by
  obtain ⟨_, -, h⟩ := Check.bind_ok.mp h
  obtain ⟨_, hr, -⟩ := Check.bind_ok.mp h
  exact Check.require_ok.mp hr

theorem step_ok {s : FetchState} (hs : s.Ok P maxRedirects log) (a : FetchAction) :
    (s.step P maxRedirects a).2.Ok P maxRedirects (log ++ (s.step P maxRedirects a).1) := by
  have hsame : (s.Ok P maxRedirects (log ++ [])) := by simpa using hs
  have hfinish : ∀ result, (s.finish result).Ok P maxRedirects (log ++ []) := fun _ =>
    ⟨hsame.hops, trivial⟩
  have hphase := hs.phase
  cases a with
  | validate answer =>
    simp only [FetchState.step]
    split
    · rename_i currentUrl n hp
      rw [hp] at hphase
      split
      · exact hfinish _
      · rename_i target hv
        obtain ⟨hpass, hliteral⟩ := validateWebFetchUrl_ok hv
        simp only
        generalize hr : (if P.isIP (normalizeHostname target.url.hostname) ≠ .none then []
          else [FetchEvent.resolved n (normalizeHostname target.url.hostname) target.addresses]) = resolved
        have hc : ∀ m, connectionsOf m resolved = [] := by
          intro m
          rw [← hr]
          split <;> rfl
        have hres : ResolvedFor P (log ++ resolved) n target.url target.addresses := by
          by_cases hip : P.isIP (normalizeHostname target.url.hostname) = .none
          · rw [resolvedFor_name hip, ← hr]
            simp [hip]
          · rw [resolvedFor_literal hip]
            exact hliteral hip
        have hnone : ∀ m, n ≤ m → connectionsOf m (log ++ resolved) = [] := fun m hm => by
          rw [connectionsOf_append, hphase.2 m hm, hc]
          rfl
        rw [← List.append_assoc]
        have hsplit : target.addresses = [] ++ target.addresses := rfl
        exact requestTarget_ok (hs.hops.mono hc) hphase.1 (fun m hm => hnone m (Nat.le_of_lt hm)) hres
          hpass hsplit (hnone n (Nat.le_refl n))
    · exact hsame
  | respond answer =>
    simp only [FetchState.step]
    split
    · rename_i target current rest n hp
      rw [hp] at hphase
      obtain ⟨hle, hlater, hres, hpass, tried, hsplit, hconn⟩ := hphase
      split
      · split
        · exact hfinish _
        · exact requestTarget_ok hs.hops hle hlater hres hpass (by simpa using hsplit) hconn
      · split
        · split
          · exact hfinish _
          · rename_i hf
            rw [List.append_nil]
            exact hop_ok hs.hops (followRedirect_lt hf) fun m hm => hlater m hm
        · exact hfinish _
    · exact hsame
  | abort status =>
    simp only [FetchState.step]
    split
    · rename_i currentUrl n hp
      rw [hp] at hphase
      rw [List.append_nil]
      exact hop_ok hs.hops hphase.1 hphase.2
    · exact ⟨hsame.hops, hsame.phase⟩

theorem run_ok (hi : (fetcher P maxRedirects).init s) (hr : (fetcher P maxRedirects).Run s h t) :
    t.Ok P maxRedirects (events h) := by
  obtain ⟨url, aborted, rfl⟩ := hi
  have hstart : (FetchState.hop ⟨.validating url 0, aborted⟩ url 0).Ok P maxRedirects (events []) :=
    hop_ok (fun n hn => absurd rfl hn) (Nat.zero_le _) fun _ _ => rfl
  have hstep : ∀ h s a, s.Ok P maxRedirects (events h) → (fetcher P maxRedirects).enabled s a →
      ((fetcher P maxRedirects).next s a).Ok P maxRedirects
        (events (h ++ [(a, (fetcher P maxRedirects).answer s a)])) := by
    intro h s a hs _
    have hlog : events (h ++ [(a, (fetcher P maxRedirects).answer s a)]) =
        events h ++ (s.step P maxRedirects a).1 := by
      simp [events, Machine.answer, fetcher]
    rw [hlog]
    exact step_ok hs a
  simpa using hr.history (P := fun h s => s.Ok P maxRedirects (events h)) hstep hstart

namespace Example

def isIP (t : Text) : IpVersion :=
  if ':' ∈ t then .v6 else if '.' ∈ t ∧ t.all (fun c => c.isDigit || c = '.') then .v4 else .none

theorem isIP_ipv4 (a : Ipv4) : isIP a.text = .v4 := by
  have hcolon : ':' ∉ a.text := fun hc => by
    rcases a.mem_text hc with hc | hc
    · cases hc
    · exact absurd hc (by decide)
  have hdot : '.' ∈ a.text := by
    rw [Ipv4.text, Ipv4.octets, List.map_cons, List.map_cons, joinWith_cons (by simp)]
    simp
  have hdigits : ∀ n < 256, ∀ c ∈ Nat.toDigits 10 n, c.isDigit := by decide +kernel
  have hall : a.text.all (fun c => c.isDigit || c = '.') := by
    rw [List.all_eq_true]
    intro c hc
    rcases mem_joinWith hc with rfl | ⟨t, ht, hct⟩
    · rfl
    · obtain ⟨n, hn, rfl⟩ := List.mem_map.mp ht
      simp [hdigits n (a.octet_lt n hn) c hct]
  rw [isIP, if_neg hcolon, if_pos ⟨hdot, hall⟩]

def url (hostname : Text) (href : String) : Url := ⟨"http:", "", "", "", hostname, href⟩

def platform : Platform where
  parseUrl rawUrl := if rawUrl = "http://a/" then some (url ['a'] rawUrl) else none
  resolveUrl location _ := some location
  isIP := isIP
  isIP_ipv4 := isIP_ipv4
  isIP_ipv6 h := if_pos h.colon_mem

def first : WebFetchResolvedAddress := ⟨['9', '.', '9', '.', '9', '.', '9'], .v4⟩
def second : WebFetchResolvedAddress := ⟨['1', '.', '1', '.', '1', '.', '1'], .v4⟩

def start : FetchState := ⟨.validating "http://a/" 0, none⟩

def actions : List FetchAction :=
  [.validate (.ok [first, second]), .respond (.error "connect ECONNREFUSED"),
    .respond (.ok ⟨200, none, some "text/plain", none, 2⟩)]

def log : List FetchEvent := events ((fetcher platform 0).history start actions)

theorem start_ok : (fetcher platform 0).init start := ⟨"http://a/", none, rfl⟩

theorem run : (fetcher platform 0).Run start ((fetcher platform 0).history start actions)
    ((fetcher platform 0).after start actions) :=
  Machine.Allows.run ⟨trivial, trivial, trivial, trivial⟩

end Example

end Catalyst.Web
