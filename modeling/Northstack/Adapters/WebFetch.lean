import Northstack.Core.Urls

/-!
# Reading the public web

Mirrors adapters/workspace/webfetch.py. `fetch` sends a request, follows redirects up
to a limit, and checks every URL before it requests it: its form, and that its host
resolves to addresses none of which is blocked. The resolver and the transport are
those of the run: the `k`-th resolution and the `k`-th request are answered as `Net`
has it, so they may answer a name differently every time.

**Results.**
* `validateUrl_ok`, `validateUrl_raised`, `validateIp_ok`: what a URL and its addresses
  have passed, and on which URLs the check raises.
* `fetchLoop_refused`, `fetchLoop_admitted`: what one turn of the loop does to the
  network, and whether it goes on or how it ends the fetch (`Closes`).
-/
namespace Northstack

namespace Web

open TextFiles Urls

/-- `WebFetchPolicy`, as far as `fetch` reads it. -/
structure WebFetchPolicy where
  maxResponseBytes : Nat
  maxRedirects : Nat
  allowedContentTypes : List Text

/-- What is left to the library: URLs, `ipaddress`, `str.strip`, and how it shows the set of
allowed schemes. -/
structure Library extends Tables where
  isPrivateOrBlockedIp : Text → Bool
  isLoopbackIp : Text → Bool
  isSpace : CodePoint → Bool
  shownSchemes : Text

/-- An exception the transport or a response's body may raise: `RequestError` and its
timeouts, `OSError`, `StreamError`, and those they do not document. -/
inductive TransportError (ε : Type) where
  | requestError (message : Text)
  | osError (message : Text)
  | streamError (message : Text)
  | other (e : ε)
  deriving DecidableEq

/-- An exception the resolver may raise: `OSError`, and those it does not document. -/
inductive ResolverError (ε : Type) where
  | osError (message : Text)
  | other (e : ε)
  deriving DecidableEq

/-- A response: its body comes in chunks, after which its iterator may raise. -/
structure Response (ε : Type) where
  statusCode : Nat
  location : Option Text
  contentType : Option Text
  chunks : List ByteArray
  bodyFails : Option (TransportError ε)
  deriving DecidableEq

section

variable {ε : Type}

/-- All the bytes the server serves. -/
def Response.served (r : Response ε) : ByteArray := r.chunks.foldl (· ++ ·) ByteArray.empty

end

/-- The resolver and the transport over one run. -/
structure Net (ε : Type) where
  resolve : Nat → Text → Except (ResolverError ε) (List Text)
  request : Nat → Text → Except (TransportError ε) (Response ε)

/-- What the run has done to the network. -/
inductive Traffic (ε : Type) where
  | resolved (host : Text) (answer : Except (ResolverError ε) (List Text))
  | sent (url : Text) (answer : Except (TransportError ε) (Response ε))

/-- `ToolEvidence`, as `fetch` fills it. -/
structure ToolEvidence where
  url : Text
  statusCode : Nat
  contentType : Text
  sizeBytes : Nat := 0
  hops : Nat
  untrusted : Bool := true
  deriving DecidableEq

/-- `ToolResult`, as `fetch` fills it. -/
structure ToolResult where
  ok : Bool
  error : Text := []
  data : ByteArray := ByteArray.empty
  truncated : Bool := false
  totalBytes : Nat := 0
  evidence : Option ToolEvidence := none
  deriving DecidableEq

/-- An exception that leaves `fetch`. -/
inductive Raised (ε : Type) where
  | valueError
  | transport (e : TransportError ε)
  | resolver (e : ε)
  deriving DecidableEq

/-- How a URL fails its check: `SSRFBlocked` with its message, or the `ValueError` of a parse. -/
inductive BadUrl where
  | blocked (message : Text)
  | valueError
  deriving DecidableEq

/-- How a host fails its check: `SSRFBlocked` with its message, or what the resolver raises. -/
inductive BadHost (ε : Type) where
  | blocked (message : Text)
  | raised (e : ε)
  deriving DecidableEq

def failed (error : Text) : ToolResult := { ok := false, error := error }

def number (n : Nat) : Text := text (toString n)

section

variable {ε : Type} (lib : Library)

/-! ## The checks -/

def allowedSchemes : List Text := [text "http", text "https"]

/-- The default port of a scheme. -/
def defaultPort (scheme : Text) : Option Nat :=
  if scheme = text "http" then some 80
  else if scheme = text "https" then some 443
  else none

/-- `username or password` is set. -/
def hasUserinfo (p : ParseResult) : Bool :=
  p.username.getD [] ≠ [] ∨ p.password.getD [] ≠ []

/-- `_validate_url` (webfetch.py:128-153): the scheme and the host. The parser has the
scheme in lower case. -/
def validateUrl (url : Text) : Except BadUrl (Text × Text) :=
  match urlparse lib.toTables url [] with
  | none => .error .valueError
  | some parsed =>
    if parsed.scheme ∉ allowedSchemes then
      .error (.blocked (text "Scheme '" ++ parsed.scheme ++ text "' not allowed; only " ++
        lib.shownSchemes ++ text " permitted"))
    else
      match parsed.hostname lib.toTables with
      | none => .error (.blocked (text "No hostname in URL"))
      | some host =>
        if host = [] then .error (.blocked (text "No hostname in URL"))
        else if hasUserinfo parsed then
          .error (.blocked (text "URL contains credentials (userinfo); not allowed"))
        else
          match parsed.port with
          | none => .error .valueError
          | some none => .ok (parsed.scheme, host)
          | some (some port) =>
            if some port ≠ defaultPort parsed.scheme then
              .error (.blocked (text "Port " ++ number port ++ text " is not a default port for " ++
                parsed.scheme ++ text "; not allowed"))
            else .ok (parsed.scheme, host)

/-- `_validate_ip` (webfetch.py:155-172), with what the resolver answers. -/
def validateIp (host : Text) :
    Except (ResolverError ε) (List Text) → Except (BadHost ε) Unit
  | .error (.osError e) =>
    .error (.blocked (text "DNS resolution failed for " ++ host ++ text ": " ++ e))
  | .error (.other e) => .error (.raised e)
  | .ok [] => .error (.blocked (text "DNS resolution returned no addresses for " ++ host))
  | .ok (ip :: ips) =>
    match (ip :: ips).find? lib.isPrivateOrBlockedIp with
    | some ip => .error (.blocked (text "IP " ++ ip ++ text " for " ++ host ++
        text " is in a blocked range " ++
        text "(localhost/private/link-local/multicast/reserved/unspecified)"))
    | none => .ok ()

def strip (s : Text) : Text :=
  ((s.dropWhile lib.isSpace).reverse.dropWhile lib.isSpace).reverse

/-- `_check_content_type` (webfetch.py:174-180) -/
def checkContentType (policy : WebFetchPolicy) (contentType : Option Text) : Bool :=
  policy.allowedContentTypes = [] ∨
    lib.lower (strip lib (partitionAt (char ';') (contentType.getD [])).1) ∈
      policy.allowedContentTypes

/-- `is_loopback_host` (domain/url_policy.py:9-18) -/
def isLoopbackHost (host : Text) : Bool :=
  lib.lower host = text "localhost" ∨ lib.isLoopbackIp host

/-! ## Redirects -/

/-- `_resolve_redirect` (webfetch.py:182-195); `none` for the `ValueError` of a parse. -/
def resolveRedirect (location currentUrl : Text) : Option Text :=
  if text "//" <+: location then
    (urlparse lib.toTables currentUrl []).map fun current =>
      current.scheme ++ text ":" ++ location
  else
    match urlparse lib.toTables location [] with
    | none => none
    | some parsed =>
      if parsed.scheme = [] then urljoin lib.toTables currentUrl location else some location

/-- The `https`-to-`http` check (webfetch.py:262-274), for a fetch that began with
`original`. -/
def downgrades (original : Text) (parsed : ParseResult) : Bool :=
  original = text "https" ∧ parsed.scheme = text "http" ∧
    isLoopbackHost lib ((parsed.hostname lib.toTables).getD []) = false

/-- Where a redirect leads (webfetch.py:257-275), or how the fetch ends on it. -/
def redirectTarget (original currentUrl : Text) (response : Response ε) :
    Except (Except (Raised ε) ToolResult) Text :=
  let location := response.location.getD []
  if location = [] then .error (.ok (failed (text "Redirect with no Location header")))
  else
    match resolveRedirect lib location currentUrl with
    | none => .error (.error .valueError)
    | some url =>
      match urlparse lib.toTables url [] with
      | none => .error (.error .valueError)
      | some parsed =>
        if downgrades lib original parsed then
          .error (.ok (failed
            (text "Refusing https->http protocol downgrade in redirect to " ++ url)))
        else .ok url

/-! ## The body -/

/-- The body as read. -/
structure Body where
  data : ByteArray
  totalBytes : Nat
  truncated : Bool

/-- The loop over the chunks (webfetch.py:309-323). -/
def readBody (limit : Nat) (fails : Option (TransportError ε)) :
    List ByteArray → ByteArray → Nat → Except (Raised ε) Body
  | [], body, total =>
    match fails with
    | none => .ok ⟨body, total, false⟩
    | some (.requestError e) => .error (.transport (.requestError e))
    | some (.other e) => .error (.transport (.other e))
    | some (.osError _) | some (.streamError _) => .ok ⟨body, total, true⟩
  | chunk :: chunks, body, total =>
    if total + chunk.size ≤ limit then
      readBody limit fails chunks (body ++ chunk) (total + chunk.size)
    else .ok ⟨body, total + chunk.size, true⟩

/-- The end of a fetch that is not redirected (webfetch.py:277-337). -/
def finish (policy : WebFetchPolicy) (method : String) (hops : Nat) (url : Text)
    (response : Response ε) : Except (Raised ε) ToolResult :=
  let evidence : ToolEvidence :=
    { url := url, statusCode := response.statusCode
      contentType := response.contentType.getD [], hops := hops }
  if response.statusCode < 200 ∨ 300 ≤ response.statusCode then
    .ok { failed (text "HTTP " ++ number response.statusCode ++
        text " response (non-2xx treated as failure)") with evidence := some evidence }
  else if ¬ checkContentType lib policy response.contentType then
    .ok (failed (text "Content-Type '" ++ response.contentType.getD (text "unknown") ++
      text "' not in allowlist"))
  else if method = "HEAD" then .ok { ok := true, evidence := some evidence }
  else
    match readBody policy.maxResponseBytes response.bodyFails response.chunks ByteArray.empty 0 with
    | .error e => .error e
    | .ok body =>
      .ok { ok := true, data := body.data, truncated := body.truncated
            totalBytes := body.totalBytes
            evidence := some { evidence with sizeBytes := body.totalBytes } }

def redirectStatus : List Nat := [301, 302, 303, 307, 308]

/-! ## The fetch -/

variable (policy : WebFetchPolicy) (net : Net ε) (method : String)

/-- What the loop makes of a reply (webfetch.py:241-255): how the fetch ends on it, or the
response that redirects. -/
def replied (hops : Nat) (url : Text) :
    Except (TransportError ε) (Response ε) → Except (Raised ε) ToolResult ⊕ Response ε
  | .error (.streamError e) => .inl (.error (.transport (.streamError e)))
  | .error (.other e) => .inl (.error (.transport (.other e)))
  | .error (.requestError e) => .inl (.ok (failed (text "Request failed: " ++ e)))
  | .error (.osError e) => .inl (.ok (failed (text "Request failed: " ++ e)))
  | .ok response =>
    if response.statusCode ∈ redirectStatus then .inr response
    else .inl (finish lib policy method hops url response)

/-- One turn of the loop up to its redirect (webfetch.py:227-255): what was done to the
network, and how the fetch ended, or the response that redirects. -/
def hop (hops : Nat) (url : Text) :
    List (Traffic ε) × (Except (Raised ε) ToolResult ⊕ Response ε) :=
  match urlparse lib.toTables url [] with
  | none => ([], .inl (.error .valueError))
  | some parsed =>
    let host := (parsed.hostname lib.toTables).getD []
    let answer := net.resolve (hops + 1) host
    match validateIp lib host answer with
    | .error (.raised e) => ([.resolved host answer], .inl (.error (.resolver e)))
    | .error (.blocked e) => ([.resolved host answer], .inl (.ok (failed
        (text "SSRF blocked at redirect hop " ++ number hops ++ text ": " ++ e))))
    | .ok () =>
      match validateUrl lib url with
      | .error .valueError => ([.resolved host answer], .inl (.error .valueError))
      | .error (.blocked e) => ([.resolved host answer], .inl (.ok (failed
          (text "Invalid redirect URL at hop " ++ number hops ++ text ": " ++ e))))
      | .ok _ =>
        let reply := net.request hops url
        ([.resolved host answer, .sent url reply], replied lib policy method hops url reply)

/-- The loop of `fetch`, with `left` redirects to go. -/
def fetchLoop (original : Text) :
    Nat → Nat → Text → List (Traffic ε) × Except (Raised ε) ToolResult
  | left, hops, url =>
    match hop lib policy net method hops url with
    | (traffic, .inl out) => (traffic, out)
    | (traffic, .inr response) =>
      match left with
      | 0 => (traffic, .ok (failed
          (text "Too many redirects (max " ++ number policy.maxRedirects ++ text ")")))
      | left + 1 =>
        match redirectTarget lib original url response with
        | .error out => (traffic, out)
        | .ok next =>
          let rest := fetchLoop original left (hops + 1) next
          (traffic ++ rest.1, rest.2)

/-- `WebReader.fetch` (webfetch.py:197-337) -/
def fetch (url : Text) : List (Traffic ε) × Except (Raised ε) ToolResult :=
  if method ∉ ["GET", "HEAD"] then
    ([], .ok (failed (text "Method '" ++ text method ++
      text "' not allowed; only GET/HEAD permitted")))
  else
    match validateUrl lib url with
    | .error .valueError => ([], .error .valueError)
    | .error (.blocked e) => ([], .ok (failed e))
    | .ok (original, host) =>
      let answer := net.resolve 0 host
      match validateIp lib host answer with
      | .error (.raised e) => ([.resolved host answer], .error (.resolver e))
      | .error (.blocked e) => ([.resolved host answer], .ok (failed e))
      | .ok () =>
        let rest := fetchLoop lib policy net method original policy.maxRedirects 0 url
        (.resolved host answer :: rest.1, rest.2)

end

/-! ## What has been checked -/

section

variable {ε : Type} {lib : Library} {policy : WebFetchPolicy} {net : Net ε} {method : String}
  {url host : Text} {ips : List Text} {hops : Nat}

/-- The URL has the form of one that may be requested, with this scheme and host. -/
def WellFormed (lib : Library) (url scheme host : Text) : Prop :=
  ∃ p, urlparse lib.toTables url [] = some p ∧ p.scheme = scheme ∧ scheme ∈ allowedSchemes ∧
    p.hostname lib.toTables = some host ∧ host ≠ [] ∧ hasUserinfo p = false ∧
    (p.port = some none ∨ ∃ port, p.port = some (some port) ∧ some port = defaultPort scheme)

/-- The URL has that form but for its port, which is no number of a port. -/
def BadPort (lib : Library) (url host : Text) : Prop :=
  ∃ p, urlparse lib.toTables url [] = some p ∧ p.scheme ∈ allowedSchemes ∧
    p.hostname lib.toTables = some host ∧ host ≠ [] ∧ hasUserinfo p = false ∧ p.port = none

/-- The answer of the resolver is these addresses, at least one and none of them blocked. -/
def Public (lib : Library) (answer : Except (ResolverError ε) (List Text)) (ips : List Text) :
    Prop :=
  answer = .ok ips ∧ ips ≠ [] ∧ ∀ ip ∈ ips, lib.isPrivateOrBlockedIp ip = false

/-- The URL is well formed, and its host was resolved for this turn to these addresses. -/
def Vetted (lib : Library) (net : Net ε) (hops : Nat) (url host : Text) (ips : List Text) : Prop :=
  (∃ scheme, WellFormed lib url scheme host) ∧ Public lib (net.resolve (hops + 1) host) ips

/-- The turn of the loop passes its checks and sends its request. -/
def Admitted (lib : Library) (net : Net ε) (hops : Nat) (url : Text) : Prop :=
  ∃ host ips, Vetted lib net hops url host ips

/-- The turn comes to its second look at the URL, which raises. -/
def Trips (lib : Library) (net : Net ε) (hops : Nat) (url : Text) : Prop :=
  ∃ host ips, BadPort lib url host ∧ Public lib (net.resolve (hops + 1) host) ips

/-- The resolver raises, in this turn, what it does not document. -/
def Unresolved (lib : Library) (net : Net ε) (hops : Nat) (url : Text) : Prop :=
  ∃ p e, urlparse lib.toTables url [] = some p ∧
    net.resolve (hops + 1) ((p.hostname lib.toTables).getD []) = .error (.other e)

theorem WellFormed.not_badPort {scheme host' : Text} (h : WellFormed lib url scheme host) :
    ¬ BadPort lib url host' := by
  obtain ⟨p, hp, -, -, -, -, -, hport⟩ := h
  rintro ⟨q, hq, -, -, -, -, hbad⟩
  obtain rfl : p = q := Option.some.inj (hp.symm.trans hq)
  rw [hbad] at hport
  obtain hport | ⟨port, hport, -⟩ := hport
  · cases hport
  · cases hport

/-- What `_validate_url` makes of a URL: it lets pass what is well formed, and raises what
it does not expect on what is no URL or has a bad port. -/
theorem validateUrl_cases (lib : Library) (url : Text) :
    (∃ scheme host, validateUrl lib url = .ok (scheme, host) ∧ WellFormed lib url scheme host) ∨
      (∃ e, validateUrl lib url = .error (.blocked e) ∧
        (∃ p, urlparse lib.toTables url [] = some p) ∧
        (∀ scheme host, ¬ WellFormed lib url scheme host) ∧ ∀ host, ¬ BadPort lib url host) ∨
      validateUrl lib url = .error .valueError ∧
        (urlparse lib.toTables url [] = none ∨ ∃ host, BadPort lib url host) ∧
        ∀ scheme host, ¬ WellFormed lib url scheme host := by
  unfold validateUrl WellFormed BadPort
  cases hparsed : urlparse lib.toTables url [] with
  | none => simp
  | some p =>
    by_cases hscheme : p.scheme ∈ allowedSchemes
    · cases hname : p.hostname lib.toTables with
      | none => simp [hscheme, hname]
      | some host =>
        by_cases hhost : host = []
        · simp +contextual [hscheme, hname, hhost]
        · cases huser : hasUserinfo p with
          | true => simp [hscheme, hname, hhost, huser]
          | false =>
            cases hport : p.port with
            | none => simp [hscheme, hname, hhost, huser, hport]
            | some port =>
              cases port with
              | none => simp [hscheme, hname, hhost, huser, hport]
              | some port =>
                by_cases hdefault : some port = defaultPort p.scheme
                · refine .inl ⟨p.scheme, host, ?_, p, rfl, rfl, hscheme, hname, hhost, huser,
                    .inr ⟨port, hport, hdefault⟩⟩
                  simp only [hscheme, not_true_eq_false, if_false, hname, hhost, huser,
                    Bool.false_eq_true, hport]
                  exact if_neg (not_not.mpr hdefault)
                · simp [hscheme, hname, hhost, huser, hport, hdefault]
    · refine .inr (.inl ⟨_, if_pos hscheme, ⟨p, rfl⟩, ?_, ?_⟩)
      · rintro scheme host ⟨q, hq, rfl, hmem, -⟩
        cases hq
        exact hscheme hmem
      · rintro host ⟨q, hq, hmem, -⟩
        cases hq
        exact hscheme hmem

/-- `_validate_url` lets pass what is well formed. -/
theorem validateUrl_ok {scheme : Text} :
    validateUrl lib url = .ok (scheme, host) ↔ WellFormed lib url scheme host := by
  rcases validateUrl_cases lib url with ⟨scheme', host', hok, hformed⟩ | ⟨e, herr, -, hnone, -⟩ |
    ⟨herr, -, hnone⟩
  · rw [hok]
    constructor
    · intro h
      cases h
      exact hformed
    · rintro ⟨p, hp, hs, -, hn, -⟩
      obtain ⟨q, hq, hs', -, hn', -⟩ := hformed
      obtain rfl : p = q := Option.some.inj (hp.symm.trans hq)
      obtain rfl : host = host' := Option.some.inj (hn.symm.trans hn')
      rw [← hs, hs']
  · rw [herr]
    refine ⟨?_, fun h => absurd h (hnone _ _)⟩
    intro h
    cases h
  · rw [herr]
    refine ⟨?_, fun h => absurd h (hnone _ _)⟩
    intro h
    cases h

/-- `_validate_url` raises what it does not expect on what is no URL, and on a bad port. -/
theorem validateUrl_raised :
    validateUrl lib url = .error .valueError ↔
      urlparse lib.toTables url [] = none ∨ ∃ host, BadPort lib url host := by
  rcases validateUrl_cases lib url with ⟨scheme, host', hok, hformed⟩ |
    ⟨e, herr, ⟨p, hp⟩, -, hport⟩ | ⟨herr, hbad, -⟩
  · rw [hok]
    constructor
    · intro h
      cases h
    obtain ⟨p, hp, -⟩ := id hformed
    rintro (hnone | ⟨host, hbad⟩)
    · rw [hp] at hnone
      cases hnone
    · exact absurd hbad hformed.not_badPort
  · rw [herr]
    constructor
    · intro h
      cases h
    rintro (hnone | ⟨host, hbad⟩)
    · rw [hp] at hnone
      cases hnone
    · exact absurd hbad (hport host)
  · rw [herr]
    exact ⟨fun _ => hbad, fun _ => rfl⟩

/-- `_validate_ip` lets pass a host with addresses none of which is blocked. -/
theorem validateIp_ok {answer : Except (ResolverError ε) (List Text)} :
    validateIp lib host answer = .ok () ↔ ∃ ips, Public lib answer ips := by
  unfold Public
  cases answer with
  | error e => cases e <;> simp [validateIp]
  | ok ips =>
    cases ips with
    | nil => simp [validateIp]
    | cons ip ips =>
      unfold validateIp
      cases hfind : (ip :: ips).find? lib.isPrivateOrBlockedIp with
      | some blocked =>
        have hblocked : lib.isPrivateOrBlockedIp blocked = true := List.find?_some hfind
        have hmem : blocked ∈ ip :: ips := List.mem_of_find?_eq_some hfind
        constructor
        · intro h
          simp only [hfind] at h
          cases h
        rintro ⟨ips', h, -, hclear⟩
        cases h
        rw [hclear blocked hmem] at hblocked
        cases hblocked
      | none =>
        refine ⟨fun _ => ⟨ip :: ips, rfl, List.cons_ne_nil _ _, ?_⟩,
          fun _ => by simp only [hfind]⟩
        intro a ha
        simpa using List.find?_eq_none.mp hfind a ha

/-- `_validate_ip` raises what the resolver raises and does not document. -/
theorem validateIp_raised {answer : Except (ResolverError ε) (List Text)} {e : ε} :
    validateIp lib host answer = .error (.raised e) ↔ answer = .error (.other e) := by
  cases answer with
  | error e' => cases e' <;> simp [validateIp]
  | ok ips =>
    cases ips with
    | nil => simp [validateIp]
    | cons ip ips =>
      unfold validateIp
      cases hfind : (ip :: ips).find? lib.isPrivateOrBlockedIp <;> simp [hfind]

/-- The URLs that requests were sent to. -/
def sends (log : List (Traffic ε)) : List Text :=
  log.filterMap fun
    | .sent url _ => some url
    | .resolved _ _ => none

@[simp] theorem sends_nil : sends ([] : List (Traffic ε)) = [] := rfl

@[simp] theorem sends_resolved (answer : Except (ResolverError ε) (List Text))
    (log : List (Traffic ε)) :
    sends (.resolved host answer :: log) = sends log := rfl

@[simp] theorem sends_sent (reply : Except (TransportError ε) (Response ε))
    (log : List (Traffic ε)) :
    sends (.sent url reply :: log) = url :: sends log := rfl

@[simp] theorem sends_append (a b : List (Traffic ε)) : sends (a ++ b) = sends a ++ sends b :=
  List.filterMap_append

/-- A turn that passes its checks sends one request, for a vetted host. -/
theorem hop_admitted (policy : WebFetchPolicy) (method : String) (h : Admitted lib net hops url) :
    ∃ host ips, Vetted lib net hops url host ips ∧
      hop lib policy net method hops url =
        ([.resolved host (.ok ips), .sent url (net.request hops url)],
          replied lib policy method hops url (net.request hops url)) := by
  obtain ⟨host, ips, ⟨scheme, hformed⟩, hpublic⟩ := h
  have hurl : validateUrl lib url = .ok (scheme, host) := validateUrl_ok.mpr hformed
  have hip : validateIp lib host (net.resolve (hops + 1) host) = .ok () :=
    validateIp_ok.mpr ⟨ips, hpublic⟩
  obtain ⟨p, hparsed, -, -, hname, -⟩ := id hformed
  refine ⟨host, ips, ⟨⟨scheme, hformed⟩, hpublic⟩, ?_⟩
  rw [hpublic.1] at hip
  unfold hop
  simp only [hparsed, hname, Option.getD_some, hpublic.1, hip, hurl]

/-- A turn that fails one of its checks sends nothing and ends the fetch, with an exception
if the URL is not one, its second look raises, or the resolver does. -/
theorem hop_refused (policy : WebFetchPolicy) (method : String) (h : ¬ Admitted lib net hops url) :
    ∃ traffic out, hop lib policy net method hops url = (traffic, .inl out) ∧
      sends traffic = [] ∧ (∀ r, out = .ok r → r.ok = false ∧ r.data = ByteArray.empty) ∧
      ((∃ e, out = .error e) ↔ urlparse lib.toTables url [] = none ∨ Trips lib net hops url ∨
        Unresolved lib net hops url) := by
  unfold hop
  split
  · rename_i hnone
    refine ⟨[], _, rfl, rfl, ?_, fun _ => .inl hnone, fun _ => ⟨_, rfl⟩⟩
    intro r hr
    cases hr
  rename_i p hparsed
  have hhost : ∀ {host}, BadPort lib url host → (p.hostname lib.toTables).getD [] = host := by
    rintro host ⟨q, hq, -, hname, -⟩
    obtain rfl : p = q := Option.some.inj (hparsed.symm.trans hq)
    rw [hname, Option.getD_some]
  have hsome : ¬ urlparse lib.toTables url [] = none := by
    rw [hparsed]
    simp
  have hunresolved : ∀ {out}, validateIp lib ((p.hostname lib.toTables).getD [])
      (net.resolve (hops + 1) ((p.hostname lib.toTables).getD [])) = out →
      (∀ e, out ≠ .error (.raised e)) → ¬ Unresolved lib net hops url := by
    rintro out hout hother ⟨q, e, hq, he⟩
    obtain rfl : p = q := Option.some.inj (hparsed.symm.trans hq)
    rw [validateIp_raised.mpr he] at hout
    exact hother e hout.symm
  simp only
  split
  · rename_i e hip
    refine ⟨_, _, rfl, rfl, ?_, fun _ => .inr (.inr ⟨p, e, hparsed, validateIp_raised.mp hip⟩),
      fun _ => ⟨_, rfl⟩⟩
    intro r hr
    cases hr
  · rename_i e hip
    refine ⟨_, _, rfl, rfl, ?_, ?_, ?_⟩
    · intro r hr
      cases hr
      exact ⟨rfl, rfl⟩
    · rintro ⟨e', he⟩
      cases he
    · rintro (hnone | ⟨host, ips, hbad, hpublic⟩ | hraised)
      · exact absurd hnone hsome
      · rw [hhost hbad, validateIp_ok.mpr ⟨ips, hpublic⟩] at hip
        cases hip
      · exact absurd hraised (hunresolved hip (by simp))
  rename_i hip
  obtain ⟨ips, hpublic⟩ := validateIp_ok.mp hip
  split
  · rename_i hurl
    obtain hnone | ⟨host, hbad⟩ := validateUrl_raised.mp hurl
    · exact absurd hnone hsome
    · rw [hhost hbad] at hpublic
      refine ⟨_, _, rfl, rfl, ?_, fun _ => .inr (.inl ⟨host, ips, hbad, hpublic⟩),
        fun _ => ⟨_, rfl⟩⟩
      intro r hr
      cases hr
  · rename_i e hurl
    refine ⟨_, _, rfl, rfl, ?_, ?_, ?_⟩
    · intro r hr
      cases hr
      exact ⟨rfl, rfl⟩
    · rintro ⟨e', he⟩
      cases he
    · rintro (hnone | ⟨host, ips, hbad, -⟩ | hraised)
      · exact absurd hnone hsome
      · rw [validateUrl_raised.mpr (.inr ⟨host, hbad⟩)] at hurl
        cases hurl
      · exact absurd hraised (hunresolved hip (by simp))
  · rename_i pair hurl
    have hformed : WellFormed lib url pair.1 pair.2 := validateUrl_ok.mp hurl
    obtain ⟨q, hq, -, -, hname, -⟩ := id hformed
    obtain rfl : p = q := Option.some.inj (hparsed.symm.trans hq)
    rw [hname, Option.getD_some] at hpublic
    exact absurd ⟨pair.2, ips, ⟨pair.1, hformed⟩, hpublic⟩ h

/-! ## Turns of the loop -/

/-- The request of this turn is answered by a redirect that may be followed. -/
def Redirects (lib : Library) (net : Net ε) (original : Text) (hops : Nat) (url next : Text) :
    Prop :=
  ∃ response, net.request hops url = .ok response ∧ response.statusCode ∈ redirectStatus ∧
    redirectTarget lib original url response = .ok next

/-- Where a redirect leads parses, and is no downgrade. -/
theorem redirectTarget_ok {original url next : Text} {response : Response ε}
    (h : redirectTarget lib original url response = .ok next) :
    ∃ p, urlparse lib.toTables next [] = some p ∧ downgrades lib original p = false := by
  unfold redirectTarget at h
  dsimp only at h
  split at h
  · cases h
  · split at h
    · cases h
    · split at h
      · cases h
      · rename_i p hp
        split at h
        · cases h
        · rename_i hguard
          cases h
          exact ⟨p, hp, Bool.eq_false_iff.mpr hguard⟩

/-- How a fetch ends on the reply to a request, with `left` redirects to go. -/
inductive Closes (lib : Library) (policy : WebFetchPolicy) (net : Net ε) (method : String)
    (original : Text) (left hops : Nat) (url : Text) : Except (Raised ε) ToolResult → Prop
  | stream (e : Text) : net.request hops url = .error (.streamError e) →
      Closes lib policy net method original left hops url (.error (.transport (.streamError e)))
  | undocumented (e : ε) : net.request hops url = .error (.other e) →
      Closes lib policy net method original left hops url (.error (.transport (.other e)))
  | unanswered (e : TransportError ε) (message : Text) : net.request hops url = .error e →
      (∀ m, e ≠ .streamError m) → (∀ m, e ≠ .other m) →
      Closes lib policy net method original left hops url (.ok (failed message))
  | exhausted (response : Response ε) (message : Text) : net.request hops url = .ok response →
      response.statusCode ∈ redirectStatus → left = 0 →
      Closes lib policy net method original left hops url (.ok (failed message))
  | stranded (response : Response ε) (out : Except (Raised ε) ToolResult) :
      net.request hops url = .ok response → response.statusCode ∈ redirectStatus → left ≠ 0 →
      redirectTarget lib original url response = .error out →
      Closes lib policy net method original left hops url out
  | finished (response : Response ε) : net.request hops url = .ok response →
      response.statusCode ∉ redirectStatus →
      Closes lib policy net method original left hops url
        (finish lib policy method hops url response)

theorem fetchLoop_refused (policy : WebFetchPolicy) (method : String) (original : Text) (left : Nat)
    (h : ¬ Admitted lib net hops url) :
    ∃ traffic out, fetchLoop lib policy net method original left hops url = (traffic, out) ∧
      sends traffic = [] ∧ (∀ r, out = .ok r → r.ok = false ∧ r.data = ByteArray.empty) ∧
      ((∃ e, out = .error e) ↔ urlparse lib.toTables url [] = none ∨ Trips lib net hops url ∨
        Unresolved lib net hops url) := by
  obtain ⟨traffic, out, hhop, hrest⟩ := hop_refused policy method h
  refine ⟨traffic, out, ?_, hrest⟩
  unfold fetchLoop
  rw [hhop]

/-- A turn that passes its checks follows the redirect it is answered with, if it may;
otherwise the fetch ends on the reply. -/
theorem fetchLoop_admitted (policy : WebFetchPolicy) (method : String) (original : Text)
    (left : Nat) (h : Admitted lib net hops url) :
    ∃ host ips, Vetted lib net hops url host ips ∧
      ((∃ more next, left = more + 1 ∧ Redirects lib net original hops url next ∧
        fetchLoop lib policy net method original left hops url =
          (.resolved host (.ok ips) :: .sent url (net.request hops url) ::
            (fetchLoop lib policy net method original more (hops + 1) next).1,
            (fetchLoop lib policy net method original more (hops + 1) next).2)) ∨
      ((left = 0 ∨ ¬ ∃ next, Redirects lib net original hops url next) ∧
        ∃ out, Closes lib policy net method original left hops url out ∧
          fetchLoop lib policy net method original left hops url =
            ([.resolved host (.ok ips), .sent url (net.request hops url)], out))) := by
  obtain ⟨host, ips, hvetted, hhop⟩ := hop_admitted policy method h
  refine ⟨host, ips, hvetted, ?_⟩
  rw [fetchLoop, hhop]
  cases hreply : net.request hops url with
  | error e =>
    have hnone : ¬ ∃ next, Redirects lib net original hops url next := by
      rintro ⟨next, response, hr, -⟩
      rw [hreply] at hr
      cases hr
    refine .inr ⟨.inr hnone, ?_⟩
    cases e with
    | streamError m => exact ⟨_, .stream m hreply, rfl⟩
    | other m => exact ⟨_, .undocumented m hreply, rfl⟩
    | requestError m => exact ⟨_, .unanswered _ _ hreply (by simp) (by simp), rfl⟩
    | osError m => exact ⟨_, .unanswered _ _ hreply (by simp) (by simp), rfl⟩
  | ok response =>
    simp only [replied]
    by_cases hstatus : response.statusCode ∈ redirectStatus
    · simp only [hstatus, if_true]
      cases left with
      | zero => exact .inr ⟨.inl rfl, _, .exhausted response _ hreply hstatus rfl, rfl⟩
      | succ more =>
        simp only
        cases htarget : redirectTarget lib original url response with
        | error out =>
          refine .inr ⟨.inr ?_, out, .stranded response out hreply hstatus (by omega) htarget, rfl⟩
          rintro ⟨next, response', hr, -, hnext⟩
          rw [hreply] at hr
          cases hr
          rw [htarget] at hnext
          cases hnext
        | ok next => exact .inl ⟨more, next, rfl, ⟨response, hreply, hstatus, htarget⟩, rfl⟩
    · simp only [hstatus, if_false]
      refine .inr ⟨.inr ?_, _, .finished response hreply hstatus, rfl⟩
      rintro ⟨next, response', hr, hs, -⟩
      rw [hreply] at hr
      cases hr
      exact hstatus hs

end

end Web

end Northstack
