import Northstack.Adapters.WebFetch

/-!
# Downgrades along a chain of redirects

`fetch` refuses a redirect from `https` to `http`, unless it leads to the machine itself.
It tells by the scheme it began with, not by the one it was redirected from.

**Chains.** `Comes original 0 url k v`: the redirects the servers answer with lead a
fetch that began with `url`, over `original`, to `v` at its turn `k`.

**Results.**
* `sends_iff`: what is sent is what the chain comes to and the turn's checks admit.
* `fetch_neverDowngrades_iff`: nothing is sent in the clear after something was sent over
  `https` exactly if the fetch began over `https`, or the servers do not lead it from
  `https` to a plain `http` URL at a later turn (`FallsBack`).
-/
namespace Northstack

namespace Web

open TextFiles Urls

variable {ε : Type} {lib : Library} {policy : WebFetchPolicy} {net : Net ε} {method : String}
  {url original next v w : Text} {left limit hops j : Nat}

/-! ## Chains -/

/-- The chain of redirects from a turn and its URL on, for at most `limit` turns after the
first of the fetch. -/
inductive Comes (lib : Library) (net : Net ε) (original : Text) (limit : Nat) :
    Nat → Text → Nat → Text → Prop
  | here (hops : Nat) (url : Text) : Comes lib net original limit hops url hops url
  | next {hops j : Nat} {url next v : Text} : Admitted lib net hops url → hops < limit →
      Redirects lib net original hops url next → Comes lib net original limit (hops + 1) next j v →
      Comes lib net original limit hops url j v

theorem Redirects.unique (h : Redirects lib net original hops url v)
    (h' : Redirects lib net original hops url w) : v = w := by
  obtain ⟨response, hr, -, hv⟩ := h
  obtain ⟨response', hr', -, hw⟩ := h'
  obtain rfl : response = response' := Except.ok.inj (hr.symm.trans hr')
  exact Except.ok.inj (hv.symm.trans hw)

theorem Comes.le (h : Comes lib net original limit hops url j v) : hops ≤ j := by
  induction h with
  | here => exact Nat.le_refl _
  | next _ _ _ _ ih => omega

theorem comes_self : Comes lib net original limit hops url hops v ↔ v = url := by
  constructor
  · intro h
    cases h with
    | here => rfl
    | next _ _ _ hrest =>
      have hle := hrest.le
      omega
  · rintro rfl
    exact .here hops v

theorem comes_succ {i : Nat} : Comes lib net original limit hops url (hops + (i + 1)) v ↔
    Admitted lib net hops url ∧ hops < limit ∧ ∃ next,
      Redirects lib net original hops url next ∧
        Comes lib net original limit (hops + 1) next (hops + 1 + i) v := by
  have hturn : hops + (i + 1) = hops + 1 + i := by omega
  rw [hturn]
  constructor
  · intro h
    generalize hj : hops + 1 + i = j at h
    cases h with
    | here => omega
    | next hadmitted hlimit hredirects hrest => exact ⟨hadmitted, hlimit, _, hredirects, hrest⟩
  · rintro ⟨hadmitted, hlimit, next, hredirects, hrest⟩
    exact .next hadmitted hlimit hredirects hrest

/-- A turn after the first comes from a redirect. -/
theorem Comes.redirected (h : Comes lib net original limit hops url j v) (hlt : hops < j) :
    ∃ k u, Redirects lib net original k u v := by
  induction h with
  | here => omega
  | @next hops j url next v _ _ hredirects hrest ih =>
    by_cases hj : hops + 1 < j
    · exact ih hj
    · have hle := hrest.le
      obtain rfl : j = hops + 1 := by omega
      obtain rfl : v = next := comes_self.mp hrest
      exact ⟨hops, url, hredirects⟩

/-! ## What is sent -/

/-- The requests of the turns from one on are those to the URLs the chain comes to and the
checks admit, in the order of the turns. -/
theorem sends_iff (lib : Library) (policy : WebFetchPolicy) (net : Net ε) (method : String)
    (original : Text) (hleft : hops + left = limit) (url : Text) (i : Nat) (v : Text) :
    (sends (fetchLoop lib policy net method original left hops url).1)[i]? = some v ↔
      Comes lib net original limit hops url (hops + i) v ∧ Admitted lib net (hops + i) v := by
  induction left using Nat.strong_induction_on generalizing hops url i with
  | _ left ih =>
    by_cases hadmitted : Admitted lib net hops url
    · obtain ⟨host, ips, -, ⟨more, next, hmore, hredirects, hloop⟩ | ⟨hend, out, -, hloop⟩⟩ :=
        fetchLoop_admitted policy method original left hadmitted
      · rw [hloop, sends_resolved, sends_sent]
        cases i with
        | zero =>
          rw [List.getElem?_cons_zero, Nat.add_zero, comes_self]
          constructor
          · rintro h
            cases h
            exact ⟨rfl, hadmitted⟩
          · rintro ⟨rfl, -⟩
            rfl
        | succ i =>
          have hturn : hops + (i + 1) = hops + 1 + i := by omega
          rw [List.getElem?_cons_succ, ih more (by omega) (by omega) next i, comes_succ, hturn]
          constructor
          · rintro ⟨hcomes, hv⟩
            exact ⟨⟨hadmitted, by omega, next, hredirects, hcomes⟩, hv⟩
          · rintro ⟨⟨-, -, next', hredirects', hcomes⟩, hv⟩
            obtain rfl : next = next' := hredirects.unique hredirects'
            exact ⟨hcomes, hv⟩
      · rw [hloop, sends_resolved, sends_sent, sends_nil]
        cases i with
        | zero =>
          rw [List.getElem?_cons_zero, Nat.add_zero, comes_self]
          constructor
          · rintro h
            cases h
            exact ⟨rfl, hadmitted⟩
          · rintro ⟨rfl, -⟩
            rfl
        | succ i =>
          rw [List.getElem?_cons_succ, List.getElem?_nil, comes_succ]
          constructor
          · intro h
            cases h
          · rintro ⟨⟨-, hlimit, next, hredirects, -⟩, -⟩
            obtain hzero | hnone := hend
            · omega
            · exact absurd ⟨next, hredirects⟩ hnone
    · obtain ⟨traffic, out, hloop, hsends, -⟩ :=
        fetchLoop_refused policy method original left hadmitted
      rw [hloop, hsends, List.getElem?_nil]
      constructor
      · intro h
        cases h
      · rintro ⟨hcomes, hv⟩
        cases i with
        | zero =>
          rw [Nat.add_zero] at hcomes hv
          rw [comes_self.mp hcomes] at hv
          exact absurd hv hadmitted
        | succ i => exact absurd (comes_succ.mp hcomes).1 hadmitted

/-! ## How a fetch begins -/

/-- The fetch passes its first checks, for a URL of this scheme. -/
def Begins (lib : Library) (net : Net ε) (method : String) (url scheme : Text) : Prop :=
  method ∈ ["GET", "HEAD"] ∧ ∃ host ips, WellFormed lib url scheme host ∧
    Public lib (net.resolve 0 host) ips

theorem fetch_begins (policy : WebFetchPolicy) (h : Begins lib net method url original) :
    ∃ host answer, fetch lib policy net method url =
      (.resolved host answer ::
        (fetchLoop lib policy net method original policy.maxRedirects 0 url).1,
        (fetchLoop lib policy net method original policy.maxRedirects 0 url).2) := by
  obtain ⟨hmethod, host, ips, hformed, hpublic⟩ := h
  have hurl : validateUrl lib url = .ok (original, host) := validateUrl_ok.mpr hformed
  have hip : validateIp lib host (net.resolve 0 host) = .ok () := validateIp_ok.mpr ⟨ips, hpublic⟩
  refine ⟨host, net.resolve 0 host, ?_⟩
  unfold fetch
  simp only [hmethod, not_true_eq_false, if_false, hurl, hip]

/-- A fetch that does not pass its first checks sends nothing and fails, with an exception if
its URL is not one or has a bad port, or the resolver raises what it does not document. -/
theorem fetch_idle (policy : WebFetchPolicy) (h : ¬ ∃ scheme, Begins lib net method url scheme) :
    sends (fetch lib policy net method url).1 = [] ∧
      (∀ r, (fetch lib policy net method url).2 = .ok r → r.ok = false) ∧
      ((∃ e, (fetch lib policy net method url).2 = .error e) ↔ method ∈ ["GET", "HEAD"] ∧
        ((urlparse lib.toTables url [] = none ∨ ∃ host, BadPort lib url host) ∨
          ∃ scheme host e, WellFormed lib url scheme host ∧
            net.resolve 0 host = .error (.other e))) := by
  simp only [← validateUrl_raised, ← validateUrl_ok]
  unfold fetch
  split
  · rename_i hmethod
    refine ⟨rfl, ?_, ?_⟩
    · intro r hr
      cases hr
      rfl
    · simp [hmethod]
  rename_i hmethod
  rw [not_not] at hmethod
  split
  · rename_i hurl
    refine ⟨rfl, ?_, fun _ => ⟨hmethod, .inl hurl⟩, fun _ => ⟨_, rfl⟩⟩
    intro r hr
    cases hr
  · rename_i e hurl
    refine ⟨rfl, ?_, ?_⟩
    · intro r hr
      cases hr
      rfl
    · simp [hurl]
  · rename_i scheme host hurl
    simp only
    split
    · rename_i e hip
      refine ⟨rfl, ?_, fun _ => ⟨hmethod, .inr ⟨scheme, host, e, hurl, validateIp_raised.mp hip⟩⟩,
        fun _ => ⟨_, rfl⟩⟩
      intro r hr
      cases hr
    · rename_i e hip
      refine ⟨rfl, ?_, ?_⟩
      · intro r hr
        cases hr
        rfl
      · constructor
        · rintro ⟨e', he⟩
          cases he
        · rintro ⟨-, hraised | ⟨scheme', host', e', hok, hraised⟩⟩
          · rw [hurl] at hraised
            cases hraised
          · rw [hurl] at hok
            cases hok
            rw [validateIp_raised.mpr hraised] at hip
            cases hip
    · rename_i hip
      obtain ⟨ips, hpublic⟩ := validateIp_ok.mp hip
      exact absurd ⟨scheme, hmethod, host, ips, validateUrl_ok.mp hurl, hpublic⟩ h

/-! ## Downgrades -/

def Secure (lib : Library) (url : Text) : Prop :=
  ∃ p, urlparse lib.toTables url [] = some p ∧ p.scheme = text "https"

/-- A URL in the clear to another machine. -/
def Plain (lib : Library) (url : Text) : Prop :=
  ∃ p, urlparse lib.toTables url [] = some p ∧ p.scheme = text "http" ∧
    isLoopbackHost lib ((p.hostname lib.toTables).getD []) = false

/-- Nothing is sent in the clear after something was sent over `https`. -/
def NeverDowngrades (lib : Library) (urls : List Text) : Prop :=
  urls.Pairwise fun v w => Secure lib v → ¬ Plain lib w

/-- The fetch begins over `http`, and the servers lead it to an `https` URL and from there, at
this or a later turn, to a plain `http` URL that the checks of its turn admit. -/
def FallsBack (lib : Library) (policy : WebFetchPolicy) (net : Net ε) (method : String)
    (url : Text) : Prop :=
  Begins lib net method url (text "http") ∧ ∃ i v j w, i < j ∧
    Comes lib net (text "http") policy.maxRedirects 0 url i v ∧ Admitted lib net i v ∧
    Comes lib net (text "http") policy.maxRedirects 0 url j w ∧ Admitted lib net j w ∧
    Secure lib v ∧ Plain lib w

/-- A fetch that began over `https` is not redirected to a plain URL. -/
theorem Redirects.not_plain (h : Redirects lib net (text "https") hops url next) :
    ¬ Plain lib next := by
  obtain ⟨response, -, -, htarget⟩ := h
  rintro ⟨p, hparsed, hscheme, hhost⟩
  obtain ⟨q, hq, hguard⟩ := redirectTarget_ok htarget
  obtain rfl : p = q := Option.some.inj (hparsed.symm.trans hq)
  have hdowngrades : downgrades lib (text "https") p = true := by
    simp [downgrades, hscheme, hhost]
  rw [hdowngrades] at hguard
  cases hguard

theorem neverDowngrades_iff {urls : List Text} : NeverDowngrades lib urls ↔
    ¬ ∃ (i : Nat) (v : Text) (j : Nat) (w : Text), i < j ∧
      urls[i]? = some v ∧ urls[j]? = some w ∧ Secure lib v ∧ Plain lib w := by
  unfold NeverDowngrades
  rw [List.pairwise_iff_getElem]
  constructor
  · rintro h ⟨i, v, j, w, hij, hv, hw, hsecure, hplain⟩
    obtain ⟨hi, rfl⟩ := List.getElem?_eq_some_iff.mp hv
    obtain ⟨hj, rfl⟩ := List.getElem?_eq_some_iff.mp hw
    exact h i j hi hj hij hsecure hplain
  · intro h i j hi hj hij hsecure hplain
    exact h ⟨i, urls[i], j, urls[j], hij, List.getElem?_eq_getElem hi, List.getElem?_eq_getElem hj,
      hsecure, hplain⟩

/-- **A fetch sends nothing in the clear after something over `https` exactly if it began over
`https`, or the servers do not lead it back.** The guard looks at the scheme the fetch began
with: over `http` it never refuses, whatever the redirects have come to. -/
theorem fetch_neverDowngrades_iff (lib : Library) (policy : WebFetchPolicy) (net : Net ε)
    (method : String) (url : Text) :
    NeverDowngrades lib (sends (fetch lib policy net method url).1) ↔
      Secure lib url ∨ ¬ FallsBack lib policy net method url := by
  rw [neverDowngrades_iff]
  by_cases hbegins : ∃ scheme, Begins lib net method url scheme
  · obtain ⟨scheme, hbegins⟩ := hbegins
    have hsent : ∀ {i v}, (sends (fetch lib policy net method url).1)[i]? = some v ↔
        Comes lib net scheme policy.maxRedirects 0 url i v ∧ Admitted lib net i v := by
      intro i v
      obtain ⟨host, answer, hfetch⟩ := fetch_begins policy hbegins
      have hiff := sends_iff lib policy net method scheme (Nat.zero_add policy.maxRedirects) url i v
      rw [Nat.zero_add] at hiff
      rw [hfetch, sends_resolved]
      exact hiff
    obtain ⟨p, hparsed, hscheme, hallowed, -⟩ := hbegins.2.choose_spec.choose_spec.1
    have hschemes : scheme = text "http" ∨ scheme = text "https" := by
      simpa [allowedSchemes] using hallowed
    rcases hschemes with rfl | rfl
    · have hinsecure : ¬ Secure lib url := by
        rintro ⟨q, hq, hs⟩
        obtain rfl : p = q := Option.some.inj (hparsed.symm.trans hq)
        rw [hs] at hscheme
        exact absurd hscheme (by decide)
      constructor
      · rintro h
        refine .inr ?_
        rintro ⟨-, i, v, j, w, hij, hv, hiv, hw, hjw, hsecure, hplain⟩
        exact h ⟨i, v, j, w, hij, hsent.mpr ⟨hv, hiv⟩, hsent.mpr ⟨hw, hjw⟩, hsecure, hplain⟩
      · rintro (h | h)
        · exact absurd h hinsecure
        · rintro ⟨i, v, j, w, hij, hv, hw, hsecure, hplain⟩
          obtain ⟨hcomes, hiv⟩ := hsent.mp hv
          obtain ⟨hcomes', hjw⟩ := hsent.mp hw
          exact h ⟨hbegins, i, v, j, w, hij, hcomes, hiv, hcomes', hjw, hsecure, hplain⟩
    · refine ⟨fun _ => .inl ⟨p, hparsed, hscheme⟩, fun _ => ?_⟩
      rintro ⟨i, v, j, w, hij, -, hw, -, hplain⟩
      obtain ⟨k, u, hredirects⟩ := (hsent.mp hw).1.redirected (by omega)
      exact hredirects.not_plain hplain
  · refine ⟨fun _ => .inr fun h => hbegins ⟨_, h.1⟩, fun _ => ?_⟩
    rw [(fetch_idle policy hbegins).1]
    rintro ⟨i, v, j, w, -, hv, -⟩
    cases hv

/-! ## A fetch that is led back -/

/-- A library for names in plain ASCII and one public address. -/
def plainLibrary : Library where
  lower := asciiLower
  netlocOk := fun _ => true
  bracketedOk := fun _ => true
  isPrivateOrBlockedIp := fun ip => ip ≠ text "93.184.216.34"
  isLoopbackIp := fun ip => ip = text "127.0.0.1"
  isSpace := fun c => c = char ' '
  shownSchemes := text "http, https"

def respond (statusCode : Nat) (location : String) :
    Except (TransportError Empty) (Response Empty) :=
  .ok { statusCode := statusCode, location := some (text location)
        contentType := some (text "text/html"), chunks := [], bodyFails := none }

/-- Servers that lead from `http` to `https` and back. -/
def zigzag : Net Empty where
  resolve := fun _ _ => .ok [text "93.184.216.34"]
  request := fun k _ =>
    if k = 0 then respond 301 "https://b.example/"
    else if k = 1 then respond 302 "http://c.example/"
    else respond 200 ""

def webPolicy : WebFetchPolicy where
  maxResponseBytes := 1048576
  maxRedirects := 5
  allowedContentTypes := [text "text/html", text "text/plain", text "application/json"]

theorem fetch_downgraded :
    ¬ NeverDowngrades plainLibrary
      (sends (fetch plainLibrary webPolicy zigzag "GET" (text "http://a.example/")).1) := by
  have hsent : sends (fetch plainLibrary webPolicy zigzag "GET" (text "http://a.example/")).1 =
      ["http://a.example/", "https://b.example/", "http://c.example/"].map text := by
    decide +kernel
  rw [neverDowngrades_iff, not_not, hsent]
  refine ⟨1, _, 2, _, by omega, rfl, rfl, ?_, ?_⟩
  · exact ⟨{ scheme := text "https", netloc := text "b.example", path := text "/" },
      by decide +kernel, rfl⟩
  · exact ⟨{ scheme := text "http", netloc := text "c.example", path := text "/" },
      by decide +kernel, rfl, by decide +kernel⟩

end Web

end Northstack
