import Northstack.Adapters.WebFetch

/-!
# Every request of a web fetch is vetted

The server chooses where a fetch goes next, and the resolver may answer differently
each time it is asked. `fetch` asks it again before every request, for the host of
the very URL it is about to request.

**Result** (`fetch_vets`). Whatever the URL, the resolver and the servers do: every
request goes to a well formed URL, right after its host was resolved for that turn to
addresses none of which is blocked; at most one request more than redirects are
allowed is sent; and the body that is returned is a prefix of the body served, within
the limit.
-/
namespace Northstack

namespace Web

open TextFiles Urls

variable {ε : Type} {lib : Library} {policy : WebFetchPolicy} {net : Net ε} {method : String}
  {url host : Text} {ips : List Text} {log : List (Traffic ε)} {first : Nat}

/-! ## Requests -/

/-- Every request of the log is vetted: right before it its host was resolved, by the
resolution of its own turn, to addresses none of which is blocked. -/
def AllVetted (lib : Library) (net : Net ε) (first : Nat) (log : List (Traffic ε)) : Prop :=
  ∀ pre v reply post, log = pre ++ .sent v reply :: post →
    ∃ earlier host ips, pre = earlier ++ [.resolved host (.ok ips)] ∧
      Vetted lib net (first + (sends pre).length) v host ips

theorem AllVetted.of_sends (h : sends log = []) : AllVetted lib net first log := by
  intro pre v reply post hlog
  rw [hlog] at h
  simp at h

/-- A resolution in front of the requests changes nothing. -/
theorem AllVetted.resolved (h : AllVetted lib net first log)
    (answer : Except (ResolverError ε) (List Text)) :
    AllVetted lib net first (.resolved host answer :: log) := by
  intro pre v reply post hlog
  rcases List.cons_eq_append_iff.mp hlog with ⟨-, hcons⟩ | ⟨pre', rfl, hlog'⟩
  · cases hcons
  · obtain ⟨earlier, host', ips, rfl, hvetted⟩ := h pre' v reply post hlog'
    exact ⟨.resolved host answer :: earlier, host', ips, rfl, hvetted⟩

/-- A turn with its request, and the requests of the turns after it. -/
theorem AllVetted.turn (hvetted : Vetted lib net first url host ips)
    (h : AllVetted lib net (first + 1) log) (reply : Except (TransportError ε) (Response ε)) :
    AllVetted lib net first (.resolved host (.ok ips) :: .sent url reply :: log) := by
  intro pre v reply' post hlog
  rcases List.cons_eq_append_iff.mp hlog with ⟨-, hcons⟩ | ⟨pre', rfl, hlog'⟩
  · cases hcons
  rcases List.cons_eq_append_iff.mp hlog' with ⟨rfl, hcons⟩ | ⟨pre'', rfl, hlog''⟩
  · cases hcons
    exact ⟨[], host, ips, rfl, hvetted⟩
  · obtain ⟨earlier, host', ips', rfl, hvetted'⟩ := h pre'' v reply' post hlog''
    refine ⟨.resolved host (.ok ips) :: .sent url reply :: earlier, host', ips', rfl, ?_⟩
    have hcount : first + (sends (.resolved host (.ok ips) :: .sent url reply ::
        (earlier ++ [.resolved host' (.ok ips')]))).length =
        first + 1 + (sends (earlier ++ [.resolved host' (.ok ips')])).length := by
      simp only [sends_resolved, sends_sent, List.length_cons]
      omega
    rw [hcount]
    exact hvetted'

/-! ## The body -/

theorem foldl_append_prefix (chunks : List ByteArray) (body : ByteArray) :
    ∃ rest, chunks.foldl (· ++ ·) body = body ++ rest := by
  induction chunks generalizing body with
  | nil => exact ⟨ByteArray.empty, (ByteArray.append_empty).symm⟩
  | cons chunk chunks ih =>
    obtain ⟨rest, hrest⟩ := ih (body ++ chunk)
    exact ⟨chunk ++ rest, by rw [List.foldl_cons, hrest, ByteArray.append_assoc]⟩

/-- What is read is a prefix of what is served, within the limit. -/
theorem readBody_prefix {limit : Nat} {fails : Option (TransportError ε)} {chunks : List ByteArray}
    {body : ByteArray} {total : Nat} {out : Body} (htotal : total = body.size)
    (hlimit : body.size ≤ limit) (h : readBody limit fails chunks body total = .ok out) :
    out.data.size ≤ limit ∧ ∃ rest, chunks.foldl (· ++ ·) body = out.data ++ rest := by
  induction chunks generalizing body total with
  | nil =>
    have hdata : out.data = body := by
      unfold readBody at h
      split at h
      · cases h
        rfl
      · cases h
      · cases h
      · cases h
        rfl
      · cases h
        rfl
    rw [hdata]
    exact ⟨hlimit, foldl_append_prefix [] body⟩
  | cons chunk chunks ih =>
    unfold readBody at h
    split at h
    · rename_i hfits
      have hsize : (body ++ chunk).size = body.size + chunk.size := ByteArray.size_append
      rw [List.foldl_cons]
      exact ih (by omega) (by omega) h
    · cases h
      exact ⟨hlimit, foldl_append_prefix (chunk :: chunks) body⟩

/-- The result carries nothing, or a prefix within the limit of what is served last. -/
def Returns (policy : WebFetchPolicy) (log : List (Traffic ε)) (r : ToolResult) : Prop :=
  r.data.size ≤ policy.maxResponseBytes ∧
    (r.data = ByteArray.empty ∨ ∃ v response rest,
      log.getLast? = some (.sent v (.ok response)) ∧ response.served = r.data ++ rest)

theorem Returns.empty {r : ToolResult} (h : r.data = ByteArray.empty) : Returns policy log r := by
  refine ⟨?_, .inl h⟩
  rw [h, ByteArray.size_empty]
  exact Nat.zero_le _

/-- The requests in front change nothing of what is returned. -/
theorem Returns.append {r : ToolResult} (earlier : List (Traffic ε)) (h : Returns policy log r) :
    Returns policy (earlier ++ log) r := by
  obtain ⟨hsize, hempty | ⟨v, response, rest, hlast, hserved⟩⟩ := h
  · exact ⟨hsize, .inl hempty⟩
  · refine ⟨hsize, .inr ⟨v, response, rest, ?_, hserved⟩⟩
    rw [List.getLast?_append, hlast]
    rfl

theorem finish_returns {hops : Nat} {response : Response ε} {r : ToolResult}
    (hlast : log.getLast? = some (.sent url (.ok response)))
    (h : finish lib policy method hops url response = .ok r) : Returns policy log r := by
  unfold finish at h
  simp only at h
  split at h
  · cases h
    exact .empty rfl
  split at h
  · cases h
    exact .empty rfl
  split at h
  · cases h
    exact .empty rfl
  split at h
  · cases h
  · rename_i body hbody
    cases h
    obtain ⟨hsize, rest, hserved⟩ := readBody_prefix ByteArray.size_empty.symm
      (by rw [ByteArray.size_empty]; exact Nat.zero_le _) hbody
    exact ⟨hsize, .inr ⟨url, response, rest, hlast, hserved⟩⟩

theorem Closes.returns {original : Text} {left hops : Nat} {out : Except (Raised ε) ToolResult}
    {r : ToolResult} (h : Closes lib policy net method original left hops url out)
    (hlast : log.getLast? = some (.sent url (net.request hops url))) (hout : out = .ok r) :
    Returns policy log r := by
  cases h with
  | stream e hreply => cases hout
  | undocumented e hreply => cases hout
  | unanswered e message hreply hstream hother =>
    cases hout
    exact .empty rfl
  | exhausted response message hreply hstatus hleft =>
    cases hout
    exact .empty rfl
  | stranded response out hreply hstatus hleft htarget =>
    rw [hout] at htarget
    unfold redirectTarget at htarget
    simp only at htarget
    split at htarget
    · cases htarget
      exact .empty rfl
    split at htarget
    · cases htarget
    split at htarget
    · cases htarget
    split at htarget
    · cases htarget
      exact .empty rfl
    · cases htarget
  | finished response hreply hstatus =>
    rw [hreply] at hlast
    exact finish_returns hlast hout

/-! ## The loop -/

/-- What the turns from one on have done and return. -/
theorem fetchLoop_vets (lib : Library) (policy : WebFetchPolicy) (net : Net ε) (method : String)
    (original : Text) (left hops : Nat) (url : Text) :
    AllVetted lib net hops (fetchLoop lib policy net method original left hops url).1 ∧
      (sends (fetchLoop lib policy net method original left hops url).1).length ≤ left + 1 ∧
      ∀ r, (fetchLoop lib policy net method original left hops url).2 = .ok r →
        Returns policy (fetchLoop lib policy net method original left hops url).1 r := by
  induction left using Nat.strong_induction_on generalizing hops url with
  | _ left ih =>
    by_cases hadmitted : Admitted lib net hops url
    · obtain ⟨host, ips, hvetted, ⟨more, next, hleft, -, hloop⟩ | ⟨-, out, hcloses, hloop⟩⟩ :=
        fetchLoop_admitted policy method original left hadmitted
      · obtain ⟨hall, hcount, hreturns⟩ := ih more (by omega) (hops + 1) next
        rw [hloop]
        refine ⟨.turn hvetted hall _, ?_, fun r hr => (hreturns r hr).append [_, _]⟩
        simp only [sends_resolved, sends_sent, List.length_cons]
        omega
      · rw [hloop]
        exact ⟨.turn hvetted (.of_sends rfl) _, by simp, fun r hr => hcloses.returns rfl hr⟩
    · obtain ⟨traffic, out, hloop, hsends, hout, -⟩ :=
        fetchLoop_refused policy method original left hadmitted
      rw [hloop]
      exact ⟨.of_sends hsends, by simp [hsends], fun r hr => .empty (hout r hr).2⟩

/-- **Every request is vetted, requests are bounded, and the body is a bounded prefix of
the one served.** The resolver and the transport are arbitrary, so this holds for every
chain of redirects and every chunking of a body. -/
theorem fetch_vets (lib : Library) (policy : WebFetchPolicy) (net : Net ε) (method : String)
    (url : Text) :
    AllVetted lib net 0 (fetch lib policy net method url).1 ∧
      (sends (fetch lib policy net method url).1).length ≤ policy.maxRedirects + 1 ∧
      ∀ r, (fetch lib policy net method url).2 = .ok r →
        Returns policy (fetch lib policy net method url).1 r := by
  unfold fetch
  split
  · refine ⟨.of_sends rfl, by simp, ?_⟩
    intro r hr
    cases hr
    exact .empty rfl
  split
  · refine ⟨.of_sends rfl, by simp, ?_⟩
    intro r hr
    cases hr
  · refine ⟨.of_sends rfl, by simp, ?_⟩
    intro r hr
    cases hr
    exact .empty rfl
  simp only
  split
  · refine ⟨.of_sends rfl, by simp, ?_⟩
    intro r hr
    cases hr
  · refine ⟨.of_sends rfl, by simp, ?_⟩
    intro r hr
    cases hr
    exact .empty rfl
  · rename_i scheme host _ _ _
    obtain ⟨hall, hcount, hreturns⟩ :=
      fetchLoop_vets lib policy net method scheme policy.maxRedirects 0 url
    exact ⟨hall.resolved _, hcount, fun r hr => (hreturns r hr).append [_]⟩

end Web

end Northstack
