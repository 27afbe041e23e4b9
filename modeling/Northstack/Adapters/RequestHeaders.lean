import Northstack.Domain.ModelProfile

/-!
# The headers of a request

`_build_headers` puts the static headers of a protocol under those of the profile, and the
credential over them. A dictionary tells names apart by their case, which a server does
not. A profile's validators refuse a header whose name looks like a secret's, but only
after splitting it where its case rises.

**Result.** `headers_right_iff`: the headers hold the credential and the required headers
once each, unless the profile writes the name of one of them in another way.
-/
namespace Northstack

namespace Config

open Gateway

/-! ## Building the headers -/

/-- `_AUTH_HEADERS`, `gateway.py:619-623` -/
def authHeaders : Gateway.Protocol → String × String
  | .openaiChat => ("Authorization", "Bearer ")
  | .anthropicMessages => ("x-api-key", "")
  | .geminiGenerateContent => ("x-goog-api-key", "")

/-- `_STATIC_HEADERS`, `gateway.py:624-626` -/
def staticHeaders : Gateway.Protocol → Mapping String String
  | .anthropicMessages => Mapping.empty.insert "anthropic-version" "2023-06-01"
  | _ => .empty

/-- The header that the key is written to, and what stands before it. `gateway.py:644-646` -/
def credentialHeader (p : ModelProfile) : String × String :=
  match p.authHeader with
  | some name => if name ≠ "" then (name, "") else authHeaders p.protocol
  | none => authHeaders p.protocol

/-- `_build_headers`, `gateway.py:631-648` -/
def buildHeaders (p : ModelProfile) (apiKey : String) : Mapping String String :=
  let headers := ((Mapping.empty.insert "Content-Type" "application/json").update
    (staticHeaders p.protocol)).update p.extraHeaders
  if apiKey ≠ "" then
    headers.insert (credentialHeader p).1 ((credentialHeader p).2 ++ apiKey)
  else headers

/-! ## Names without their case -/

/-- Two names of one header. -/
def sameHeader (a b : String) : Bool := a.toList.map lowerChar = b.toList.map lowerChar

/-- There is one header of this name, and it has this value. -/
def Only (headers : Mapping String String) (name value : String) : Prop :=
  ∃ written, (headers.keys.filter fun other => sameHeader other name) = {written} ∧
    headers.get? written = some value

/-- The headers that a server of the protocol asks for. -/
def requiredHeaders : Gateway.Protocol → List (String × String)
  | .anthropicMessages =>
    [("Content-Type", "application/json"), ("anthropic-version", "2023-06-01")]
  | _ => [("Content-Type", "application/json")]

/-- The credential and the required headers are there, each once. -/
structure HeadersRight (p : ModelProfile) (apiKey : String) : Prop where
  credential : Only (buildHeaders p apiKey) (credentialHeader p).1
    ((credentialHeader p).2 ++ apiKey)
  required : ∀ header ∈ requiredHeaders p.protocol,
    Only (buildHeaders p apiKey) header.1 header.2

/-- The profile writes the name of none of them in its own way, and sets none of the
required ones to another value. -/
structure Undisturbed (p : ModelProfile) (apiKey : String) : Prop where
  credential : ∀ name ∈ p.extraHeaders.keys, sameHeader name (credentialHeader p).1 = false
  required : ∀ name ∈ p.extraHeaders.keys, ∀ header ∈ requiredHeaders p.protocol,
    sameHeader name header.1 → name = header.1 ∧ p.extraHeaders.get? name = some header.2
  auth : ∀ header ∈ requiredHeaders p.protocol, sameHeader (credentialHeader p).1 header.1 →
    (credentialHeader p).1 = header.1 ∧ (credentialHeader p).2 ++ apiKey = header.2

variable {headers : Mapping String String} {name value apiKey : String} {p : ModelProfile}
  {lib : Platform}

theorem sameHeader_refl (name : String) : sameHeader name name = true := by
  unfold sameHeader
  exact decide_eq_true rfl

theorem sameHeader_comm {a b : String} : sameHeader a b = sameHeader b a := by
  unfold sameHeader
  simp only [eq_comm]

theorem only_iff (hname : name ∈ headers.keys) : Only headers name value ↔
    (∀ other ∈ headers.keys, sameHeader other name → other = name) ∧
      headers.get? name = some value := by
  have hself : name ∈ headers.keys.filter fun other => sameHeader other name :=
    Finset.mem_filter.mpr ⟨hname, sameHeader_refl name⟩
  constructor
  · intro h
    obtain ⟨written, hone, hvalue⟩ := h
    have hw : name = written := by
      rw [hone] at hself
      exact Finset.mem_singleton.mp hself
    subst hw
    refine ⟨?_, hvalue⟩
    intro other hother hsame
    apply Finset.mem_singleton.mp
    rw [← hone]
    exact Finset.mem_filter.mpr ⟨hother, hsame⟩
  · intro h
    obtain ⟨hall, hvalue⟩ := h
    refine ⟨name, ?_, hvalue⟩
    rw [Finset.eq_singleton_iff_unique_mem]
    refine ⟨hself, ?_⟩
    intro other hother
    obtain ⟨hmem, hsame⟩ := Finset.mem_filter.mp hother
    exact hall other hmem hsame

/-! ## What the validators keep out -/

theorem authHeaders_secret (protocol : Gateway.Protocol) :
    isSecretFieldName (authHeaders protocol).1 = true := by
  cases protocol <;> decide

/-- No header of a profile has the credential's name as it is written. -/
theorem ModelProfile.Valid.credential_notMem (h : p.Valid lib) :
    (credentialHeader p).1 ∉ p.extraHeaders.keys := by
  have hdefault : (authHeaders p.protocol).1 ∉ p.extraHeaders.keys := by
    intro hmem
    have hplain := h.headers.plain _ hmem
    rw [authHeaders_secret] at hplain
    cases hplain
  unfold credentialHeader
  split
  · next name hauth =>
    split
    · next hne =>
      intro hmem
      exact h.headers.apart name hauth hne (Finset.mem_image_of_mem _ hmem)
    · exact hdefault
  · exact hdefault

/-! ## What the headers are -/

/-- The headers before those of the profile. -/
def baseHeaders (protocol : Gateway.Protocol) : Mapping String String :=
  (Mapping.empty.insert "Content-Type" "application/json").update (staticHeaders protocol)

theorem get?_baseHeaders {protocol : Gateway.Protocol} :
    (baseHeaders protocol).get? name = some value ↔ (name, value) ∈ requiredHeaders protocol := by
  have hne : "Content-Type" ≠ "anthropic-version" := by decide
  cases protocol with
  | anthropicMessages =>
    simp only [baseHeaders, staticHeaders, requiredHeaders, Mapping.get?_update,
      Mapping.get?_insert, Mapping.get?_empty, List.mem_cons, Prod.mk.injEq, List.not_mem_nil,
      or_false]
    by_cases hv : name = "anthropic-version"
    · simp [hv, hne.symm, eq_comm]
    · simp [hv, eq_comm]
  | openaiChat | geminiGenerateContent =>
    simp [baseHeaders, staticHeaders, requiredHeaders, Mapping.get?_update, Mapping.get?_insert,
      eq_comm]

theorem mem_keys_baseHeaders {protocol : Gateway.Protocol} :
    name ∈ (baseHeaders protocol).keys ↔ ∃ value, (name, value) ∈ requiredHeaders protocol := by
  rw [← Mapping.isSome_get?, Option.isSome_iff_exists]
  simp only [get?_baseHeaders]

/-- The required headers differ by more than their case. -/
theorem required_apart {protocol : Gateway.Protocol} :
    ∀ a ∈ requiredHeaders protocol, ∀ b ∈ requiredHeaders protocol,
      sameHeader a.1 b.1 → a = b := by
  cases protocol <;> decide

theorem buildHeaders_key (hkey : apiKey ≠ "") : buildHeaders p apiKey =
    ((baseHeaders p.protocol).update p.extraHeaders).insert (credentialHeader p).1
      ((credentialHeader p).2 ++ apiKey) :=
  if_pos hkey

/-- A name of a header is the credential's, a required one's or one of the profile's. -/
theorem mem_buildHeaders (hkey : apiKey ≠ "") : name ∈ (buildHeaders p apiKey).keys ↔
    name = (credentialHeader p).1 ∨ (∃ value, (name, value) ∈ requiredHeaders p.protocol) ∨
      name ∈ p.extraHeaders.keys := by
  rw [buildHeaders_key hkey, Mapping.keys_insert, Finset.mem_insert, Mapping.keys_update,
    Finset.mem_union, mem_keys_baseHeaders]

theorem get?_buildHeaders (hkey : apiKey ≠ "") : (buildHeaders p apiKey).get? name =
    if name = (credentialHeader p).1 then some ((credentialHeader p).2 ++ apiKey)
    else (p.extraHeaders.get? name).or ((baseHeaders p.protocol).get? name) := by
  rw [buildHeaders_key hkey, Mapping.get?_insert, Mapping.get?_update]

/-! ## When the headers are right -/

theorem HeadersRight.undisturbed (h : HeadersRight p apiKey) (hvalid : p.Valid lib)
    (hkey : apiKey ≠ "") : Undisturbed p apiKey := by
  have hnot := hvalid.credential_notMem
  have hcred := (only_iff ((mem_buildHeaders hkey).mpr (.inl rfl))).mp h.credential
  have hrequired : ∀ header ∈ requiredHeaders p.protocol,
      (∀ other ∈ (buildHeaders p apiKey).keys, sameHeader other header.1 → other = header.1) ∧
        (buildHeaders p apiKey).get? header.1 = some header.2 := by
    intro header hmem
    exact (only_iff ((mem_buildHeaders hkey).mpr (.inr (.inl ⟨_, hmem⟩)))).mp
      (h.required header hmem)
  constructor
  · intro name hname
    by_contra hsame
    have heq := hcred.1 name ((mem_buildHeaders hkey).mpr (.inr (.inr hname)))
      (Bool.not_eq_false _ ▸ hsame)
    rw [heq] at hname
    exact hnot hname
  · intro name hname header hmem hsame
    obtain ⟨hone, hvalue⟩ := hrequired header hmem
    have heq := hone name ((mem_buildHeaders hkey).mpr (.inr (.inr hname))) hsame
    subst heq
    refine ⟨rfl, ?_⟩
    rw [get?_buildHeaders hkey, if_neg (by
      intro hc
      rw [hc] at hname
      exact hnot hname)] at hvalue
    cases hextra : p.extraHeaders.get? header.1 with
    | none => exact absurd hname (Mapping.get?_eq_none.mp hextra)
    | some value =>
      rw [hextra] at hvalue
      exact hvalue
  · intro header hmem hsame
    obtain ⟨hone, hvalue⟩ := hrequired header hmem
    have heq := hone _ ((mem_buildHeaders hkey).mpr (.inl rfl)) hsame
    refine ⟨heq, ?_⟩
    rw [get?_buildHeaders hkey, if_pos heq.symm] at hvalue
    exact Option.some.inj hvalue

theorem Undisturbed.headersRight (h : Undisturbed p apiKey) (hkey : apiKey ≠ "") :
    HeadersRight p apiKey := by
  constructor
  · rw [only_iff ((mem_buildHeaders hkey).mpr (.inl rfl))]
    constructor
    · intro other hother hsame
      rcases (mem_buildHeaders hkey).mp hother with heq | ⟨value, hmem⟩ | hextra
      · exact heq
      · exact (h.auth _ hmem (by rwa [sameHeader_comm])).1.symm
      · rw [h.credential other hextra] at hsame
        cases hsame
    · rw [get?_buildHeaders hkey, if_pos rfl]
  · intro header hmem
    rw [only_iff ((mem_buildHeaders hkey).mpr (.inr (.inl ⟨_, hmem⟩)))]
    constructor
    · intro other hother hsame
      rcases (mem_buildHeaders hkey).mp hother with heq | ⟨value, hother⟩ | hextra
      · rw [heq] at hsame ⊢
        exact (h.auth header hmem hsame).1
      · exact congrArg Prod.fst (required_apart _ hother header hmem hsame)
      · exact (h.required other hextra header hmem hsame).1
    · rw [get?_buildHeaders hkey]
      split
      · next heq => rw [(h.auth header hmem (by rw [heq]; exact sameHeader_refl _)).2]
      · cases hextra : p.extraHeaders.get? header.1 with
        | none => exact get?_baseHeaders.mpr hmem
        | some value =>
          have hkeys := Mapping.mem_keys_of_get? hextra
          have hsame := (h.required _ hkeys header hmem (sameHeader_refl _)).2
          rw [← hsame, hextra]
          rfl

/-- **When a stray entry displaces nothing.** For every profile that the validators accept
and every key, the headers of a request hold the credential's name once, without regard to
case, with the key behind the protocol's scheme, and each required header once with its
value, exactly if no header of the profile writes the name of one of these in another way
or gives a required header another value, and `auth_header` names none of them. -/
theorem headers_right_iff (lib : Platform) (p : ModelProfile) (hvalid : p.Valid lib)
    (apiKey : String) (hkey : apiKey ≠ "") : HeadersRight p apiKey ↔ Undisturbed p apiKey :=
  ⟨fun h => h.undisturbed hvalid hkey, fun h => h.headersRight hkey⟩

/-! ## A profile whose header is there twice -/

/-- A profile with a static header. -/
def headerProfile (name : String) : ModelProfile where
  name := "main"
  protocol := .openaiChat
  baseUrl := "https://example.com/v1"
  model := "m"
  apiKeyEnv := some "KEY"
  maxConcurrency := 1
  extraHeaders := Mapping.empty.insert name "stray"

theorem headers_right_title :
    (headerProfile "X-Title").Valid asciiPlatform ∧ "KEY" ≠ "" ∧
      HeadersRight (headerProfile "X-Title") "KEY" := by
  have hvalid : (headerProfile "X-Title").Valid asciiPlatform := by decide +kernel
  refine ⟨hvalid, by decide, ?_⟩
  rw [headers_right_iff asciiPlatform _ hvalid "KEY" (by decide)]
  constructor <;> decide +kernel

/-- The validators accept a header whose name is the credential's with a capital letter in
the middle, and the request has both. -/
theorem stray_doubles : ∃ (p : ModelProfile) (apiKey : String),
    p.Valid asciiPlatform ∧ apiKey ≠ "" ∧ ¬ HeadersRight p apiKey ∧
      (buildHeaders p apiKey).keys = {"Content-Type", "AuthoriZation", "Authorization"} := by
  have hvalid : (headerProfile "AuthoriZation").Valid asciiPlatform := by decide +kernel
  have hkeys : (buildHeaders (headerProfile "AuthoriZation") "KEY").keys =
      {"Content-Type", "AuthoriZation", "Authorization"} := by decide +kernel
  refine ⟨headerProfile "AuthoriZation", "KEY", hvalid, by decide, ?_, hkeys⟩
  intro hright
  have hfalse := (hright.undisturbed hvalid (by decide)).credential "AuthoriZation"
    (by decide +kernel)
  revert hfalse
  decide +kernel

end Config

end Northstack
