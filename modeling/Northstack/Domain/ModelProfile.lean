import Northstack.Adapters.GatewayStreams
import Northstack.Adapters.WebRedirects
import Northstack.Core.Mapping
import Northstack.Domain.SecretsPolicy

/-!
# Model profiles

`ModelProfile` of config.py with all its fields, and what its validators check. A profile
is frozen and every one there is has passed them. A float is the number it stands for, so
that the two zeros are one.

**Result.** `ModelProfile.Valid.headers`: what the headers of a profile have passed.
-/
namespace Northstack

namespace Config

open TextFiles Gateway

/-! ## What the validators raise -/

/-- Why a value is no instance of its model: it breaks a constraint of a field, a validator
raises a `ValueError` with its message, several items have one name, or a function of the
library raises. -/
inductive ConfigError
  | field (name : String)
  | value (message : String)
  | duplicates (kind : String) (names : Finset String)
  | library
deriving DecidableEq

/-- What is left to the library: what the web policy needs, and `str.casefold` beyond
ASCII. -/
structure Platform extends Web.Library where
  foldChar : Char → List Char

/-- A library for names in plain ASCII. -/
def asciiPlatform : Platform := { Web.plainLibrary with foldChar := fun c => [c] }

/-- `if not c: raise e` -/
def require (c : Prop) [Decidable c] (e : ConfigError) : Except ConfigError Unit :=
  if c then .ok () else .error e

@[simp] theorem require_ok {c : Prop} [Decidable c] {e : ConfigError} :
    require c e = .ok () ↔ c := by
  unfold require
  split <;> simp [*]

/-- One check after the other. -/
theorem check_bind_ok {x : Except ConfigError Unit} {α : Type} {f : Unit → Except ConfigError α}
    {a : α} : (x >>= f) = .ok a ↔ x = .ok () ∧ f () = .ok a := by
  cases x with
  | error e =>
    constructor
    · intro h
      cases h
    · intro h
      cases h.1
  | ok u => simp only [true_and]; rfl

/-- `str.casefold` -/
def casefold (lib : Platform) (s : String) : String :=
  String.ofList (s.toList.flatMap fun c => if c.toNat < 128 then [lowerChar c] else lib.foldChar c)

/-! ## The model -/

/-- The values of `token_limit_param` -/
inductive TokenLimitParam
  | maxTokens
  | maxCompletionTokens
deriving DecidableEq, Repr

def TokenLimitParam.value : TokenLimitParam → String
  | .maxTokens => "max_tokens"
  | .maxCompletionTokens => "max_completion_tokens"

/-- `ModelProfile`, `config.py:101-197` -/
structure ModelProfile where
  name : String
  protocol : Gateway.Protocol
  baseUrl : String
  model : String
  /-- `env_var` of the `SecretEnvRef` -/
  apiKeyEnv : Option String := none
  allowInsecureHttp : Bool := false
  roles : Finset Role := {.worker}
  capabilities : Finset Capability := {.toolUse}
  maxConcurrency : Int
  requestsPerMinute : Int := 60
  contextWindowTokens : Int := 128000
  maxOutputTokens : Int := 4096
  requestTimeoutSeconds : ℚ := 300
  strictStreamCompletion : Bool := true
  transportRetries : Int := 2
  transportRetryBackoffSeconds : List ℚ := [3 / 2, 6]
  inputPricePerMillionUsd : ℚ := 0
  outputPricePerMillionUsd : ℚ := 0
  authHeader : Option String := none
  extraHeaders : Mapping String String := .empty
  extraQuery : Mapping String String := .empty
  tokenLimitParam : TokenLimitParam := .maxTokens
deriving DecidableEq

/-! ## Names -/

/-- `_SAFE_IDENTIFIER`: a letter or digit, and then letters, digits, `_`, `.` and `-`. -/
def safeIdentifier (s : String) : Bool :=
  match s.toList with
  | [] => false
  | c :: cs => isAlnum c && cs.all fun c => isAlnum c || c ∈ ['_', '.', '-']

/-- `^[A-Za-z_][A-Za-z0-9_]*$` -/
def envName (s : String) : Bool :=
  match s.toList with
  | [] => false
  | c :: cs =>
    (isAlnum c && !('0' ≤ c && c ≤ '9') || c = '_') && cs.all fun c => isAlnum c || c = '_'

def headerChar (c : Char) : Bool :=
  isAlnum c || c ∈ ['!', '#', '$', '%', '&', '\'', '*', '+', '-', '.', '^', '_', '|', '~'] ||
    c.toNat = 0x60

/-- `_HEADER_NAME` -/
def headerName (s : String) : Bool := s.toList ≠ [] && s.toList.all headerChar

/-- A carriage return, a line feed or a null stands in the text. -/
def hasControl (s : String) : Bool := s.toList.any fun c => c ∈ ['\r', '\n', '\x00']

/-- `sorted(names)` -/
def sortNames (names : Finset String) : List String := names.sort (· ≤ ·)

/-- `", ".join(sorted(names))` -/
def sortedNames (names : Finset String) : String := ", ".intercalate (sortNames names)

section

variable (lib : Platform)

/-! ## The validators -/

/-- The names of static parameters that may not carry a secret. -/
def collisions (v : Mapping String String) : Finset String :=
  v.keys.filter fun name => isSecretFieldName name

/-- `_reject_credential_headers`, `config.py:199-217` -/
def rejectCredentialHeaders (v : Mapping String String) : Except ConfigError Unit := do
  require ((v.keys.image (casefold lib)).card = v.keys.card)
    (.value "extra_headers names must be unique case-insensitively")
  let invalid := v.keys.filter fun name => !headerName name
  require (invalid = ∅)
    (.value ("extra_headers contains invalid header names: " ++ sortedNames invalid))
  require (∀ name ∈ v.keys, ∀ value ∈ v.get? name, ¬ hasControl value)
    (.value "extra_headers values must not contain control characters")
  require (collisions v = ∅)
    (.value ("extra_headers must not carry credentials: " ++ sortedNames (collisions v) ++
      "; use api_key_env (with auth_header to change the header name)"))

/-- `_validate_auth_header`, `config.py:219-224` -/
def validateAuthHeader (v : Option String) : Except ConfigError Unit :=
  require (∀ name ∈ v, headerName name) (.value "auth_header is not a valid HTTP header name")

/-- `_reject_credential_query`, `config.py:226-233` -/
def rejectCredentialQuery (v : Mapping String String) : Except ConfigError Unit :=
  require (collisions v = ∅)
    (.value ("extra_query must not carry credentials: " ++ sortedNames (collisions v) ++
      "; use api_key_env"))

/-- `validate_provider_url`, `url_policy.py:21-48` -/
def validateProviderUrl (url : String) (credentialed allowInsecureHttp : Bool) :
    Except ConfigError Unit :=
  match Urls.urlparse lib.toTables (text url) [] with
  | none => .error .library
  | some parsed => do
    let hostname := parsed.hostname lib.toTables
    require (parsed.scheme = text "http" ∨ parsed.scheme = text "https")
      (.value "base_url must use http or https")
    require (parsed.username.getD [] = [] ∧ parsed.password.getD [] = [])
      (.value "base_url must not contain credentials")
    require (parsed.query = []) (.value "base_url must not contain a query string")
    require (parsed.fragment = []) (.value "base_url must not contain a fragment")
    require (hostname.getD [] ≠ []) (.value "base_url must include a hostname")
    require (¬ (credentialed ∧ parsed.scheme = text "http" ∧
        ¬ hostname.any (Web.isLoopbackHost lib.toLibrary) ∧ ¬ allowInsecureHttp))
      (.value ("credentialed non-loopback base_url must use https; " ++
        "set allow_insecure_http=true only for a trusted proxy"))

/-- `validate_base_url_policy`, `config.py:248-261` -/
def ModelProfile.validateBaseUrlPolicy (p : ModelProfile) : Except ConfigError Unit := do
  require (p.transportRetries = 0 ∨ p.transportRetryBackoffSeconds ≠ [])
    (.value "transport retries require at least one backoff duration")
  require (∀ name ∈ p.authHeader,
      name ≠ "" → casefold lib name ∉ p.extraHeaders.keys.image (casefold lib))
    (.value "auth_header must not collide with extra_headers")
  validateProviderUrl lib p.baseUrl p.apiKeyEnv.isSome p.allowInsecureHttp

/-- What is checked of a profile, field by field, `config.py:110-261`. Of several errors the
first is raised. -/
def ModelProfile.check (p : ModelProfile) : Except ConfigError Unit := do
  require (p.name.length ≤ 64 ∧ safeIdentifier p.name) (.field "name")
  require (p.baseUrl ≠ "") (.field "base_url")
  require (p.model ≠ "") (.field "model")
  require (∀ name ∈ p.apiKeyEnv, name.length ≤ 256 ∧ envName name) (.field "api_key_env.env_var")
  require (1 ≤ p.maxConcurrency) (.field "max_concurrency")
  require (1 ≤ p.requestsPerMinute) (.field "requests_per_minute")
  require (1 ≤ p.contextWindowTokens) (.field "context_window_tokens")
  require (1 ≤ p.maxOutputTokens) (.field "max_output_tokens")
  require (0 < p.requestTimeoutSeconds) (.field "request_timeout_seconds")
  require (0 ≤ p.transportRetries ∧ p.transportRetries ≤ 5) (.field "transport_retries")
  require (p.transportRetryBackoffSeconds.length ≤ 5 ∧
    ∀ x ∈ p.transportRetryBackoffSeconds, 0 ≤ x) (.field "transport_retry_backoff_seconds")
  require (0 ≤ p.inputPricePerMillionUsd) (.field "input_price_per_million_usd")
  require (0 ≤ p.outputPricePerMillionUsd) (.field "output_price_per_million_usd")
  validateAuthHeader p.authHeader
  rejectCredentialHeaders lib p.extraHeaders
  rejectCredentialQuery p.extraQuery
  p.validateBaseUrlPolicy lib

/-- There is such an instance. -/
def ModelProfile.Valid (p : ModelProfile) : Prop := p.check lib = .ok ()

instance (p : ModelProfile) : Decidable (p.Valid lib) :=
  inferInstanceAs (Decidable (p.check lib = .ok ()))

/-- `ModelProfile(...)` with these values. -/
def ModelProfile.build (p : ModelProfile) : Except ConfigError ModelProfile := do
  p.check lib
  return p

end

/-! ## What a profile has passed -/

variable {lib : Platform} {p : ModelProfile}

/-- What the headers of a profile have passed. -/
structure ModelProfile.HeadersChecked (lib : Platform) (p : ModelProfile) : Prop where
  auth : ∀ name ∈ p.authHeader, headerName name
  extra : ∀ name ∈ p.extraHeaders.keys, headerName name
  plain : ∀ name ∈ p.extraHeaders.keys, isSecretFieldName name = false
  apart : ∀ name ∈ p.authHeader, name ≠ "" →
    casefold lib name ∉ p.extraHeaders.keys.image (casefold lib)

theorem collisions_eq_empty {v : Mapping String String} :
    collisions v = ∅ ↔ ∀ name ∈ v.keys, isSecretFieldName name = false := by
  unfold collisions
  rw [Finset.filter_eq_empty_iff]
  simp

theorem ModelProfile.Valid.headers (h : p.Valid lib) : p.HeadersChecked lib := by
  unfold ModelProfile.Valid ModelProfile.check at h
  simp only [check_bind_ok, require_ok] at h
  obtain ⟨-, -, -, -, -, -, -, -, -, -, -, -, -, hauth, hheaders, -, hpolicy⟩ := h
  unfold validateAuthHeader at hauth
  unfold rejectCredentialHeaders at hheaders
  unfold validateBaseUrlPolicy at hpolicy
  simp only [check_bind_ok, require_ok] at hauth hheaders hpolicy
  obtain ⟨-, hnames, -, hplain⟩ := hheaders
  obtain ⟨-, hapart, -⟩ := hpolicy
  refine ⟨hauth, ?_, collisions_eq_empty.mp hplain, hapart⟩
  intro name hname
  rw [Finset.filter_eq_empty_iff] at hnames
  simpa using hnames hname

end Config

end Northstack
