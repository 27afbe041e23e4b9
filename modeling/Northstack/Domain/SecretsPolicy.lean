import Northstack.Core.Json
import Northstack.Core.PyText

/-!
# Secret values and secret field names

Mirrors the classifiers of domain/secrets_policy.py that the ledger redacts
with, and the ledger's `_redact_recursive` (adapters/sqlite_ledger.py:38-60).
-/
namespace Northstack

def isAlnum (c : Char) : Bool := ('a' ≤ c && c ≤ 'z') || ('A' ≤ c && c ≤ 'Z') || ('0' ≤ c && c ≤ '9')

/-- ASCII lower case, the only case mapping the patterns need. -/
def lowerChar (c : Char) : Char :=
  if 'A' ≤ c && c ≤ 'Z' then Char.ofNat (c.toNat + 32) else c

/-- The text begins with `pat` and then one more character for which `next` holds. -/
def matchesHere (pat : List Char) (next : Char → Bool) : List Char → Bool
  | [] => false
  | c :: cs => match pat with
    | [] => next c
    | p :: ps => p = c && matchesHere ps next cs

/-- `re.search` of a literal followed by one more character. -/
def searchFor (pat : List Char) (next : Char → Bool) : List Char → Bool
  | [] => false
  | c :: cs => matchesHere pat next (c :: cs) || searchFor pat next cs

/-- `looks_like_secret_value` (secrets_policy.py:68-78) -/
def looksLikeSecretValue (value : String) : Bool :=
  let cs := value.toList
  searchFor "bearer".toList PyText.isSpace (cs.map lowerChar) ||
    searchFor "sk-".toList isAlnum cs || searchFor "ghp_".toList isAlnum cs ||
    searchFor "gho_".toList isAlnum cs

def secretFields : List String :=
  ["api_key", "apikey", "secret", "password", "passwd", "pass", "token", "authorization", "auth",
   "private_key", "credentials", "credential", "cookie", "signature", "sig"]

def secretSuffixes : List String :=
  ["_secret", "_password", "_passwd", "_passphrase", "_credential", "_credentials", "_cookie",
   "_signature", "_token", "_api_key", "_private_key", "_secret_key", "_access_key"]

/-- `re.sub(r"([a-z0-9])([A-Z])", r"\1_\2", name)` -/
def splitCamel : List Char → List Char
  | [] => []
  | [c] => [c]
  | c :: d :: cs =>
    if (('a' ≤ c && c ≤ 'z') || ('0' ≤ c && c ≤ '9')) && 'A' ≤ d && d ≤ 'Z' then
      c :: '_' :: splitCamel (d :: cs)
    else c :: splitCamel (d :: cs)

/-- `re.sub(r"[^A-Za-z0-9]+", "_", name)`; `sep` says a separator was just written. -/
def collapse : Bool → List Char → List Char
  | _, [] => []
  | sep, c :: cs =>
    if isAlnum c then c :: collapse false cs
    else if sep then collapse true cs
    else '_' :: collapse true cs

def stripUnderscores (cs : List Char) : List Char :=
  ((cs.dropWhile (· = '_')).reverse.dropWhile (· = '_')).reverse

/-- `is_secret_field_name` (secrets_policy.py:91-94) -/
def isSecretFieldName (name : String) : Bool :=
  let normalized := (stripUnderscores (collapse false (splitCamel name.toList))).map lowerChar
  String.ofList normalized ∈ secretFields ||
    secretSuffixes.any fun suffix => suffix.toList.reverse.isPrefixOf normalized.reverse

def redacted : String := "[REDACTED]"

/-- A string value as the ledger stores it. -/
def redactText (s : String) : String := if looksLikeSecretValue s then redacted else s

mutual

/-- `_redact_recursive` -/
def redactRecursive : Json → Json
  | .obj fields => .obj (redactFields fields)
  | .arr xs => .arr (redactItems xs)
  | .str s => .str (redactText s)
  | j => j

def redactItems : List Json → List Json
  | [] => []
  | x :: xs => redactRecursive x :: redactItems xs

def redactFields : List (String × Json) → List (String × Json)
  | [] => []
  | (k, v) :: fs =>
    (k, if isSecretFieldName k then .str redacted else redactRecursive v) :: redactFields fs

end

theorem redactText_of_not_secret {s : String} (h : looksLikeSecretValue s = false) :
    redactText s = s := by
  simp [redactText, h]

theorem redactText_clean (s : String) : looksLikeSecretValue (redactText s) = false := by
  unfold redactText
  split
  · decide
  · rename_i h
    exact Bool.eq_false_iff.mpr h

/-- What is redacted stays as it is. -/
theorem redactText_idem (s : String) : redactText (redactText s) = redactText s :=
  redactText_of_not_secret (redactText_clean s)

example : redactText "task-1" = "[REDACTED]" := by decide

end Northstack
