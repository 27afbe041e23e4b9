import Northstack.Core.TextFiles
import Northstack.Domain.SecretsPolicy

/-!
# Sensitive names of environment variables

`is_sensitive_name` writes one underscore for every run of characters that are no
letters or digits, and searches what it gets for a keyword, perhaps in the plural:
between separators, or behind a letter and at the end.

A keyword that follows a letter and is followed by a separator is found by neither
branch, nor is one that follows a digit.

**Result.** `rejects_iff`: the names with a keyword at the end of a word that an
allowlist refuses.
-/
namespace Northstack

open TextFiles

/-- `_SENSITIVE_KEYWORDS` (secrets_policy.py:13-23) -/
def sensitiveKeywords : List String :=
  ["KEY", "TOKEN", "SECRET", "PASSWORD", "PASSWD", "AUTH", "CREDENTIAL", "COOKIE", "SIGNATURE"]

/-- `_SENSITIVE_EXACT_NAMES` -/
def sensitiveExactNames : List (List Char) := ["sig".toList]

/-- The texts `(?:KEY|TOKEN|…)S?` matches, in lower case. -/
def keywordForms : List (List Char) :=
  sensitiveKeywords.flatMap fun keyword =>
    [keyword.toList.map lowerChar, keyword.toList.map lowerChar ++ ['s']]

/-- The character, if it is one of `[A-Za-z0-9]`. -/
def alnum? : CodePoint → Option Char
  | .scalar c => if isAlnum c then some c else none
  | .surrogate _ => none

/-- `re.sub(r"[^A-Za-z0-9]+", "_", name)`; `sep` says a separator was just written. -/
def normalizeName : Bool → Text → List Char
  | _, [] => []
  | sep, c :: cs =>
    match alnum? c with
    | some c => c :: normalizeName false cs
    | none => if sep then normalizeName true cs else '_' :: normalizeName true cs

def isLetter (c : Char) : Bool := ('a' ≤ c && c ≤ 'z') || ('A' ≤ c && c ≤ 'Z')

/-! ## The pattern -/

/-- What may follow a match of `(?:KEY|TOKEN|…)S?`. -/
def keywordRests (cs : List Char) : List (List Char) :=
  keywordForms.filterMap fun form =>
    if form.isPrefixOf (cs.map lowerChar) then some (cs.drop form.length) else none

/-- `(?:_|$)` -/
def closes (rest : List Char) : Bool := rest.head?.all (· = '_')

/-- `(?:^|_)(?:KEY|TOKEN|…)S?(?:_|$)` matches here; `first` says that here is the start. -/
def matchesSeparated (first : Bool) (cs : List Char) : Bool :=
  (first && (keywordRests cs).any closes) ||
    (cs.head? = some '_' && (keywordRests cs.tail).any closes)

/-- `[A-Za-z]+(?:KEY|TOKEN|…)S?$` matches here. -/
def matchesTrailing : List Char → Bool
  | [] => false
  | c :: cs => isLetter c && ((keywordRests cs).any List.isEmpty || matchesTrailing cs)

/-- `_SENSITIVE_PATTERNS.search` from here on (secrets_policy.py:61-65). -/
def searchSensitive (first : Bool) : List Char → Bool
  | [] => matchesSeparated first []
  | c :: cs =>
    matchesSeparated first (c :: cs) || matchesTrailing (c :: cs) || searchSensitive false cs

/-- `is_sensitive_name` (secrets_policy.py:82-88) -/
def isSensitiveName (name : Text) : Bool :=
  let normalized := normalizeName false name
  sensitiveExactNames.contains (normalized.map lowerChar) || searchSensitive true normalized

/-- `is_sensitive_env_name` (secrets_policy.py:97-99) -/
def isSensitiveEnvName (name : Text) : Bool := isSensitiveName name

/-- `validate_env_allowlist` (secrets_policy.py:102-111), what remains to be checked -/
def checkEnvNames : List Text → Except Text Unit
  | [] => .ok ()
  | name :: names =>
    if isSensitiveEnvName name then
      .error (text "Env var '" ++ name ++ text "' matches a sensitive pattern (" ++
        text (PyText.join "/" sensitiveKeywords) ++
        text ") and is not allowed in env_allowlist")
    else checkEnvNames names

def validateEnvAllowlist (names : List Text) : Except Text (List Text) := do
  checkEnvNames names
  return names

/-! ## What the pattern matches -/

/-- One of the keywords in any case, perhaps with an S. -/
def IsKeyword (word : List Char) : Prop := word.map lowerChar ∈ keywordForms

variable {cs p q word rest : List Char} {c : Char} {first sep : Bool} {name pre post : Text}

theorem IsKeyword.length_pos (h : IsKeyword word) : 0 < word.length := by
  have hlong : ∀ form ∈ keywordForms, 0 < form.length := by decide
  have := hlong _ h
  rwa [List.length_map] at this

theorem lowerChar_isAlnum (h : isAlnum (lowerChar c) = true) : isAlnum c = true := by
  unfold lowerChar at h
  split at h
  · rename_i hupper
    simp only [isAlnum, hupper, Bool.or_true, Bool.true_or]
  · exact h

theorem IsKeyword.alnum (h : IsKeyword word) (hc : c ∈ word) : isAlnum c = true := by
  have hall : ∀ form ∈ keywordForms, form.all isAlnum = true := by decide +kernel
  exact lowerChar_isAlnum (List.all_eq_true.mp (hall _ h) _ (List.mem_map_of_mem hc))

theorem mem_keywordRests : rest ∈ keywordRests cs ↔ ∃ word, IsKeyword word ∧ cs = word ++ rest := by
  unfold keywordRests IsKeyword
  rw [List.mem_filterMap]
  constructor
  · intro h
    obtain ⟨form, hform, hrest⟩ := h
    split at hrest
    · rename_i hpre
      have hpre := List.isPrefixOf_iff_prefix.mp hpre
      refine ⟨cs.take form.length, ?_, ?_⟩
      · rwa [List.map_take, ← List.prefix_iff_eq_take.mp hpre]
      · rw [← Option.some.inj hrest, List.take_append_drop]
    · cases hrest
  · intro h
    obtain ⟨word, hword, rfl⟩ := h
    refine ⟨_, hword, ?_⟩
    rw [if_pos, List.length_map, List.drop_left]
    rw [List.isPrefixOf_iff_prefix, List.map_append]
    exact List.prefix_append _ _

theorem closes_iff : closes q = true ↔ ∀ c ∈ q.head?, c = '_' := by
  unfold closes
  cases q with
  | nil => simp
  | cons c q => simp

theorem any_closes : (keywordRests cs).any closes = true ↔
    ∃ word q, IsKeyword word ∧ cs = word ++ q ∧ ∀ c ∈ q.head?, c = '_' := by
  rw [List.any_eq_true]
  constructor
  · intro h
    obtain ⟨q, hq, hclose⟩ := h
    obtain ⟨word, hword, hcs⟩ := mem_keywordRests.mp hq
    exact ⟨word, q, hword, hcs, closes_iff.mp hclose⟩
  · intro h
    obtain ⟨word, q, hword, hcs, hclose⟩ := h
    exact ⟨q, mem_keywordRests.mpr ⟨word, hword, hcs⟩, closes_iff.mpr hclose⟩

theorem any_isEmpty : (keywordRests cs).any List.isEmpty = true ↔ IsKeyword cs := by
  rw [List.any_eq_true]
  constructor
  · intro h
    obtain ⟨q, hq, hempty⟩ := h
    obtain ⟨word, hword, hcs⟩ := mem_keywordRests.mp hq
    rw [List.isEmpty_iff.mp hempty, List.append_nil] at hcs
    rwa [hcs]
  · intro h
    exact ⟨[], mem_keywordRests.mpr ⟨cs, h, (List.append_nil _).symm⟩, rfl⟩

/-- Where the two branches of the pattern find a keyword: behind `p` and before `q`. -/
def Found (first : Bool) (p q : List Char) : Prop :=
  ((p = [] ∧ first = true ∨ p.getLast? = some '_') ∧ ∀ c ∈ q.head?, c = '_') ∨
    (∃ c ∈ p.getLast?, isLetter c = true) ∧ q = []

theorem found_cons (hp : p ≠ []) : Found first (c :: p) q ↔ Found false p q := by
  have hlast : (c :: p).getLast? = p.getLast? := by
    rw [List.getLast?_cons_of_ne_nil hp]
  simp [Found, hlast, hp]

theorem matchesSeparated_iff : matchesSeparated first cs = true ↔
    ∃ p word q, cs = p ++ word ++ q ∧ IsKeyword word ∧
      (p = [] ∧ first = true ∨ p = ['_']) ∧ ∀ c ∈ q.head?, c = '_' := by
  unfold matchesSeparated
  rw [Bool.or_eq_true, Bool.and_eq_true, Bool.and_eq_true, any_closes, any_closes,
    decide_eq_true_eq]
  constructor
  · intro h
    rcases h with ⟨hfirst, word, q, hword, hcs, hq⟩ | ⟨hhead, word, q, hword, hcs, hq⟩
    · exact ⟨[], word, q, by simpa using hcs, hword, .inl ⟨rfl, hfirst⟩, hq⟩
    · refine ⟨['_'], word, q, ?_, hword, .inr rfl, hq⟩
      cases cs with
      | nil => cases hhead
      | cons d cs =>
        obtain rfl := Option.some.inj hhead
        rw [List.tail_cons] at hcs
        rw [hcs, List.append_assoc, List.singleton_append]
  · intro h
    obtain ⟨p, word, q, rfl, hword, ⟨rfl, hfirst⟩ | rfl, hq⟩ := h
    · exact .inl ⟨hfirst, word, q, hword, by simp, hq⟩
    · exact .inr ⟨by simp, word, q, hword, by simp, hq⟩

theorem matchesTrailing_iff : matchesTrailing cs = true ↔
    ∃ p word, cs = p ++ word ∧ IsKeyword word ∧ p ≠ [] ∧ ∀ c ∈ p, isLetter c = true := by
  induction cs with
  | nil =>
    simp only [matchesTrailing, Bool.false_eq_true, false_iff]
    intro h
    obtain ⟨p, word, hcs, -, hne, -⟩ := h
    exact hne (List.append_eq_nil_iff.mp hcs.symm).1
  | cons c cs ih =>
    rw [matchesTrailing, Bool.and_eq_true, Bool.or_eq_true, any_isEmpty, ih]
    constructor
    · intro h
      obtain ⟨hc, hword | ⟨p, word, rfl, hword, -, hall⟩⟩ := h
      · exact ⟨[c], cs, rfl, hword, by simp, by simpa using hc⟩
      · exact ⟨c :: p, word, rfl, hword, by simp, by simpa using ⟨hc, hall⟩⟩
    · intro h
      obtain ⟨p, word, hcs, hword, hne, hall⟩ := h
      cases p with
      | nil => exact absurd rfl hne
      | cons d p =>
        obtain ⟨rfl, rfl⟩ := List.cons.inj hcs
        refine ⟨hall c List.mem_cons_self, ?_⟩
        by_cases hp : p = []
        · exact .inl (by rwa [hp])
        · exact .inr ⟨p, word, rfl, hword, hp, fun e he => hall e (List.mem_cons_of_mem _ he)⟩

/-- The search finds the keywords that stand where one of the branches finds them. -/
theorem searchSensitive_iff : searchSensitive first cs = true ↔
    ∃ p word q, cs = p ++ word ++ q ∧ IsKeyword word ∧ Found first p q := by
  induction cs generalizing first with
  | nil =>
    have hno : ∀ p word q : List Char, [] = p ++ word ++ q → ¬IsKeyword word := by
      intro p word q hcs hword
      have hlen := congrArg List.length hcs
      simp only [List.length_nil, List.length_append] at hlen
      have := hword.length_pos
      omega
    rw [searchSensitive, matchesSeparated_iff]
    constructor
    · intro h
      obtain ⟨p, word, q, hcs, hword, -⟩ := h
      exact absurd hword (hno p word q hcs)
    · intro h
      obtain ⟨p, word, q, hcs, hword, -⟩ := h
      exact absurd hword (hno p word q hcs)
  | cons c cs ih =>
    rw [searchSensitive, Bool.or_eq_true, Bool.or_eq_true, matchesSeparated_iff,
      matchesTrailing_iff, ih]
    constructor
    · intro h
      rcases h with (⟨p, word, q, hcs, hword, hp, hq⟩ | ⟨p, word, hcs, hword, hne, hall⟩) |
        ⟨p, word, q, rfl, hword, hfound⟩
      · refine ⟨p, word, q, hcs, hword, .inl ⟨?_, hq⟩⟩
        rcases hp with hp | rfl
        · exact .inl hp
        · exact .inr rfl
      · refine ⟨p, word, [], by rw [hcs, List.append_nil], hword, .inr ⟨?_, rfl⟩⟩
        exact ⟨p.getLast hne, List.getLast?_eq_some_getLast hne, hall _ (List.getLast_mem hne)⟩
      · refine ⟨c :: p, word, q, rfl, hword, (found_cons ?_).mpr hfound⟩
        intro hp
        simp [Found, hp] at hfound
    · intro h
      obtain ⟨p, word, q, hcs, hword, hfound⟩ := h
      cases p with
      | nil =>
        rcases hfound with ⟨hp, hq⟩ | ⟨⟨d, hd, -⟩, -⟩
        · refine .inl (.inl ⟨[], word, q, hcs, hword, ?_, hq⟩)
          rcases hp with hp | hp
          · exact .inl hp
          · cases hp
        · cases hd
      | cons d p =>
        obtain ⟨rfl, rfl⟩ := List.cons.inj hcs
        by_cases hp : p = []
        · -- the branch begins at this character
          subst hp
          rcases hfound with ⟨hlast, hq⟩ | ⟨⟨d, hd, hletter⟩, rfl⟩
          · rcases hlast with ⟨hnil, -⟩ | hlast
            · cases hnil
            · obtain rfl := Option.some.inj hlast
              exact .inl (.inl ⟨['_'], word, q, rfl, hword, .inr rfl, hq⟩)
          · obtain rfl := Option.some.inj hd
            exact .inl (.inr ⟨[c], word, by simp, hword, by simp, by simpa using hletter⟩)
        · exact .inr ⟨p, word, q, rfl, hword, (found_cons hp).mp hfound⟩

/-! ## Names -/

/-- What one character is written as. -/
def written (c : CodePoint) : Char := (alnum? c).getD '_'

/-- Whether the last character written, if any, was a separator. -/
def endsSeparator (sep : Bool) (name : Text) : Bool := name.foldl (fun _ c => (alnum? c).isNone) sep

theorem normalizeName_append {more : Text} : normalizeName sep (name ++ more) =
    normalizeName sep name ++ normalizeName (endsSeparator sep name) more := by
  induction name generalizing sep with
  | nil => rfl
  | cons c name ih =>
    rw [List.cons_append, normalizeName, normalizeName, endsSeparator, List.foldl_cons]
    cases hc : alnum? c with
    | some d => rw [ih, List.cons_append]; rfl
    | none =>
      cases sep with
      | true => simp only [if_true, ih]; rfl
      | false => simp only [Bool.false_eq_true, if_false, ih, List.cons_append]; rfl

theorem alnum?_scalar (h : isAlnum c = true) : alnum? (.scalar c) = some c := if_pos h

theorem alnum?_eq_some {point : CodePoint} (h : alnum? point = some c) :
    point = .scalar c ∧ isAlnum c = true := by
  cases point with
  | surrogate n => cases h
  | scalar d =>
    simp only [alnum?, Option.ite_none_right_eq_some] at h
    obtain ⟨hd, heq⟩ := h
    obtain rfl := Option.some.inj heq
    exact ⟨rfl, hd⟩

theorem normalizeName_word (hall : ∀ c ∈ word, isAlnum c = true) :
    normalizeName sep (word.map .scalar) = word := by
  induction word generalizing sep with
  | nil => rfl
  | cons c word ih =>
    rw [List.map_cons, normalizeName, alnum?_scalar (hall c List.mem_cons_self)]
    dsimp only
    rw [ih fun d hd => hall d (List.mem_cons_of_mem _ hd)]

/-- What a name begins with is written first. -/
theorem head?_normalizeName : (normalizeName false name).head? = name.head?.map written := by
  cases name with
  | nil => rfl
  | cons c name =>
    rw [normalizeName, List.head?_cons, Option.map_some, written]
    cases alnum? c <;> rfl

/-- What a name ends with is written last. -/
theorem getLast?_normalizeName :
    (normalizeName false name).getLast? = name.getLast?.map written := by
  induction name using List.reverseRecOn with
  | nil => rfl
  | append_singleton name c ih =>
    rw [normalizeName_append, List.getLast?_append, List.getLast?_append, List.getLast?_singleton,
      Option.some_or, Option.map_some, written, normalizeName]
    cases hc : alnum? c with
    | some d => rfl
    | none =>
      dsimp only
      cases hsep : endsSeparator false name with
      | false => rfl
      | true =>
        -- nothing is written, so a separator was written last
        induction name using List.reverseRecOn with
        | nil => cases hsep
        | append_singleton name d =>
          rw [endsSeparator, List.foldl_append, List.foldl_cons, List.foldl_nil,
            Option.isNone_iff_eq_none] at hsep
          rw [ih, List.getLast?_append, List.getLast?_singleton, Option.some_or, Option.map_some,
            written, hsep]
          rfl

theorem normalizeName_eq_nil : normalizeName false name = [] ↔ name = [] := by
  rw [← List.getLast?_eq_none_iff, getLast?_normalizeName, Option.map_eq_none_iff,
    List.getLast?_eq_none_iff]

theorem written_separator {c : CodePoint} : written c = '_' ↔ alnum? c = none := by
  unfold written
  cases hc : alnum? c with
  | none => simp
  | some d =>
    obtain ⟨-, hd⟩ := alnum?_eq_some hc
    simp only [Option.getD_some, reduceCtorEq, iff_false]
    intro heq
    rw [heq] at hd
    revert hd
    decide

theorem endsSeparator_word (hne : word ≠ []) (hall : ∀ c ∈ word, isAlnum c = true) :
    endsSeparator sep (name ++ word.map .scalar) = false := by
  obtain ⟨front, c, rfl⟩ := (List.eq_nil_or_concat' word).resolve_left hne
  have hc := alnum?_scalar (hall c (by simp))
  simp [endsSeparator, hc]

/-- What is written of a name that begins with letters and digits. -/
theorem split_word (hall : ∀ c ∈ word, isAlnum c = true)
    (h : normalizeName false name = word ++ q) :
    ∃ post, name = word.map .scalar ++ post ∧ normalizeName false post = q := by
  induction word generalizing name with
  | nil => exact ⟨name, rfl, h⟩
  | cons d word ih =>
    cases name with
    | nil => cases h
    | cons c name =>
      rw [normalizeName] at h
      cases hc : alnum? c with
      | none =>
        rw [hc] at h
        obtain ⟨rfl, -⟩ := List.cons.inj h
        exact absurd (hall '_' List.mem_cons_self) (by decide)
      | some e =>
        rw [hc] at h
        obtain ⟨rfl, hrest⟩ := List.cons.inj h
        obtain ⟨post, rfl, hpost⟩ := ih (fun d hd => hall d (List.mem_cons_of_mem _ hd)) hrest
        exact ⟨post, by rw [(alnum?_eq_some hc).1]; rfl, hpost⟩

/-- A word of letters and digits is written as it stands, and what is written of a name
around a word is written of the parts around it. -/
theorem split_normalizeName (hne : word ≠ []) (hall : ∀ c ∈ word, isAlnum c = true) :
    normalizeName sep name = p ++ word ++ q ↔
      ∃ pre post, name = pre ++ word.map .scalar ++ post ∧ normalizeName sep pre = p ∧
        normalizeName false post = q := by
  constructor
  · intro h
    induction name generalizing sep p with
    | nil =>
      have hnil := List.append_eq_nil_iff.mp h.symm
      exact absurd (List.append_eq_nil_iff.mp hnil.1).2 hne
    | cons c name ih =>
      rw [normalizeName] at h
      cases hc : alnum? c with
      | some d =>
        rw [hc] at h
        cases p with
        | nil =>
          obtain ⟨e, word, rfl⟩ := List.exists_cons_of_ne_nil hne
          obtain ⟨rfl, hrest⟩ := List.cons.inj h
          obtain ⟨post, rfl, hpost⟩ :=
            split_word (fun d hd => hall d (List.mem_cons_of_mem _ hd)) hrest
          exact ⟨[], post, by rw [(alnum?_eq_some hc).1]; rfl, rfl, hpost⟩
        | cons e p =>
          obtain ⟨rfl, hrest⟩ := List.cons.inj h
          obtain ⟨pre, post, rfl, hpre, hpost⟩ := ih hrest
          exact ⟨c :: pre, post, rfl, by rw [normalizeName, hc]; simp only [hpre], hpost⟩
      | none =>
        rw [hc] at h
        cases sep with
        | true =>
          obtain ⟨pre, post, rfl, hpre, hpost⟩ := ih h
          exact ⟨c :: pre, post, rfl, by rw [normalizeName, hc]; exact hpre, hpost⟩
        | false =>
          cases p with
          | nil =>
            obtain ⟨e, word, rfl⟩ := List.exists_cons_of_ne_nil hne
            obtain ⟨rfl, -⟩ := List.cons.inj h
            exact absurd (hall '_' List.mem_cons_self) (by decide)
          | cons e p =>
            obtain ⟨rfl, hrest⟩ := List.cons.inj h
            obtain ⟨pre, post, rfl, hpre, hpost⟩ := ih hrest
            refine ⟨c :: pre, post, rfl, ?_, hpost⟩
            rw [normalizeName, hc]
            exact congrArg _ hpre
  · intro h
    obtain ⟨pre, post, rfl, rfl, rfl⟩ := h
    rw [normalizeName_append, normalizeName_append, normalizeName_word hall,
      endsSeparator_word hne hall]

/-! ## What is refused -/

/-- A keyword of the name, perhaps in the plural, and what stands around it: a separator
or the end follows. -/
structure Keyword (name pre : Text) (word : List Char) (post : Text) : Prop where
  split : name = pre ++ word.map .scalar ++ post
  keyword : IsKeyword word
  closed : ∀ c ∈ post.head?, alnum? c = none

/-- A separator or nothing precedes it, or a letter does and nothing follows. -/
def Caught (pre post : Text) : Prop :=
  (∀ c ∈ pre.getLast?, alnum? c = none) ∨
    (∃ c ∈ pre.getLast?, ∃ d, alnum? c = some d ∧ isLetter d = true) ∧ post = []

/-- No allowlist with the name is valid. -/
def Rejected (name : Text) : Prop :=
  ∀ before after, ∃ message, validateEnvAllowlist (before ++ name :: after) = .error message

theorem checkEnvNames_ok {names : List Text} :
    checkEnvNames names = .ok () ↔ ∀ name ∈ names, isSensitiveEnvName name = false := by
  induction names with
  | nil => simp [checkEnvNames]
  | cons name names ih =>
    unfold checkEnvNames
    split
    · rename_i h
      simp [h]
    · rename_i h
      simp [ih, Bool.eq_false_iff.mpr h]

theorem rejected_iff : Rejected name ↔ isSensitiveName name = true := by
  unfold Rejected validateEnvAllowlist
  constructor
  · intro h
    by_contra hnot
    obtain ⟨message, hmessage⟩ := h [] []
    rw [List.nil_append, checkEnvNames_ok.mpr ?_] at hmessage
    · cases hmessage
    · intro other hother
      rw [List.mem_singleton.mp hother]
      exact Bool.eq_false_iff.mpr hnot
  · intro h before after
    cases hcheck : checkEnvNames (before ++ name :: after) with
    | error message => exact ⟨message, rfl⟩
    | ok _ =>
      have hname := checkEnvNames_ok.mp hcheck name (by simp)
      rw [isSensitiveEnvName, h] at hname
      cases hname

theorem found_iff : Found true (normalizeName false pre) (normalizeName false post) ↔
    Caught pre post ∧ ∀ c ∈ post.head?, alnum? c = none := by
  have hlast : (normalizeName false pre = [] ∧ true = true ∨
      (normalizeName false pre).getLast? = some '_') ↔ ∀ c ∈ pre.getLast?, alnum? c = none := by
    rw [normalizeName_eq_nil, getLast?_normalizeName, ← List.getLast?_eq_none_iff]
    cases pre.getLast? with
    | none => simp
    | some c => simp [written_separator]
  have hhead : (∀ c ∈ (normalizeName false post).head?, c = '_') ↔
      ∀ c ∈ post.head?, alnum? c = none := by
    rw [head?_normalizeName]
    cases post.head? with
    | none => simp
    | some c => simp [written_separator]
  have hletter : (∃ c ∈ (normalizeName false pre).getLast?, isLetter c = true) ↔
      ∃ c ∈ pre.getLast?, ∃ d, alnum? c = some d ∧ isLetter d = true := by
    rw [getLast?_normalizeName]
    cases pre.getLast? with
    | none => simp
    | some c =>
      cases hc : alnum? c with
      | none =>
        have hunderscore : isLetter '_' = false := by decide
        simp [written, hc, hunderscore]
      | some d => simp [written, hc]
  unfold Found Caught
  rw [hlast, hhead, hletter, normalizeName_eq_nil]
  constructor
  · intro h
    rcases h with ⟨hl, hh⟩ | ⟨hl, rfl⟩
    · exact ⟨.inl hl, hh⟩
    · exact ⟨.inr ⟨hl, rfl⟩, by simp⟩
  · intro h
    rcases h with ⟨hl | hl, hh⟩
    · exact .inl ⟨hl, hh⟩
    · exact .inr hl

/-- The search finds the keywords of the name that are caught. -/
theorem searchSensitive_name : searchSensitive true (normalizeName false name) = true ↔
    ∃ pre word post, Keyword name pre word post ∧ Caught pre post := by
  rw [searchSensitive_iff]
  constructor
  · intro h
    obtain ⟨p, word, q, hsplit, hword, hfound⟩ := h
    have hne := List.ne_nil_of_length_pos hword.length_pos
    obtain ⟨pre, post, rfl, rfl, rfl⟩ := (split_normalizeName hne fun c => hword.alnum).mp hsplit
    obtain ⟨hcaught, hclosed⟩ := found_iff.mp hfound
    exact ⟨pre, word, post, ⟨rfl, hword, hclosed⟩, hcaught⟩
  · intro h
    obtain ⟨pre, word, post, ⟨rfl, hword, hclosed⟩, hcaught⟩ := h
    have hne := List.ne_nil_of_length_pos hword.length_pos
    refine ⟨_, word, _, ?_, hword, found_iff.mpr ⟨hcaught, hclosed⟩⟩
    exact (split_normalizeName hne fun c => hword.alnum).mpr ⟨pre, post, rfl, rfl, rfl⟩

/-- A name with a keyword is not one of the exact names. -/
theorem Keyword.not_exact {word : List Char} (h : Keyword name pre word post) :
    (normalizeName false name).map lowerChar ∉ sensitiveExactNames := by
  have hne := List.ne_nil_of_length_pos h.keyword.length_pos
  have hsplit : normalizeName false name =
      normalizeName false pre ++ word ++ normalizeName false post :=
    (split_normalizeName hne fun c => h.keyword.alnum).mpr ⟨pre, post, h.split, rfl, rfl⟩
  have hno : ∀ form ∈ keywordForms, ∀ exact ∈ sensitiveExactNames, ¬form <:+: exact := by
    decide +kernel
  intro hmem
  refine hno _ h.keyword _ hmem ?_
  rw [hsplit, List.map_append, List.map_append]
  exact ⟨_, _, rfl⟩

/-- **Which names with a keyword are refused.** -/
theorem rejects_iff (name : Text) (h : ∃ pre word post, Keyword name pre word post) :
    Rejected name ↔ ∃ pre word post, Keyword name pre word post ∧ Caught pre post := by
  obtain ⟨pre, word, post, hkeyword⟩ := h
  rw [rejected_iff, isSensitiveName, Bool.or_eq_true, List.contains_iff_mem, searchSensitive_name]
  exact or_iff_right hkeyword.not_exact

/-- The separator and the end of a name that is caught. -/
theorem rejects_api_key : Rejected (text "API_KEY") ↔
    ∃ pre word post, Keyword (text "API_KEY") pre word post ∧ Caught pre post :=
  rejects_iff (text "API_KEY") ⟨text "API_", "KEY".toList, [],
    { split := by decide, keyword := by unfold IsKeyword; decide +kernel, closed := by simp }⟩

/-- A keyword behind a letter and before a separator, which an allowlist lets pass. -/
theorem apikey_file_passes : ¬∀ name, (∃ pre word post, Keyword name pre word post) →
    Rejected name := by
  intro h
  have hrejected := h (text "APIKEY_FILE") ⟨text "API", "KEY".toList, text "_FILE",
    { split := by decide, keyword := by unfold IsKeyword; decide +kernel, closed := by decide }⟩
  rw [rejected_iff] at hrejected
  revert hrejected
  decide +kernel

end Northstack
