import Northstack.Core.Data
import Northstack.Core.JsonText

/-!
# Texts of values

What `str` and `repr` of the source language make of a decoded value, and some of what it
does to texts: the words of a text that look like identifiers, and the decoding of bytes
that leaves out what is not UTF-8.
-/

namespace Data

open TextFiles

section

-- `str.isprintable` of one code point beyond ASCII
variable (printable : Char → Bool)

/-- One code point inside a `repr` quoted with `q`. -/
def reprPoint (q : Char) : CodePoint → List Char
  | .surrogate n => '\\' :: 'u' :: JsonText.hex4 (0xD800 + n.val)
  | .scalar c =>
    let n := c.toNat
    if c = q ∨ c = '\\' then ['\\', c]
    else if c = '\n' then ['\\', 'n']
    else if c = '\r' then ['\\', 'r']
    else if c = '\t' then ['\\', 't']
    else if 32 ≤ n ∧ n < 127 ∨ 128 ≤ n ∧ printable c then [c]
    else if n < 0x100 then ['\\', 'x', PyText.hexDigit (n / 16), PyText.hexDigit (n % 16)]
    else if n < 0x10000 then '\\' :: 'u' :: JsonText.hex4 n
    else '\\' :: 'U' :: (JsonText.hex4 (n / 0x10000) ++ JsonText.hex4 (n % 0x10000))

/-- `repr(s)`: single quotes unless the text has one and no double quote. -/
def reprText (s : Text) : List Char :=
  let q := if .scalar '\'' ∈ s ∧ .scalar '"' ∉ s then '"' else '\''
  q :: s.flatMap (reprPoint printable q) ++ [q]

/-- `repr(x)` -/
def reprFloat : PyFloat → List Char
  | .nan => "nan".toList
  | .inf neg => (if neg then ['-'] else []) ++ "inf".toList
  | x => JsonText.floatText x

def commaSeparated (items : List (List Char)) : List Char := [',', ' '].intercalate items

mutual

/-- `repr(d)` -/
def repr : Data → List Char
  | null => "None".toList
  | bool b => if b then "True".toList else "False".toList
  | int i => JsonText.intText i
  | float x => reprFloat x
  | str s => reprText printable s
  | list xs => '[' :: commaSeparated (reprAll xs) ++ [']']
  | dict fields => '\x7b' :: commaSeparated (reprFields fields) ++ ['\x7d']

def reprAll : List Data → List (List Char)
  | [] => []
  | d :: ds => repr d :: reprAll ds

def reprFields : List (Text × Data) → List (List Char)
  | [] => []
  | (key, d) :: rest => (reprText printable key ++ [':', ' '] ++ repr d) :: reprFields rest

end

/-- `str(d)` -/
def toText : Data → Text
  | str s => s
  | d => (repr printable d).map .scalar

end

end Data

namespace TextFiles

/-- `b.decode("utf-8", errors="ignore")` -/
def decodeIgnore : List UInt8 → Text
  | [] => []
  | b :: bs =>
    match (b :: bs).toByteArray.utf8DecodeChar? 0 with
    | some c => .scalar c :: decodeIgnore (bs.drop (c.utf8Size - 1))
    | none => decodeIgnore bs
termination_by bs => bs.length
decreasing_by
  all_goals simp

def isSpacePoint : CodePoint → Bool
  | .scalar c => PyText.isSpace c
  | .surrogate _ => false

/-- `s.strip()` -/
def stripText (s : Text) : Text :=
  ((s.dropWhile isSpacePoint).reverse.dropWhile isSpacePoint).reverse

def CodePoint.isDigit : CodePoint → Bool
  | .scalar c => c.isDigit
  | .surrogate _ => false

/-- `[A-Za-z0-9_]` -/
def CodePoint.isWord : CodePoint → Bool
  | .scalar c => c.isAlphanum ∨ c = '_'
  | .surrogate _ => false

/-- `findall` of `[A-Za-z_][A-Za-z0-9_]{2,}`: in a run of word characters the match begins at the
first that is no digit, and goes to the end of the run. -/
def identifiers (s : Text) : List Text :=
  ((s.splitOnP fun c => !c.isWord).map fun run => run.dropWhile CodePoint.isDigit).filter
    fun t => 3 ≤ t.length

/-- `keyword.kwlist` -/
def keywords : List Text :=
  ["False", "None", "True", "and", "as", "assert", "async", "await", "break", "class", "continue",
    "def", "del", "elif", "else", "except", "finally", "for", "from", "global", "if", "import",
    "in", "is", "lambda", "nonlocal", "not", "or", "pass", "raise", "return", "try", "while",
    "with", "yield"].map text

end TextFiles

/-! ## Dictionaries -/

namespace Dict

open TextFiles

variable {d : Dict} {key other : Text} {value default : Data}

@[simp] theorem get?_nil : get? key [] = none := rfl

@[simp] theorem get?_cons : get? key ((other, value) :: d) =
    if other = key then some value else d.get? key := by
  unfold get?
  rw [List.find?_cons]
  by_cases h : other = key
  · simp [h]
  · simp [h]

/-- `{k: v for k, v in d.items() if k != key}` -/
def erase (key : Text) (d : Dict) : Dict := d.filter fun f => f.1 ≠ key

theorem getD_erase (h : other ≠ key) : (d.erase key).getD other default = d.getD other default := by
  unfold getD get? erase
  rw [List.find?_filter]
  congr 3
  funext f
  by_cases hf : f.1 = other
  · simp [hf, h]
  · simp [hf]

theorem get?_eq_none : d.get? key = none ↔ key ∉ d.map Prod.fst := by
  unfold get?
  rw [Option.map_eq_none_iff, List.find?_eq_none, List.mem_map]
  constructor
  · rintro h ⟨f, hf, hkey⟩
    exact h f hf (decide_eq_true hkey)
  · intro h f hf hkey
    exact h ⟨f, hf, of_decide_eq_true hkey⟩

/-- New keys come after the old ones. -/
theorem update_fresh {e : Dict} (h : ((d ++ e).map Prod.fst).Nodup) : d.update e = d ++ e := by
  induction e generalizing d with
  | nil => simp [update]
  | cons f e ih =>
    obtain ⟨k, v⟩ := f
    have hnew : d.get? k = none := by
      rw [get?_eq_none]
      intro hin
      rw [List.map_append, List.nodup_append] at h
      exact h.2.2 k hin k (by simp) rfl
    have hset : d.set k v = d ++ [(k, v)] := by
      unfold set
      rw [hnew]
      rfl
    have hstep : d.update ((k, v) :: e) = (d ++ [(k, v)]).update e := by
      unfold update
      rw [List.foldl_cons, hset]
    rw [hstep, ih (by simpa using h)]
    simp

end Dict
