import Mathlib
import Northstack.Core.Json
import Northstack.Core.PyText

/-!
# JSON text

`json.dumps` and `json.loads` of the source language over `Json`. `dumps`
escapes everything outside printable ASCII and writes a float as the shortest
decimal that reads back as the same double; `loads` is the strict scanner,
which also takes `NaN` and the two infinities and keeps the last of several
equal keys. Lone surrogates, which no `String` holds, are read as U+FFFD.
-/

/-! ## Doubles -/

/-- The nearest double of a non-negative rational, ties to even. -/
def roundDouble (neg : Bool) (q : ℚ≥0) : PyFloat :=
  if q = 0 then .finite neg 0
  else
    let k := max (PyText.floorLog 2 q - 52) (-1074)
    let m := (PyText.roundHalfEven ((q : ℚ) / 2 ^ k)).toNat
    let v : ℚ≥0 := m * 2 ^ k
    if v < 2 ^ 1024 then .finite neg v else .inf neg

namespace JsonText

def digitChar (d : Nat) : Char := Char.ofNat (48 + d)

def isDigit (c : Char) : Bool := '0' ≤ c && c ≤ '9'

/-- `str(n)` -/
def decimal (n : Nat) : List Char :=
  if n = 0 then ['0'] else ((Nat.digits 10 n).map digitChar).reverse

def readDigits (cs : List Char) : Nat := cs.foldl (fun a c => a * 10 + (c.toNat - 48)) 0

/-- The shortest decimal `m * 10 ^ k` of at most 17 digits that rounds to `q`;
a double always has one, and `exactDecimal` stands behind the search. -/
def shortest (q : ℚ≥0) : Nat → Option (Nat × Int)
  | 0 => none
  | fuel + 1 =>
    let n : Int := 17 - fuel
    let k := PyText.floorLog 10 q - n + 1
    let m := (PyText.roundHalfEven ((q : ℚ) / 10 ^ k)).toNat
    if roundDouble false (m * 10 ^ k) = .finite false q then some (m, k) else shortest q fuel

/-- All the digits of a dyadic rational. -/
def exactDecimal (q : ℚ≥0) : Nat × Int :=
  let j := Nat.log 2 q.den
  (q.num * 5 ^ j, -j)

/-- The digits of `m * 10 ^ k` laid out as `repr` does: scientific notation
when the point would fall outside the first sixteen digits. -/
def layout (m : Nat) (k : Int) : List Char :=
  let ds := decimal m
  let sig := PyText.stripZeros ds
  let point : Int := ds.length + k
  if point < -3 ∨ 16 < point then
    let ex := decimal (point - 1).natAbs
    let ex := if ex.length < 2 then '0' :: ex else ex
    PyText.withPoint (sig.take 1) (sig.drop 1) ++
      'e' :: (if point - 1 < 0 then '-' else '+') :: ex
  else if point ≤ 0 then '0' :: '.' :: List.replicate point.natAbs '0' ++ sig
  else if (sig.length : Int) ≤ point then
    sig ++ List.replicate (point.natAbs - sig.length) '0' ++ ['.', '0']
  else sig.take point.natAbs ++ '.' :: sig.drop point.natAbs

/-- `float.__repr__`, with JSON's tokens for the three other values. -/
def floatText : PyFloat → List Char
  | .nan => "NaN".toList
  | .inf neg => (if neg then ['-'] else []) ++ "Infinity".toList
  | .finite neg q =>
    (if neg then ['-'] else []) ++
      if q = 0 then ['0', '.', '0']
      else
        let (m, k) := (shortest q 17).getD (exactDecimal q)
        layout m k

def intText (i : Int) : List Char :=
  (if i < 0 then ['-'] else []) ++ decimal i.natAbs

/-! ## Writing -/

def hex4 (n : Nat) : List Char :=
  [PyText.hexDigit (n / 4096 % 16), PyText.hexDigit (n / 256 % 16), PyText.hexDigit (n / 16 % 16),
   PyText.hexDigit (n % 16)]

/-- One code point of a string, `ensure_ascii` set. -/
def escapeChar (c : Char) : List Char :=
  if c = '"' then ['\\', '"']
  else if c = '\\' then ['\\', '\\']
  else if c = '\n' then ['\\', 'n']
  else if c = '\r' then ['\\', 'r']
  else if c = '\t' then ['\\', 't']
  else if c.toNat = 12 then ['\\', 'f']
  else if c.toNat = 8 then ['\\', 'b']
  else if 32 ≤ c.toNat ∧ c.toNat ≤ 126 then [c]
  else if c.toNat < 0x10000 then '\\' :: 'u' :: hex4 c.toNat
  else
    let n := c.toNat - 0x10000
    '\\' :: 'u' :: hex4 (0xD800 + n / 1024) ++ '\\' :: 'u' :: hex4 (0xDC00 + n % 1024)

def stringText (s : String) : List Char := '"' :: (s.toList.flatMap escapeChar) ++ ['"']

/-- The two separators of `dumps`. -/
structure Separators where
  item : List Char
  key : List Char

/-- `json.dumps` without arguments. -/
def Separators.default : Separators := ⟨[',', ' '], [':', ' ']⟩

/-- `separators=(",", ":")` -/
def Separators.compact : Separators := ⟨[','], [':']⟩

mutual

/-- `json.dumps` of a value whose objects' keys stand in the order to write. -/
def write (sep : Separators) : Json → List Char
  | .null => "null".toList
  | .bool true => "true".toList
  | .bool false => "false".toList
  | .int i => intText i
  | .float x => floatText x
  | .str s => stringText s
  | .arr xs => '[' :: writeItems sep xs
  | .obj fs => '{' :: writeFields sep fs

def writeItems (sep : Separators) : List Json → List Char
  | [] => [']']
  | [x] => write sep x ++ [']']
  | x :: y :: xs => write sep x ++ sep.item ++ writeItems sep (y :: xs)

def writeFields (sep : Separators) : List (String × Json) → List Char
  | [] => ['}']
  | [(k, v)] => stringText k ++ sep.key ++ write sep v ++ ['}']
  | (k, v) :: f :: fs =>
    stringText k ++ sep.key ++ write sep v ++ sep.item ++ writeFields sep (f :: fs)

end

/-- `json.dumps(value, separators=sep)` -/
def dumps (sep : Separators) (j : Json) : String := String.ofList (write sep j)

/-! ## Sorted keys -/

def insertField (f : String × Json) : List (String × Json) → List (String × Json)
  | [] => [f]
  | g :: gs => if f.1 ≤ g.1 then f :: g :: gs else g :: insertField f gs

mutual

/-- The value `sort_keys=True` writes: every object's fields in key order. -/
def sortKeys : Json → Json
  | .arr xs => .arr (sortItems xs)
  | .obj fs => .obj (sortFields fs)
  | j => j

def sortItems : List Json → List Json
  | [] => []
  | x :: xs => sortKeys x :: sortItems xs

def sortFields : List (String × Json) → List (String × Json)
  | [] => []
  | (k, v) :: fs => insertField (k, sortKeys v) (sortFields fs)

end

/-- `json.dumps(value, sort_keys=True, separators=sep)` -/
def dumpsSorted (sep : Separators) (j : Json) : String := String.ofList (write sep (sortKeys j))

/-! ## Reading -/

inductive JsonError where
  | malformed
  /-- The interpreter's limit of 4300 digits on integer literals. -/
  | tooManyDigits

abbrev Scan (α : Type) := Except JsonError (α × List Char)

def skipSpace : List Char → List Char
  | [] => []
  | c :: cs => if c = ' ' || c = '\t' || c = '\n' || c = '\r' then skipSpace cs else c :: cs

def hexValue (c : Char) : Option Nat :=
  if '0' ≤ c && c ≤ '9' then some (c.toNat - 48)
  else if 'a' ≤ c && c ≤ 'f' then some (c.toNat - 87)
  else if 'A' ≤ c && c ≤ 'F' then some (c.toNat - 55)
  else none

/-- Four hexadecimal digits. -/
def readHex4 : List Char → Option (Nat × List Char)
  | a :: b :: c :: d :: cs =>
    match hexValue a, hexValue b, hexValue c, hexValue d with
    | some x, some y, some z, some w => some (((x * 16 + y) * 16 + z) * 16 + w, cs)
    | _, _, _, _ => none
  | _ => none

/-- The low surrogate that may follow a high one. -/
def readLow : List Char → Option (Nat × List Char)
  | '\\' :: 'u' :: cs =>
    match readHex4 cs with
    | some (n, rest) => if 0xDC00 ≤ n ∧ n ≤ 0xDFFF then some (n, rest) else none
    | none => none
  | _ => none

/-- The code point of a `\u` escape; a lone surrogate is U+FFFD. -/
def readUnicode (cs : List Char) : Option (Char × List Char) :=
  match readHex4 cs with
  | none => none
  | some (n, rest) =>
    if 0xD800 ≤ n ∧ n ≤ 0xDBFF then
      match readLow rest with
      | some (low, rest') =>
        some (Char.ofNat (0x10000 + (n - 0xD800) * 1024 + (low - 0xDC00)), rest')
      | none => some (Char.ofNat 0xFFFD, rest)
    else if 0xDC00 ≤ n ∧ n ≤ 0xDFFF then some (Char.ofNat 0xFFFD, rest)
    else some (Char.ofNat n, rest)

def simpleEscape (c : Char) : Option Char :=
  if c = '"' then some '"'
  else if c = '\\' then some '\\'
  else if c = '/' then some '/'
  else if c = 'b' then some (Char.ofNat 8)
  else if c = 'f' then some (Char.ofNat 12)
  else if c = 'n' then some '\n'
  else if c = 'r' then some '\r'
  else if c = 't' then some '\t'
  else none

/-- The rest of a string after its opening quote; each step reads one code
point, so the text's length is fuel enough. -/
def scanString : Nat → List Char → Scan (List Char)
  | 0, _ => .error .malformed
  | _ + 1, [] => .error .malformed
  | fuel + 1, c :: cs =>
    if c = '"' then .ok ([], cs)
    else if c = '\\' then
      match cs with
      | [] => .error .malformed
      | 'u' :: cs =>
        match readUnicode cs with
        | none => .error .malformed
        | some (u, rest) =>
          match scanString fuel rest with
          | .ok (us, rest) => .ok (u :: us, rest)
          | .error e => .error e
      | e :: cs =>
        match simpleEscape e with
        | none => .error .malformed
        | some u =>
          match scanString fuel cs with
          | .ok (us, rest) => .ok (u :: us, rest)
          | .error e => .error e
    else if c.toNat < 32 then .error .malformed
    else
      match scanString fuel cs with
      | .ok (us, rest) => .ok (c :: us, rest)
      | .error e => .error e

/-- `(\.[0-9]+)?` -/
def scanFrac : List Char → List Char × List Char
  | '.' :: cs =>
    match cs.span isDigit with
    | ([], _) => ([], '.' :: cs)
    | (ds, rest) => (ds, rest)
  | cs => ([], cs)

/-- `([eE][-+]?[0-9]+)?` -/
def scanExp (cs : List Char) : Option Int × List Char :=
  match cs with
  | e :: rest =>
    if e = 'e' || e = 'E' then
      let (neg, ds) := match rest with
        | '-' :: r => (true, r)
        | '+' :: r => (false, r)
        | r => (false, r)
      match ds.span isDigit with
      | ([], _) => (none, cs)
      | (xs, r) => (some (if neg then -(readDigits xs : Int) else readDigits xs), r)
    else (none, cs)
  | [] => (none, cs)

/-- `-?(0|[1-9][0-9]*)`: the digits of the integer part. -/
def scanInt : List Char → Option (List Char × List Char)
  | '0' :: cs => some (['0'], cs)
  | c :: cs => if isDigit c then some ((c :: cs).span isDigit) else none
  | [] => none

def scanNumber (neg : Bool) (cs : List Char) : Scan Json :=
  match scanInt cs with
  | none => .error .malformed
  | some (ds, r1) =>
    let (frac, r2) := scanFrac r1
    let (ex, r3) := scanExp r2
    if frac = [] ∧ ex = none then
      if 4300 < ds.length then .error .tooManyDigits
      else .ok (.int (if neg then -(readDigits ds : Int) else readDigits ds), r3)
    else
      .ok (.float (roundDouble neg
        (readDigits (ds ++ frac) * 10 ^ (ex.getD 0 - frac.length : Int))), r3)

/-- Bind a key of an object: an earlier binding keeps its place and takes the
new value. -/
def bindField (k : String) (v : Json) : List (String × Json) → List (String × Json)
  | [] => [(k, v)]
  | (k', v') :: fs => if k' = k then (k, v) :: fs else (k', v') :: bindField k v fs

mutual

/-- `scan_once`; `fuel` bounds the nesting and the items. -/
def scanValue : Nat → List Char → Scan Json
  | 0, _ => .error .malformed
  | fuel + 1, cs =>
    match cs with
    | '"' :: r =>
      match scanString (r.length + 1) r with
      | .ok (s, rest) => .ok (.str (String.ofList s), rest)
      | .error e => .error e
    | '{' :: r =>
      match skipSpace r with
      | '}' :: rest => .ok (.obj [], rest)
      | r => scanFields fuel [] r
    | '[' :: r =>
      match skipSpace r with
      | ']' :: rest => .ok (.arr [], rest)
      | r => scanItems fuel [] r
    | 'n' :: 'u' :: 'l' :: 'l' :: rest => .ok (.null, rest)
    | 't' :: 'r' :: 'u' :: 'e' :: rest => .ok (.bool true, rest)
    | 'f' :: 'a' :: 'l' :: 's' :: 'e' :: rest => .ok (.bool false, rest)
    | 'N' :: 'a' :: 'N' :: rest => .ok (.float .nan, rest)
    | 'I' :: 'n' :: 'f' :: 'i' :: 'n' :: 'i' :: 't' :: 'y' :: rest => .ok (.float (.inf false), rest)
    | '-' :: 'I' :: 'n' :: 'f' :: 'i' :: 'n' :: 'i' :: 't' :: 'y' :: rest =>
      .ok (.float (.inf true), rest)
    | '-' :: r => scanNumber true r
    | r => scanNumber false r

/-- The items after `[`, the first of them next. -/
def scanItems : Nat → List Json → List Char → Scan Json
  | 0, _, _ => .error .malformed
  | fuel + 1, acc, cs =>
    match scanValue fuel cs with
    | .error e => .error e
    | .ok (v, rest) =>
      match skipSpace rest with
      | ']' :: rest => .ok (.arr (acc ++ [v]), rest)
      | ',' :: rest => scanItems fuel (acc ++ [v]) (skipSpace rest)
      | _ => .error .malformed

/-- The fields after `{`, the first key next. -/
def scanFields : Nat → List (String × Json) → List Char → Scan Json
  | 0, _, _ => .error .malformed
  | fuel + 1, acc, cs =>
    match cs with
    | '"' :: r =>
      match scanString (r.length + 1) r with
      | .error e => .error e
      | .ok (k, rest) =>
        match skipSpace rest with
        | ':' :: rest =>
          match scanValue fuel (skipSpace rest) with
          | .error e => .error e
          | .ok (v, rest) =>
            match skipSpace rest with
            | '}' :: rest => .ok (.obj (bindField (String.ofList k) v acc), rest)
            | ',' :: rest =>
              scanFields fuel (bindField (String.ofList k) v acc) (skipSpace rest)
            | _ => .error .malformed
        | _ => .error .malformed
    | _ => .error .malformed

end

/-- `JSONDecoder().raw_decode(text)` at the start of `cs`. -/
def rawDecode (cs : List Char) : Scan Json := scanValue (cs.length + 1) cs

/-- `json.loads` -/
def loads (text : String) : Except JsonError Json :=
  match rawDecode (skipSpace text.toList) with
  | .error e => .error e
  | .ok (v, rest) => if skipSpace rest = [] then .ok v else .error .malformed

end JsonText
