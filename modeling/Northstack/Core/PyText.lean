import Mathlib

/-!
# Python text

The string operations of the source language the model's texts are built with:
slices, `str.strip`, `repr` of strings and lists of strings, and the `g`
number format. A string is its list of code points.
-/
namespace PyText

/-- `str.isspace` of one code point. -/
def isSpace (c : Char) : Bool :=
  let n := c.toNat
  (9 ≤ n && n ≤ 13) || (28 ≤ n && n ≤ 32) || n = 0x85 || n = 0xA0 || n = 0x1680 ||
    (0x2000 ≤ n && n ≤ 0x200A) || n = 0x2028 || n = 0x2029 || n = 0x202F || n = 0x205F ||
    n = 0x3000

/-- `s[:n]` -/
def slice (n : Nat) (s : String) : String :=
  String.ofList (s.toList.take n)

/-- `s.strip()` -/
def strip (s : String) : String :=
  String.ofList (((s.toList.dropWhile isSpace).reverse.dropWhile isSpace).reverse)

/-- `sep.join(xs)` -/
def join (sep : String) : List String → String
  | [] => ""
  | [x] => x
  | x :: y :: xs => x ++ sep ++ join sep (y :: xs)

/-- The line boundaries of `str.splitlines`, `\r\n` apart. -/
def isLineBreak (c : Char) : Bool :=
  let n := c.toNat
  (10 ≤ n && n ≤ 13) || (28 ≤ n && n ≤ 30) || n = 0x85 || n = 0x2028 || n = 0x2029

/-- `splitlines`, `line` being the reversed start of the current line. -/
def splitLines (line : List Char) : List Char → List (List Char)
  | [] => if line = [] then [] else [line.reverse]
  | '\r' :: '\n' :: cs => line.reverse :: splitLines [] cs
  | c :: cs => if isLineBreak c then line.reverse :: splitLines [] cs else splitLines (c :: line) cs

/-- `s.removesuffix(suffix)` -/
def removeSuffix (suffix s : List Char) : List Char :=
  if suffix.reverse.isPrefixOf s.reverse then s.take (s.length - suffix.length) else s

/-- `s.split(sep)[0]` -/
def beforeFirst (sep : List Char) : List Char → List Char
  | [] => []
  | c :: cs => if sep.isPrefixOf (c :: cs) then [] else c :: beforeFirst sep cs

def hexDigit (n : Nat) : Char :=
  if n < 10 then Char.ofNat (48 + n) else Char.ofNat (87 + n)

/-- One code point inside a `repr` quoted with `q`; code points from U+00A1 on
are taken as printable. -/
def reprChar (q c : Char) : List Char :=
  if c = q || c = '\\' then ['\\', c]
  else if c = '\n' then ['\\', 'n']
  else if c = '\r' then ['\\', 'r']
  else if c = '\t' then ['\\', 't']
  else if c.toNat < 32 || (127 ≤ c.toNat && c.toNat ≤ 160) then
    ['\\', 'x', hexDigit (c.toNat / 16), hexDigit (c.toNat % 16)]
  else [c]

/-- `repr(s)`: single quotes unless the text has one and no double quote. -/
def repr (s : String) : String :=
  let cs := s.toList
  let q := if '\'' ∈ cs && '"' ∉ cs then '"' else '\''
  String.ofList (q :: (cs.flatMap (reprChar q)) ++ [q])

/-- `repr` of a list of strings. -/
def reprList (xs : List String) : String :=
  "[" ++ join ", " (xs.map repr) ++ "]"

/-- `repr` of a list of integers. -/
def reprInts (xs : List Int) : String :=
  "[" ++ join ", " (xs.map toString) ++ "]"

/-! ## The `g` format -/

/-- Round to the nearest integer, ties to even. -/
def roundHalfEven (q : ℚ) : Int :=
  let f := ⌊q⌋
  if q - f < 1 / 2 then f
  else if q - f > 1 / 2 then f + 1
  else if f % 2 = 0 then f else f + 1

/-- The exponent of the largest power of `b` that is at most a positive number. -/
def floorLog (b : Nat) (q : ℚ) : Int :=
  if 1 ≤ q then Nat.log b ⌊q⌋.toNat
  else -(Nat.log b (⌈1 / q⌉.toNat - 1) + 1 : Nat)

def stripZeros (ds : List Char) : List Char :=
  (ds.reverse.dropWhile (· = '0')).reverse

def withPoint (whole frac : List Char) : List Char :=
  if frac = [] then whole else whole ++ '.' :: frac

/-- `format(q, "g")` of a non-negative number: six significant digits, no
trailing zeros, scientific notation outside `1e-4 ≤ q < 1e6`. -/
def formatG (q : ℚ≥0) : String :=
  if q = 0 then "0"
  else
    let e₀ := floorLog 10 q
    let m₀ := roundHalfEven ((q : ℚ) * 10 ^ (5 - e₀))
    let e := if m₀ = 1000000 then e₀ + 1 else e₀
    let ds := (toString (if m₀ = 1000000 then 100000 else m₀)).toList
    if e < -4 || 6 ≤ e then
      let mant := withPoint (ds.take 1) (stripZeros (ds.drop 1))
      let ex := (toString e.natAbs).toList
      let ex := if ex.length < 2 then '0' :: ex else ex
      String.ofList (mant ++ 'e' :: (if e < 0 then '-' else '+') :: ex)
    else if e < 0 then
      String.ofList
        (withPoint ['0'] (stripZeros (List.replicate (e.natAbs - 1) '0' ++ ds)))
    else
      String.ofList (withPoint (ds.take (e.natAbs + 1)) (stripZeros (ds.drop (e.natAbs + 1))))

theorem toDigits_injective : Function.Injective (Nat.toDigits 10) := by
  intro i j h
  rw [← Nat.ofDigitChars_ten_toDigits (n := i), h, Nat.ofDigitChars_ten_toDigits]

end PyText
