import Mathlib

/-!
# JSON values

The values a JSON document holds in the source language: integers and floats
are distinct, a float may be an infinity or NaN, and an object keeps its keys
in insertion order.
-/

/-- A float: sign and magnitude, or one of the three tokens JSON has no digits
for. -/
inductive PyFloat where
  | finite (neg : Bool) (mag : ℚ≥0)
  | inf (neg : Bool)
  | nan
  deriving DecidableEq

inductive Json where
  | null
  | bool (b : Bool)
  | int (i : Int)
  | float (x : PyFloat)
  | str (s : String)
  | arr (xs : List Json)
  | obj (fields : List (String × Json))

namespace Json

/-- `fields.get(key)` of an object: the last binding of a key is the one kept. -/
def lookup (key : String) : List (String × Json) → Option Json
  | [] => none
  | (k, v) :: fs => (lookup key fs).or (if k = key then some v else none)

/-- `j.get(key)`, if `j` is an object. -/
def get? (key : String) : Json → Option Json
  | .obj fields => lookup key fields
  | _ => none

/-- The string a key is bound to. -/
def str? (key : String) (j : Json) : Option String :=
  match j.get? key with
  | some (.str s) => some s
  | _ => none

/-- The list a key is bound to. -/
def list? (key : String) (j : Json) : Option (List Json) :=
  match j.get? key with
  | some (.arr xs) => some xs
  | _ => none

/-- The object a key is bound to. -/
def obj? (key : String) (j : Json) : Option (List (String × Json)) :=
  match j.get? key with
  | some (.obj fields) => some fields
  | _ => none

/-- `j[key].extend(xs)` -/
def extend (key : String) (xs : List Json) : Json → Json
  | .obj fields => .obj (fields.map fun f =>
      match f.2 with
      | .arr ys => if f.1 = key then (f.1, .arr (ys ++ xs)) else f
      | _ => f)
  | j => j

end Json
