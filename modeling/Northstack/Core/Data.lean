import Northstack.Core.Json
import Northstack.Core.TextFiles

/-!
# Decoded data

A value as the source language's `json.loads` builds it. Unlike `Json` its texts may
hold lone surrogates, for a document may escape one. The keys of a dictionary are
distinct.
-/

namespace TextFiles

theorem text_injective : Function.Injective text := by
  intro s t h
  unfold text at h
  exact String.toList_inj.mp (List.map_injective_iff.mpr (fun a b hab => by cases hab; rfl) h)

theorem text_inj {s t : String} : text s = text t ↔ s = t := text_injective.eq_iff

end TextFiles

open TextFiles

inductive Data where
  | null
  | bool (b : Bool)
  | int (i : Int)
  | float (x : PyFloat)
  | str (s : Text)
  | list (xs : List Data)
  | dict (fields : List (Text × Data))

/-- A `dict` with texts for keys, in the order of insertion. -/
abbrev Dict := List (Text × Data)

namespace Data

/-- `bool(d)` -/
def truthy : Data → Bool
  | null => false
  | bool b => b
  | int i => i ≠ 0
  | float (.finite _ mag) => mag ≠ 0
  | float _ => true
  | str s => s ≠ []
  | list xs => !xs.isEmpty
  | dict fields => !fields.isEmpty

/-- `hash(d)` does not raise. -/
def hashable : Data → Bool
  | list _ => false
  | dict _ => false
  | _ => true

/-- `d == s`, for a text. -/
def isText (s : Text) : Data → Bool
  | str t => t = s
  | _ => false

/-- `d == 0` -/
def isZero : Data → Bool
  | bool b => !b
  | int i => i = 0
  | float (.finite _ mag) => mag = 0
  | _ => false

@[simp] theorem isText_iff {s : Text} {d : Data} : d.isText s = true ↔ d = str s := by
  cases d <;> simp [isText]

end Data

namespace Dict

/-- `d.get(key)`; `none` where there is no such key. -/
def get? (key : Text) (d : Dict) : Option Data := (d.find? fun f => f.1 = key).map Prod.snd

/-- `d.get(key, default)` -/
def getD (key : Text) (default : Data) (d : Dict) : Data := (d.get? key).getD default

/-- `{**d, key: value}`: the key keeps its place, or comes last. -/
def set (key : Text) (value : Data) (d : Dict) : Dict :=
  if (d.get? key).isSome then d.map fun f => if f.1 = key then (key, value) else f
  else d ++ [(key, value)]

/-- `{**d, **e}` -/
def update (d e : Dict) : Dict := e.foldl (fun d f => d.set f.1 f.2) d

end Dict
