import Northstack.Core.Json
import Northstack.Core.Mapping

/-!
# TOML values

The values of a TOML document, and the library that reads and writes documents. What a
document looks like is left to the library: what it writes it reads back. Reading values
into fields is left to the caller; here are the forms a value may have.

**Results.** `readList_map`, `readTable_map`: what was written item by item is read item by
item.
-/

inductive Toml where
  | bool (b : Bool)
  | int (i : Int)
  | float (x : PyFloat)
  | str (s : String)
  /-- A date or a time. -/
  | moment (s : String)
  | array (xs : List Toml)
  | table (t : Mapping String Toml)

namespace Toml

/-- The library: the texts of documents, `tomllib.loads` with `none` for a
`TOMLDecodeError`, and `tomli_w.dumps`. -/
structure Library where
  Document : Type
  loads : Document → Option (Mapping String Toml)
  dumps : Mapping String Toml → Document
  loads_dumps : ∀ t, loads (dumps t) = some t

/-- How values of another type than a field's are converted. -/
structure Lax where
  bool : Toml → Option Bool
  int : Toml → Option Int
  float : Toml → Option ℚ

/-- A finite float, by the number it stands for. -/
def ofRat (x : ℚ) : Toml := .float (.finite (x < 0) x.nnabs)

section

variable (lax : Lax)

def readBool : Toml → Option Bool
  | .bool b => some b
  | t => lax.bool t

def readInt : Toml → Option Int
  | .int i => some i
  | t => lax.int t

/-- A finite float. -/
def readFloat : Toml → Option ℚ
  | .float (.finite neg mag) => some (if neg then -mag else mag)
  | .float _ => none
  | t => lax.float t

end

def readStr : Toml → Option String
  | .str s => some s
  | _ => none

def readList {α : Type} (read : Toml → Option α) : Toml → Option (List α)
  | .array xs => xs.mapM read
  | _ => none

def readTable {α : Type} (read : Toml → Option α) : Toml → Option (Mapping String α)
  | .table t => t.traverse read
  | _ => none

@[simp] theorem readBool_bool (lax : Lax) (b : Bool) : readBool lax (.bool b) = some b := rfl

@[simp] theorem readInt_int (lax : Lax) (i : Int) : readInt lax (.int i) = some i := rfl

@[simp] theorem readStr_str (s : String) : readStr (.str s) = some s := rfl

@[simp] theorem readFloat_ofRat (lax : Lax) (x : ℚ) : readFloat lax (ofRat x) = some x := by
  unfold ofRat readFloat
  by_cases hx : x < 0
  · simp [hx, abs_of_neg hx]
  · simp [hx, abs_of_nonneg (not_lt.mp hx)]

theorem readList_map {α : Type} {read : Toml → Option α} {write : α → Toml}
    {xs : List α} (h : ∀ a ∈ xs, read (write a) = some a) :
    readList read (.array (xs.map write)) = some xs := by
  show (xs.map write).mapM read = some xs
  induction xs with
  | nil => rfl
  | cons a xs ih =>
    rw [List.map_cons, List.mapM_cons, h a List.mem_cons_self, ih fun b hb => h b (.tail _ hb)]
    rfl

theorem readTable_map {α : Type} {read : Toml → Option α} {write : α → Toml}
    (h : ∀ a, read (write a) = some a) (t : Mapping String α) :
    readTable read (.table (t.map write)) = some t :=
  Mapping.traverse_map h t

end Toml
