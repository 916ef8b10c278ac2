-- SUMMARY: JSON values and numbers.
import FeatureStore.Keyed
import FeatureStore.Numeric.Binary64

/-!
# JSON values

A number is an integer or a binary64 number; `1` and `1.0` are different values.
The members of an object are a keyed list: their order is that of their keys, and
a repeated key has kept its last value.
-/

namespace FeatureStore

/-- A JSON number, kept as the kind it was written in. -/
inductive Number
  | int (i : Int)
  | float (x : Binary64)
deriving DecidableEq, Repr, Inhabited

def Number.toBinary64 : Number → Binary64
  | .int i => .ofInt i
  | .float x => x

inductive Json
  | null
  | bool (b : Bool)
  | number (n : Number)
  | string (s : String)
  | array (items : List Json)
  | object (members : List (String × Json))
deriving Inhabited, Repr

namespace Json

def ofInt (i : Int) : Json := .number (.int i)

/-- A finite binary64 number; one that is not finite has no JSON form and is `null`. -/
def ofBinary64 (x : Binary64) : Json :=
  if x.isFinite then .number (.float x) else .null

/-- An object of the given members; of two members of one name the later one stays. -/
def ofMembers (members : List (String × Json)) : Json := .object (Keyed.ofList members)

/-- The member of an object, if the value is an object that has it. -/
def member? (name : String) : Json → Option Json
  | .object members => Keyed.find? name members
  | _ => none

def string? : Json → Option String
  | .string s => some s
  | _ => none

def array? : Json → Option (List Json)
  | .array items => some items
  | _ => none

def object? : Json → Option (Keyed Json)
  | .object members => some members
  | _ => none

/-- A text, or `null`. -/
def ofOptionalText : Option String → Json
  | some s => .string s
  | none => .null

end Json

end FeatureStore
