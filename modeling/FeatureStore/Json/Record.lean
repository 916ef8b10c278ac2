-- SUMMARY: Records of named fields in written JSON.
import FeatureStore.Json.Reading

/-!
# Records in JSON

A record has named fields in a fixed order. It is written as an object of its
fields or as the array of their values in order. An object may leave fields out,
and an array may end before its last fields; whoever reads the record says which
fields can be missing. An object may not name a field twice. Members that are no
field of the record are passed over: their names are read, but their values need
only be well-formed.
-/

namespace FeatureStore

namespace Json

namespace Written

/-- The only value under a name, or nothing in its place if there is none. Fails
    when there are several. -/
def field? (members : List (String × Written)) (name : String) : Option (Option Written) :=
  match members.filter (fun member => member.1 = name) with
  | [] => some none
  | [member] => some (some member.2)
  | _ => none

/-- The values of the fields of a record, in the order of `names`. -/
def fields? (names : List String) : Written → Option (List (Option Written))
  | .object members => do
    let named ← members.mapM (fun (name, value) => (text? name).map (·, value))
    names.mapM (field? named)
  | .array items =>
    if items.length ≤ names.length then
      some (items.map some ++ List.replicate (names.length - items.length) none)
    else none
  | _ => none

def string? : Written → Option String
  | .string pieces => text? pieces
  | _ => none

/-- A text that may be missing or `null`. -/
def optionalString? : Option Written → Option (Option String)
  | none | some .null => some none
  | some w => w.string?.map some

def bool? : Written → Option Bool
  | .bool b => some b
  | _ => none

/-- A natural of at most sixty-four bits, written as an integer. -/
def nat? : Written → Option Nat
  | .numeral n =>
    match n.integer? with
    | some i => if 0 ≤ i then some i.toNat else none
    | none => none
  | _ => none

/-- A field with a value for the case that it is missing. -/
def withDefault {α : Type} (read : Written → Option α) (default : α) : Option Written → Option α
  | none => some default
  | some w => read w

end Written

end Json

end FeatureStore
