-- SUMMARY: JSON values as written, and reading them from tokens and text.
import FeatureStore.Json.Token

/-!
# Written JSON

A written value has the shape of a JSON text but no meaning yet: numerals and
strings are kept as written and the members of an object stand in the order of
the text, repeated names included. Every well-formed text has exactly one written
value, at any depth. `Json.Reading` gives meaning to written values, and can leave
out the parts that nobody asks for.

`Written.ofTokens?` reads tokens one at a time and keeps the enclosing arrays and
objects on a stack, so the depth of a text is no obstacle to it.
-/

namespace FeatureStore

namespace Json

/-- A JSON value as written. -/
inductive Written
  | null
  | bool (b : Bool)
  | numeral (n : Numeral)
  | string (pieces : List Piece)
  | array (items : List Written)
  | object (members : List (List Piece × Written))
deriving Inhabited, Repr

/-- A member of a written object: its name and its value. -/
abbrev WrittenMember := List Piece × Written

namespace Written

/-! ## Tokens of a written value -/

/-- The comma before an item that is not the first. -/
def separator : Bool → List Token
  | true => []
  | false => [.comma]

mutual

def tokens : Written → List Token
  | .null => [.null]
  | .bool b => [.bool b]
  | .numeral n => [.numeral n]
  | .string pieces => [.string pieces]
  | .array items => .openArray :: itemTokens true items
  | .object members => .openObject :: memberTokens true members

/-- The tokens of the items of an array from some item on, up to its end. A comma
    precedes every item but the first. -/
def itemTokens (isFirst : Bool) : List Written → List Token
  | [] => [.closeArray]
  | item :: rest => separator isFirst ++ item.tokens ++ itemTokens false rest

/-- The tokens of the members of an object from some member on, up to its end. -/
def memberTokens (isFirst : Bool) : List (List Piece × Written) → List Token
  | [] => [.closeObject]
  | (name, value) :: rest =>
    separator isFirst ++ [.string name, .colon] ++ value.tokens ++ memberTokens false rest

end

/-- The plain text of a written value: its tokens without blanks. -/
def render (w : Written) : List Char := w.tokens.flatMap Token.render

/-! ## Reading tokens -/

/-- An array or object that has begun and not ended. What has been read of it is
    in reverse. -/
inductive Frame
  | array (before : List Written)
  | object (before : List WrittenMember) (name : List Piece)

/-- What may come next, and the frames around it, the innermost first. -/
inductive Reader
  /-- A value. -/
  | atValue (frames : List Frame)
  /-- The first item of an array, or its end. -/
  | opened (frames : List Frame)
  /-- The name of a member; or the end of the object, if `mayEnd`. -/
  | atName (before : List WrittenMember) (mayEnd : Bool) (frames : List Frame)
  /-- The colon after the name of a member. -/
  | atColon (before : List WrittenMember) (name : List Piece) (frames : List Frame)
  /-- A comma or the end of the array. -/
  | afterItem (before : List Written) (frames : List Frame)
  /-- A comma or the end of the object. -/
  | afterMember (before : List WrittenMember) (frames : List Frame)
  /-- Nothing: the value is complete. -/
  | done (w : Written)

namespace Reader

/-- A value is complete inside the given frames. -/
def complete (w : Written) : List Frame → Reader
  | [] => .done w
  | .array before :: frames => .afterItem (w :: before) frames
  | .object before name :: frames => .afterMember ((name, w) :: before) frames

/-- The first token of a value. -/
def begin? (frames : List Frame) : Token → Option Reader
  | .null => some (complete .null frames)
  | .bool b => some (complete (.bool b) frames)
  | .numeral n => some (complete (.numeral n) frames)
  | .string pieces => some (complete (.string pieces) frames)
  | .openArray => some (.opened frames)
  | .openObject => some (.atName [] true frames)
  | .closeArray | .closeObject | .comma | .colon => none

/-- Read one token. -/
def next? : Reader → Token → Option Reader
  | .atValue frames, token => begin? frames token
  | .opened frames, .closeArray => some (complete (.array []) frames)
  | .opened frames, token => begin? (.array [] :: frames) token
  | .atName before _ frames, .string name => some (.atColon before name frames)
  | .atName before true frames, .closeObject => some (complete (.object before.reverse) frames)
  | .atName .., _ => none
  | .atColon before name frames, .colon => some (.atValue (.object before name :: frames))
  | .atColon .., _ => none
  | .afterItem before frames, .comma => some (.atValue (.array before :: frames))
  | .afterItem before frames, .closeArray => some (complete (.array before.reverse) frames)
  | .afterItem .., _ => none
  | .afterMember before frames, .comma => some (.atName before false frames)
  | .afterMember before frames, .closeObject => some (complete (.object before.reverse) frames)
  | .afterMember .., _ => none
  | .done _, _ => none

def result? : Reader → Option Written
  | .done w => some w
  | _ => none

end Reader

/-- The value that the tokens write, if they write exactly one. -/
def ofTokens? (tokens : List Token) : Option Written :=
  (tokens.foldlM Reader.next? (.atValue [])).bind Reader.result?

/-- The value that a text writes, if the text is well-formed. -/
def ofText? (text : String) : Option Written :=
  (Token.scan text.toList).bind ofTokens?

end Written

end Json

end FeatureStore
