-- SUMMARY: Errors of codecs, stores and cursors, and their messages.
import FeatureStore.Write.Vocabulary

/-!
# Errors

There are three classes. A `CodecError` concerns one feature and is kept on its
codec, so that one bad feature does not stop a batch. A `StoreError` says that a
store could not run an operation at all. A `CursorError` says that a cursor was
asked for something that its position does not allow, or passes one of the other
two on.
-/

namespace FeatureStore

/-- What went wrong with a feature. -/
inductive CodecErrorKind
  /-- There is no assembled feature to take apart. -/
  | missingFeature
  /-- The feature has no JSON body. -/
  | serialize
  /-- The JSON body is not that of a feature. -/
  | deserialize
  /-- A geometry could not be read. -/
  | geometry
  /-- The write of the feature was rejected. -/
  | write (cause : ErrorCause)
deriving DecidableEq, Repr

def CodecErrorKind.name : CodecErrorKind → String
  | .missingFeature => "MissingFeature"
  | .serialize => "Serialize"
  | .deserialize => "Deserialize"
  | .geometry => "Geometry"
  | .write _ => "Write"

/-- What a kind of error says: its name, with the cause of a rejected write. -/
def CodecErrorKind.display : CodecErrorKind → String
  | .write cause => "Write(" ++ cause.name ++ ")"
  | kind => kind.name

structure CodecError where
  kind : CodecErrorKind
  message : String
deriving DecidableEq, Repr

namespace CodecError

def display (e : CodecError) : String := e.kind.display ++ ": " ++ e.message

/-- A codec without a feature cannot be decoded. -/
def missingFeature : CodecError := ⟨.missingFeature, "decode requires an assembled feature"⟩

/-- A value that is not an object is no feature. -/
def notAnObject : CodecError := ⟨.serialize, "feature must be a JSON object"⟩

/-- A body that does not read as a feature. -/
def unreadableBody : CodecError := ⟨.deserialize, "the body is not that of a feature"⟩

/-- A geometry that does not read. -/
def unreadableGeometry : CodecError := ⟨.geometry, "the geometry cannot be read"⟩

def ofCause (cause : ErrorCause) : CodecError := ⟨.write cause, cause.describe⟩

/-- Whether the error is that of a rejected write. -/
def isRejection (e : CodecError) : Bool :=
  match e.kind with
  | .write _ => true
  | _ => false

end CodecError

inductive StoreError
  /-- A database statement failed. -/
  | statement (operation : String)
  /-- A stored body is not JSON. -/
  | json (id source : String)
  /-- The store is closed. -/
  | closed
  /-- A failure of another backend. -/
  | backend (operation message : String)
deriving DecidableEq, Repr

def StoreError.display : StoreError → String
  | .statement operation => "failed to " ++ operation
  | .json id source => "stored body of feature " ++ id ++ " is not valid JSON: " ++ source
  | .closed => "store is closed"
  | .backend operation message => "backend failure during " ++ operation ++ ": " ++ message

inductive CursorError
  /-- The cursor is not on a row. -/
  | outOfBounds (position : Int)
  /-- There is no next row. -/
  | exhausted
  /-- The cursor is closed. -/
  | closed
  | codec (e : CodecError)
  | store (e : StoreError)
deriving DecidableEq, Repr

def CursorError.display : CursorError → String
  | .outOfBounds position =>
    "cursor is not positioned on a row (position " ++ toString position ++ ")"
  | .exhausted => "cursor has no more rows"
  | .closed => "cursor is closed"
  | .codec e => "codec failure: " ++ e.display
  | .store e => "backend failure: " ++ e.display

end FeatureStore
