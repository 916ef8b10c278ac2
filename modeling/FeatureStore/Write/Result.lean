-- SUMMARY: Results of executed intents.
import FeatureStore.Codec.Basic
import FeatureStore.Error

/-!
# Results

A result says what was done for an intent, and shows the feature that came of it
or, for a rejection, the stored feature that stood in the way. A purge of a live
feature has two results. A result names its intent by the place of execution.
-/

namespace FeatureStore

/-- The result of an executed intent, or of one step of a purge. -/
structure ExecutedResult where
  op : ExecutedOp
  id : Option String := none
  /-- The resulting or the stored feature; none is reported as `null`. -/
  feature : Option Parts := none
  /-- Why the intent was rejected. -/
  cause : Option ErrorCause := none
  /-- The place of execution of the intent. -/
  intent : Nat := 0

namespace ExecutedResult

/-- A step was done and left a feature. -/
def executed (op : ExecutedOp) (feature : Parts) : ExecutedResult :=
  { op, id := feature.id, feature := some feature }

/-- Nothing was changed. -/
def retained (id : Option String) (current : Option Parts) : ExecutedResult :=
  { op := .retained, id, feature := current }

/-- The intent was rejected. -/
def rejected (cause : ErrorCause) (id : Option String) (current : Option Parts) :
    ExecutedResult :=
  { op := .error, id, feature := current, cause := some cause }

/-- The result as that of the intent executed at a place. -/
def forIntent (result : ExecutedResult) (intent : Nat) : ExecutedResult := { result with intent }

/-- The result with the id and version of its feature alone. -/
def withoutBody (result : ExecutedResult) : ExecutedResult :=
  { result with feature := result.feature.map Parts.identity }

def parts (result : ExecutedResult) : Parts :=
  let parts := result.feature.getD {}
  { parts with id := parts.id.or result.id, op := some result.op }

/-- The row that shows the result: the feature with the operation, and the cause of
    a rejection as its error. -/
def toCodec {fmt : Format} (result : ExecutedResult) : Codec fmt :=
  (Codec.ofParts result.parts).setError (result.cause.map CodecError.ofCause)

end ExecutedResult

end FeatureStore
