-- SUMMARY: The operations of a codec as data, and their answers.
import FeatureStore.Codec.Basic

/-!
# Uses of a codec

A use of a codec is one operation on it with its arguments. `Codec.perform` carries
a use out and answers what the operation answers, so a whole history of a codec is
a list of uses.
-/

namespace FeatureStore

namespace Codec

inductive LoadEnd
  | row
  | noRow
  | failure
deriving DecidableEq, Repr

inductive Action (fmt : Format)
  | decode (force : Bool)
  | encode (force : Bool)
  | clear
  | clearParts
  | clearFeature
  | copyFrom (other : Codec fmt)
  | withParts (parts : Parts)
  | load (parts : Parts) (ending : LoadEnd)
  | hasError
  | readFeature
  | takeFeature
  | setFeature (f : fmt.Assembled)
  | readOp
  | readId
  | readVersion
  | readFeatureType
  | readPropertiesType
  | readJson
  | readGeometry
  | readBinary
  | setOp (value : Option ExecutedOp)
  | setId (value : Option String)
  | setVersion (value : Option String)
  | setFeatureType (value : Option String)
  | setPropertiesType (value : Option String)
  | setJson (value : Option String)
  | setGeometry (value : Option Geometry)
  | setBinary (value : Option (List UInt8))
  | setError (value : Option CodecError)

/-- What a use of a codec answers. -/
inductive Answer (fmt : Format)
  | done
  | flag (value : Bool)
  | op (value : Option ExecutedOp)
  | text (value : Option String)
  | feature (value : Option fmt.Assembled)
  | geometry (value : Except CodecError (Option Geometry))
  | binary (value : Option (List UInt8))
  | loaded (ending : LoadEnd)

variable {fmt : Format}

/-- The answer that carries the value of a read. -/
def answer {α : Type} (carry : α → Answer fmt) (result : α × Codec fmt) : Answer fmt × Codec fmt :=
  (carry result.1, result.2)

def perform (c : Codec fmt) : Action fmt → Answer fmt × Codec fmt
  | .decode force => (.done, c.decode force)
  | .encode force => (.done, c.encode force)
  | .clear => (.done, c.clear)
  | .clearParts => (.done, c.clearParts)
  | .clearFeature => (.done, c.clearFeature)
  | .copyFrom other => (.done, other)
  | .withParts parts => (.done, ofParts parts)
  | .load parts ending => (.loaded ending, c.load parts (ending == .row))
  | .hasError => (.flag c.error.isSome, c)
  | .readFeature => answer .feature c.assembled
  | .takeFeature => answer .feature c.takeFeature
  | .setFeature f => (.done, c.setFeature f)
  | .readOp => (.op c.parts.op, c)
  | .readId => answer .text c.id
  | .readVersion => answer .text c.version
  | .readFeatureType => answer .text c.featureType
  | .readPropertiesType => answer .text c.propertiesType
  | .readJson => answer .text c.json
  | .readGeometry => answer .geometry c.geometry
  | .readBinary => answer .binary c.binaryGeometry
  | .setOp value => (.done, c.setOp value)
  | .setId value => (.done, c.setId value)
  | .setVersion value => (.done, c.setVersion value)
  | .setFeatureType value => (.done, c.setFeatureType value)
  | .setPropertiesType value => (.done, c.setPropertiesType value)
  | .setJson value => (.done, c.setJson value)
  | .setGeometry value => (.done, c.setGeometry value)
  | .setBinary value => (.done, c.setBinaryGeometry value)
  | .setError value => (.done, c.setError value)

/-- Use a codec several times. The answers come in order. -/
def performAll (c : Codec fmt) : List (Action fmt) → List (Answer fmt) × Codec fmt
  | [] => ([], c)
  | action :: rest =>
    let (answer, c) := c.perform action
    let (answers, c) := performAll c rest
    (answer :: answers, c)

end Codec

end FeatureStore
