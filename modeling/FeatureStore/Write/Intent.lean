-- SUMMARY: Write intents.
import FeatureStore.Codec.Basic
import FeatureStore.Write.Resolution

/-!
# Intents

An intent asks for one operation on one feature. Its codec carries the feature, or
just an id and perhaps a version. The version guards the intent: it says which
stored state the writer has seen.
-/

namespace FeatureStore

structure WriteIntent (fmt : Format) where
  op : WriteOp
  codec : Codec fmt
  noResult : Bool := false
  ifExists : IfExists
  ifConflict : IfConflict
  ifNotExists : IfNotExists

namespace WriteIntent

variable {fmt : Format}

/-- An intent with the policies of its operation. -/
def ofCodec (op : WriteOp) (codec : Codec fmt) : WriteIntent fmt :=
  { op, codec
    ifExists := op.defaultIfExists
    ifConflict := .fail
    ifNotExists := op.defaultIfNotExists }

def ofFeature (op : WriteOp) (f : fmt.Assembled) : WriteIntent fmt := ofCodec op (.ofFeature f)

/-- An intent that carries an id and perhaps a version. -/
def ofId (op : WriteOp) (id : String) (version : Option String) : WriteIntent fmt :=
  ofCodec op (.ofParts { id := some id, version })

/-- Whether the intent carries the body of a feature. -/
def hasFeature (intent : WriteIntent fmt) : Bool :=
  intent.codec.feature.isSome || intent.codec.parts.json.isSome

/-- The intent with the parts of its feature derived. -/
def sync (intent : WriteIntent fmt) : WriteIntent fmt :=
  { intent with codec := intent.codec.sync }

def id (intent : WriteIntent fmt) : Option String × WriteIntent fmt :=
  (intent.sync.codec.parts.id, intent.sync)

/-- Read the version that guards the intent. -/
def version (intent : WriteIntent fmt) : Option String × WriteIntent fmt :=
  (intent.sync.codec.parts.version, intent.sync)

/-- Set the version that guards the intent. -/
def setVersion (intent : WriteIntent fmt) (version : Option String) : WriteIntent fmt :=
  { intent with codec := intent.codec.setVersion version }

/-- Read the parts. An intent whose codec has an error is not valid. -/
def parts (intent : WriteIntent fmt) : Except ErrorCause Parts × WriteIntent fmt :=
  (if intent.sync.codec.error.isSome then .error .invalid else .ok intent.sync.codec.parts,
    intent.sync)

/-- Read what the resolution looks at. -/
def view (intent : WriteIntent fmt) : IntentView × WriteIntent fmt :=
  ({ op := intent.op
     ifExists := intent.ifExists
     ifConflict := intent.ifConflict
     ifNotExists := intent.ifNotExists
     version := intent.sync.codec.parts.version
     hasFeature := intent.hasFeature },
    intent.sync)

end WriteIntent

end FeatureStore
