-- SUMMARY: Codecs: a feature assembled, taken apart, or both, each form derived from the other on demand.
import FeatureStore.Codec.Format

/-!
# Codecs

A codec holds one feature in two forms: its parts and its assembled form. A codec
is *decoded* when its parts are those of the feature, and *encoded* when the
assembled feature is that of the parts. `decode` derives the parts and `encode`
the assembled feature; both do nothing when what they derive is there already,
unless they are forced to.

A failure is kept on the codec as its error. A failed `decode` leaves the parts
and a failed `encode` leaves the assembled feature as they were.

Reading a part decodes first when only the assembled feature is known, so a read
returns the codec it leaves behind along with the value. Setting a part drops the
assembled feature, and setting the assembled feature drops the parts.
-/

namespace FeatureStore

/-- A feature in two forms. -/
structure Codec (fmt : Format) where
  parts : Parts := {}
  feature : Option fmt.Assembled := none
  decoded : Bool := false
  encoded : Bool := false
  error : Option CodecError := none
deriving Inhabited

namespace Codec

variable {fmt : Format}

/-! ## Deriving one form from the other -/

/-- Derive the parts from the assembled feature. The operation stays. -/
def decode (c : Codec fmt) (force : Bool) : Codec fmt :=
  if c.decoded && !force then c
  else
    match c.feature with
    | none => { c with decoded := false, error := some .missingFeature }
    | some f =>
      match fmt.disassemble f with
      | .ok parts =>
        { c with parts := { parts with op := c.parts.op }, decoded := true, error := none }
      | .error e => { c with decoded := false, error := some e }

/-- Derive the assembled feature from parts whose geometry is parsed. -/
def assemble (c : Codec fmt) : Codec fmt :=
  match fmt.assemble c.parts with
  | .ok f => { c with feature := some f, encoded := true, error := none }
  | .error e => { c with encoded := false, error := some e }

def withGeometry (c : Codec fmt) (cache : GeometryCache) : Codec fmt :=
  { c with parts := { c.parts with geometry := cache } }

/-- Derive the assembled feature from the parts. Without a body there is nothing
    to derive it from, and the codec is left alone. -/
def encode (c : Codec fmt) (force : Bool) : Codec fmt :=
  if (c.encoded && !force) || c.parts.json.isNone then c
  else
    match c.parts.geometry.withParsed with
    | .ok cache => (c.withGeometry cache).assemble
    | .error e => { c with encoded := false, error := some e }

/-- Derive the parts if only the assembled feature is known. -/
def sync (c : Codec fmt) : Codec fmt :=
  if !c.decoded && c.feature.isSome then c.decode false else c

/-! ## Making codecs -/

def ofParts (parts : Parts) : Codec fmt := { parts, decoded := true }

/-- Make the feature the only form. The operation stays. -/
def setFeature (c : Codec fmt) (f : fmt.Assembled) : Codec fmt :=
  { parts := c.parts.onlyOp, feature := some f, encoded := true }

def ofFeature (f : fmt.Assembled) : Codec fmt := setFeature {} f

/-- A codec of the parts of another one, of any format. -/
def withParts {other : Format} (source : Codec other) : Codec fmt := ofParts source.parts

/-- A codec of loaded parts, which count only if the load found a row. -/
def ofLoad (parts : Parts) (found : Bool) : Codec fmt := { parts, decoded := found }

/-! ## Reusing a codec -/

def clear (c : Codec fmt) : Codec fmt :=
  { c with parts := {}, feature := none, decoded := false, encoded := false, error := none }

/-- Fill the codec anew. It is cleared first, so that a load which leaves parts untouched leaves
    nothing of what was there. -/
def load (c : Codec fmt) (parts : Parts) (found : Bool) : Codec fmt :=
  { c.clear with parts, decoded := found }

@[simp] theorem clear_eq (c : Codec fmt) : c.clear = {} := rfl

@[simp] theorem load_eq (c : Codec fmt) (parts : Parts) (found : Bool) :
    c.load parts found = ofLoad parts found := rfl

/-! ## Dropping a form -/

def clearParts (c : Codec fmt) : Codec fmt := { c with parts := {}, decoded := false }

def clearFeature (c : Codec fmt) : Codec fmt := { c with feature := none, encoded := false }

/-! ## Reading -/

def read {α : Type} (c : Codec fmt) (get : Parts → α) : α × Codec fmt :=
  (get c.sync.parts, c.sync)

def id (c : Codec fmt) : Option String × Codec fmt := c.read Parts.id

def version (c : Codec fmt) : Option String × Codec fmt := c.read Parts.version

def featureType (c : Codec fmt) : Option String × Codec fmt := c.read Parts.featureType

def propertiesType (c : Codec fmt) : Option String × Codec fmt := c.read Parts.propertiesType

def json (c : Codec fmt) : Option String × Codec fmt := c.read Parts.json

def geometry (c : Codec fmt) : Except CodecError (Option Geometry) × Codec fmt :=
  let c := c.sync
  let (result, cache) := c.parts.geometry.readParsed
  (result, c.withGeometry cache)

def binaryGeometry (c : Codec fmt) : Option (List UInt8) × Codec fmt :=
  let c := c.sync
  let (result, cache) := c.parts.geometry.readBinary
  (result, c.withGeometry cache)

def assembled (c : Codec fmt) : Option fmt.Assembled × Codec fmt :=
  ((c.encode false).feature, c.encode false)

def takeFeature (c : Codec fmt) : Option fmt.Assembled × Codec fmt :=
  ((c.encode false).feature, (c.encode false).clearFeature)

/-! ## Writing -/

/-- Change the parts. The assembled feature is dropped. -/
def edit (c : Codec fmt) (change : Parts → Parts) : Codec fmt :=
  { c.sync with parts := change c.sync.parts, decoded := true }.clearFeature

def setId (c : Codec fmt) (value : Option String) : Codec fmt :=
  c.edit ({ · with id := value })

def setVersion (c : Codec fmt) (value : Option String) : Codec fmt :=
  c.edit ({ · with version := value })

def setFeatureType (c : Codec fmt) (value : Option String) : Codec fmt :=
  c.edit ({ · with featureType := value })

def setPropertiesType (c : Codec fmt) (value : Option String) : Codec fmt :=
  c.edit ({ · with propertiesType := value })

def setJson (c : Codec fmt) (value : Option String) : Codec fmt :=
  c.edit ({ · with json := value })

def setGeometry (c : Codec fmt) (value : Option Geometry) : Codec fmt :=
  c.edit ({ · with geometry := .ofParsed value })

def setBinaryGeometry (c : Codec fmt) (value : Option (List UInt8)) : Codec fmt :=
  c.edit ({ · with geometry := .ofBinary value })

/-- Set the operation. It is no part of the feature, so both forms stay. -/
def setOp (c : Codec fmt) (op : Option ExecutedOp) : Codec fmt :=
  { c with parts := { c.parts with op } }

def setError (c : Codec fmt) (error : Option CodecError) : Codec fmt := { c with error }

end Codec

end FeatureStore
