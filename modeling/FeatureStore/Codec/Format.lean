-- SUMMARY: The two formats of assembled features, and taking features of each apart and together.
import FeatureStore.Codec.Parts
import FeatureStore.Feature.Text
import FeatureStore.Geometry.Embedding

/-!
# Formats

A format is a type of assembled features together with two conversions:
`disassemble` takes a feature apart and `assemble` puts parts together. There are
two formats. An assembled feature of the format `geo` is a `Feature`; one of the
format `json` is a JSON object with the geometry as one of its members.

In both formats the body repeats the id, the version and the tags. When parts are
put together, a tag that is present among the parts wins over the body, and one
that is absent leaves the body as it is.
-/

namespace FeatureStore

inductive Format
  | geo
  | json
deriving DecidableEq, Repr

namespace Format

def name : Format → String
  | .geo => "geo"
  | .json => "json"

def ofName? (name : String) : Option Format :=
  [geo, json].find? (fun format => format.name = name)

@[simp] theorem ofName?_name (format : Format) : ofName? format.name = some format := by
  cases format <;> rfl

/-- The type of the assembled features of a format. -/
abbrev Assembled : Format → Type
  | .geo => Feature
  | .json => Json

end Format

/-! ## The format `geo` -/

namespace Feature

def disassemble (f : Feature) : Parts :=
  { id := some f.id
    version := f.version
    featureType := some f.featureType
    propertiesType := f.propertiesType
    json := some f.body
    geometry := .ofParsed f.geometry }

/-- Put a feature together. Without a body there is no id, and so no feature. -/
def assemble (p : Parts) : Except CodecError Feature :=
  match ofBody? (p.json.getD "\x7b\x7d") with
  | none => .error .unreadableBody
  | some f =>
    .ok {
      id := p.id.getD f.id
      featureType := p.featureType.getD f.featureType
      propertiesType := p.propertiesType.or f.propertiesType
      version := p.version.or f.version
      properties := f.properties
      geometry := p.geometry.peekParsed }

end Feature

/-! ## The format `json` -/

namespace Json

def geometryMember : String := "geometry"

/-- The text of a member, if it is a text. -/
def textMember? (name : String) (members : Keyed Json) : Option String :=
  (members.find? name).bind string?

/-- The geometry among the members of an object. None and `null` are no geometry. -/
def embeddedGeometry (members : Keyed Json) : Except CodecError (Option Geometry) :=
  match members.find? geometryMember with
  | none | some .null => .ok none
  | some v =>
    match Geometry.ofJson? v with
    | some g => .ok (some g)
    | none => .error .unreadableGeometry

/-- Take a JSON object apart. The body is the object without its geometry. -/
def disassemble : Json → Except CodecError Parts
  | .object members =>
    (embeddedGeometry members).map (fun geometry =>
      { id := textMember? "id" members
        version := textMember? "version" members
        featureType := textMember? "type" members
        propertiesType := textMember? "propertiesType" members
        json := some (Json.object (Keyed.erase geometryMember members)).print
        geometry := .ofParsed geometry })
  | _ => .error .notAnObject

/-- Set a member if there is a value for it. -/
def setMember (name : String) (value : Option Json) (members : Keyed Json) : Keyed Json :=
  match value with
  | none => members
  | some v => members.insert name v

def assemble (p : Parts) : Except CodecError Json :=
  match (ofText? (p.json.getD "\x7b\x7d")).bind object? with
  | none => .error .unreadableBody
  | some members =>
    .ok (.object (
      (setMember geometryMember (p.geometry.peekParsed.map Geometry.toJson)
      (setMember "version" (p.version.map .string)
      (setMember "propertiesType" (p.propertiesType.map .string)
      (setMember "type" (p.featureType.map .string)
      (setMember "id" (p.id.map .string) members)))))))

end Json

/-! ## Both formats -/

namespace Format

/-- Take a feature apart. The parts name no operation. -/
def disassemble : (fmt : Format) → fmt.Assembled → Except CodecError Parts
  | .geo, f => .ok f.disassemble
  | .json, v => v.disassemble

/-- Put a feature together. The geometry is taken in its parsed form, which has to
    be derived before. -/
def assemble : (fmt : Format) → Parts → Except CodecError fmt.Assembled
  | .geo, p => Feature.assemble p
  | .json, p => Json.assemble p

end Format

end FeatureStore
