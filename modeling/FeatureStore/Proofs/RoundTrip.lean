-- SUMMARY: A feature that is taken apart and put together again is the same feature, in both formats.
import FeatureStore.Codec.Format
import FeatureStore.Proofs.BinaryLayout
import FeatureStore.Proofs.Embedding
import FeatureStore.Proofs.JsonText
import FeatureStore.Proofs.Lookups

/-!
# Taking apart and putting together

The parts of a feature say everything about it, as long as its body can be read: its
numbers are integers of sixty-four bits, and its containers nest no deeper than a body may.
Put together, the parts give the feature back. They give it back under another version, if
that is among the parts, because a part wins over the body.
-/

namespace FeatureStore

open Json

/-! ## Records -/

namespace Json.Written

/-- The names of the members are read back. -/
theorem names_scanned (members : List (String × Json)) :
    (scannedMembers (writtenMembers members)).mapM (fun (name, value) => (text? name).map (·, value))
      = some (members.map (fun member => (member.1, member.2.written.scanned))) := by
  induction members with
  | nil => rfl
  | cons member rest ih =>
    obtain ⟨name, value⟩ := member
    simp only [writtenMembers, scannedMembers, List.mapM_cons, text?_scanned, ih]
    rfl

/-- A field is found among members whose names differ. -/
theorem field?_written {members : List (String × Json)} (h : (members.map Prod.fst).Nodup)
    (name : String) :
    field? (members.map (fun member => (member.1, member.2.written.scanned))) name
      = some ((Keyed.find? name members).map (fun value => value.written.scanned)) := by
  induction members with
  | nil => rfl
  | cons member rest ih =>
    obtain ⟨k, value⟩ := member
    obtain ⟨hhead, hrest⟩ := List.nodup_cons.mp h
    by_cases hname : k = name
    · subst hname
      have hothers : (rest.map (fun member => (member.1, member.2.written.scanned))).filter
          (fun member => member.1 = k) = [] := by
        rw [List.filter_eq_nil_iff]
        intro member hmem hkey
        obtain ⟨other, hother, rfl⟩ := List.mem_map.mp hmem
        exact hhead (List.mem_map.mpr ⟨other, hother, of_decide_eq_true hkey⟩)
      rw [field?, List.map_cons, List.filter_cons_of_pos (by simp), hothers]
      simp [Keyed.find?]
    · have hsame := ih hrest
      rw [field?] at hsame ⊢
      rw [List.map_cons, List.filter_cons_of_neg (by simpa using hname), hsame, Keyed.find?,
        if_neg hname]

/-- The fields of a record are found among written members, in whatever order these stand. -/
theorem fields?_written {members : List (String × Json)} (h : (members.map Prod.fst).Nodup)
    (names : List String) :
    (Written.object (scannedMembers (writtenMembers members))).fields? names
      = some (names.map (fun name =>
          (Keyed.find? name members).map (fun value => value.written.scanned))) := by
  rw [fields?, names_scanned]
  change names.mapM _ = _
  rw [funext (field?_written h)]
  exact List.mapM_pure

end Json.Written

/-! ## The body of a feature -/

namespace Feature

/-- A member for a text that may be missing. -/
def optionalText (name : String) : Option String → List (String × Json)
  | none => []
  | some text => [(name, .string text)]

/-- The members of the body, in the order of its fields. -/
def bodyMembers (f : Feature) : List (String × Json) :=
  [("id", .string f.id), ("type", .string f.featureType)]
    ++ optionalText "propertiesType" f.propertiesType
    ++ optionalText "version" f.version
    ++ [("properties", .object f.properties)]

def bodyDepth (f : Feature) : Nat := (Json.object f.properties).depth + 1

/-- The body can be read back: the properties are exact, and nest no deeper than a body may. -/
structure Readable (f : Feature) : Prop where
  exact : (Json.object f.properties).Exact
  shallow : f.bodyDepth ≤ depthLimit

theorem writtenMembers_append (xs ys : List (String × Json)) :
    writtenMembers (xs ++ ys) = writtenMembers xs ++ writtenMembers ys := by
  induction xs with
  | nil => rfl
  | cons member rest ih =>
    obtain ⟨name, value⟩ := member
    simp only [List.cons_append, writtenMembers, ih]

theorem written_eq (f : Feature) : f.written = .object (writtenMembers f.bodyMembers) := by
  have hoptional : ∀ name text, optionalMember name text = writtenMembers (optionalText name text) := by
    intro name text
    cases text <;> rfl
  simp only [written, bodyMembers, writtenMembers_append, hoptional]
  rfl

theorem exactMembers_bodyMembers {f : Feature} (h : (Json.object f.properties).Exact) :
    ExactMembers f.bodyMembers := by
  have hoptional : ∀ name text, ∀ member ∈ optionalText name text, member.2.Exact := by
    intro name text member hmem
    cases text with
    | none => cases hmem
    | some text =>
      rw [List.mem_singleton.mp hmem]
      trivial
  rw [exactMembers_iff]
  intro member hmem
  simp only [bodyMembers, List.mem_append, List.mem_cons, List.not_mem_nil, or_false] at hmem
  rcases hmem with (((rfl | rfl) | hmem) | hmem) | rfl
  · trivial
  · trivial
  · exact hoptional _ _ member hmem
  · exact hoptional _ _ member hmem
  · exact h

/-- The body of a feature is read as its written form. -/
theorem ofText?_body {f : Feature} (h : (Json.object f.properties).Exact) :
    Written.ofText? f.body = some (.object (Written.scannedMembers (writtenMembers f.bodyMembers))) := by
  have hplain : f.written.Plain := by
    rw [written_eq]
    intro token htoken
    rcases List.mem_cons.mp htoken with rfl | htoken
    · trivial
    · exact plain_writtenMembers true f.bodyMembers (exactMembers_bodyMembers h) token htoken
  rw [body, Written.ofText?_text hplain, written_eq]
  rfl

/-- The fields of the body are found among its members. -/
theorem find?_bodyMembers (f : Feature) :
    fieldNames.map (fun name => Keyed.find? name f.bodyMembers)
      = [some (.string f.id), some (.string f.featureType), f.propertiesType.map .string,
          f.version.map .string, some (.object f.properties)] := by
  obtain ⟨id, featureType, propertiesType, version, properties, geometry⟩ := f
  cases propertiesType <;> cases version <;> rfl

theorem nodup_bodyMembers (f : Feature) : (f.bodyMembers.map Prod.fst).Nodup := by
  obtain ⟨id, featureType, propertiesType, version, properties, geometry⟩ := f
  match propertiesType, version with
  | none, none => exact (by decide : ["id", "type", "properties"].Nodup)
  | some _, none => exact (by decide : ["id", "type", "propertiesType", "properties"].Nodup)
  | none, some _ => exact (by decide : ["id", "type", "version", "properties"].Nodup)
  | some _, some _ => exact (by decide : fieldNames.Nodup)

/-- A text is read back from its written form. -/
theorem string?_scanned (s : String) : (Json.string s).written.scanned.string? = some s :=
  text?_scanned s

theorem optionalString?_scanned (text : Option String) :
    Written.optionalString? (text.map (fun s => (Json.string s).written.scanned)) = some text := by
  cases text with
  | none => rfl
  | some s =>
    have hstring : Written.optionalString? (some (Json.string s).written.scanned)
        = (Json.string s).written.scanned.string?.map some := rfl
    rw [Option.map_some, hstring, string?_scanned]
    rfl

theorem properties?_scanned {f : Feature} (h : f.Readable) :
    properties? (Json.object f.properties).written.scanned = some f.properties := by
  have hdepth : (Json.object f.properties).depth ≤ depthLimit - 1 :=
    Nat.le_sub_one_of_lt h.shallow
  rw [properties?, value?_scanned _ h.exact hdepth]
  rfl

/-- The feature without its geometry is read from members that are those of its body, in
    whatever order they stand. -/
theorem ofWritten?_members {f : Feature} (h : f.Readable) {members : List (String × Json)}
    (hnodup : (members.map Prod.fst).Nodup)
    (hsame : ∀ name, Keyed.find? name members = Keyed.find? name f.bodyMembers) :
    ofWritten? (.object (Written.scannedMembers (writtenMembers members)))
      = some { f with geometry := none } := by
  have hfields : fieldNames.map (fun name =>
      (Keyed.find? name members).map (fun value => value.written.scanned))
        = (fieldNames.map (fun name => Keyed.find? name f.bodyMembers)).map
            (Option.map (fun value => value.written.scanned)) := by
    simp only [hsame, List.map_map]
    rfl
  rw [ofWritten?, Written.fields?_written hnodup, hfields, find?_bodyMembers]
  simp only [List.map_cons, List.map_nil, Option.map_some, Option.map_map, Function.comp_def,
    Option.bind_eq_bind, Option.bind_some, string?_scanned, optionalString?_scanned,
    Written.withDefault, properties?_scanned h]
  rfl

/-- The feature of a body is the feature without its geometry. -/
theorem ofBody?_body {f : Feature} (h : f.Readable) :
    ofBody? f.body = some { f with geometry := none } := by
  rw [ofBody?, ofText?_body h.exact]
  exact ofWritten?_members h f.nodup_bodyMembers fun _ => rfl

def withVersion (f : Feature) (version : String) : Feature := { f with version := some version }

/-- Put together from its own parts, a feature is the same but for the version, if another one
    is set among the parts, and the geometry that the parts hold in parsed form. Any body will
    do from which the rest of the feature is read. -/
theorem assemble_parts {f : Feature} {body : String}
    (hbody : ofBody? body = some { f with geometry := none }) (op : Option ExecutedOp)
    (version : Option String) {cache : GeometryCache} (hcache : cache.peekParsed = f.geometry) :
    assemble { f.disassemble with op, version, json := some body, geometry := cache }
      = .ok { f with version := version.or f.version } := by
  simp only [assemble, disassemble, Option.getD_some, hbody, hcache]
  cases f.propertiesType <;> rfl

/-- Put together from its own parts, a feature is the same but for a version that is set
    among the parts, and the geometry that the parts hold in parsed form. -/
theorem assemble_disassemble {f : Feature} (h : f.Readable) (op : Option ExecutedOp)
    (version : String) {cache : GeometryCache} (hcache : cache.peekParsed = f.geometry) :
    assemble { f.disassemble with op, version := some version, geometry := cache }
      = .ok (f.withVersion version) :=
  assemble_parts (ofBody?_body h) op (some version) hcache

end Feature

/-! ## JSON objects -/

namespace Json

theorem find?_setMember (name key : String) (value : Option Json) (members : Keyed Json) :
    (setMember name value members).find? key
      = if name = key then value.or (members.find? key) else members.find? key := by
  cases value with
  | none => simp [setMember]
  | some v => simp [setMember, Keyed.find?_insert]

theorem ascending_setMember {members : Keyed Json} (h : members.Ascending) (name : String)
    (value : Option Json) : (setMember name value members).Ascending := by
  cases value with
  | none => exact h
  | some v => exact Keyed.ascending_insert h name v

/-- A member that has been set anew can be erased again. -/
theorem erase_setMember {members : Keyed Json} (h : members.Ascending) {name : String}
    (hname : members.find? name = none) (value : Option Json) :
    Keyed.erase name (setMember name value members) = members := by
  refine Keyed.eq_of_find? (Keyed.ascending_erase (ascending_setMember h name value) name) h
    fun key => ?_
  rw [Keyed.find?_erase, find?_setMember]
  split
  · next hkey => rw [← hkey, hname]
  · rfl

/-- Setting a member that is there already changes nothing. -/
theorem setMember_of_find? {members : Keyed Json} (h : members.Ascending) {name : String}
    {value : Option Json} (hvalue : ∀ v, value = some v → members.find? name = some v) :
    setMember name value members = members := by
  refine Keyed.eq_of_find? (ascending_setMember h name value) h fun key => ?_
  rw [find?_setMember]
  split
  · next heq =>
    subst heq
    cases value with
    | none => rfl
    | some v => rw [hvalue v rfl, Option.some_or]
  · rfl

/-- A member that is a text is found as this text. -/
theorem find?_of_textMember? {name : String} {members : Keyed Json} {value : Json}
    (h : (textMember? name members).map Json.string = some value) :
    members.find? name = some value := by
  unfold textMember? at h
  cases hfind : members.find? name with
  | none => simp [hfind] at h
  | some found =>
    cases found with
    | string s => simpa [hfind, string?] using h
    | null => simp [hfind, string?] at h
    | bool b => simp [hfind, string?] at h
    | number n => simp [hfind, string?] at h
    | array items => simp [hfind, string?] at h
    | object members => simp [hfind, string?] at h

/-- The members of an object can be read back: they are in order, all but the geometry are
    exact and nest no deeper than a body may, and the geometry, if there is one, is embedded
    as geometries are. -/
structure Readable (members : Keyed Json) : Prop where
  ascending : members.Ascending
  exact : (Json.object (Keyed.erase geometryMember members)).Exact
  shallow : (Json.object (Keyed.erase geometryMember members)).depth ≤ depthLimit
  embedded : members.find? geometryMember = none ∨
    ∃ g : Geometry, g.Sized ∧ members.find? geometryMember = some g.toJson

/-- The body of an object can be read back, whatever its geometry is. -/
structure Legible (members : Keyed Json) : Prop where
  ascending : members.Ascending
  exact : (Json.object (Keyed.erase geometryMember members)).Exact
  shallow : (Json.object (Keyed.erase geometryMember members)).depth ≤ depthLimit

theorem Readable.legible {members : Keyed Json} (h : Readable members) : Legible members :=
  ⟨h.ascending, h.exact, h.shallow⟩

/-- The object under a version. A value that is no object has none. -/
def withVersion (v : Json) (version : String) : Json :=
  match v with
  | .object members => .object (Keyed.insert "version" (.string version) members)
  | _ => v

theorem toJson_ne_null (g : Geometry) : g.toJson ≠ .null := by
  cases g <;> simp [Geometry.toJson]

/-- A geometry with finite coordinates is read as it has been embedded. -/
theorem embeddedGeometry_of_find? {members : Keyed Json} {geometry : Option Geometry}
    (h : members.find? geometryMember = geometry.map Geometry.toJson)
    (hfinite : ∀ g, geometry = some g → g.isFinite = true) :
    embeddedGeometry members = .ok geometry := by
  unfold embeddedGeometry
  cases geometry with
  | none => rw [h, Option.map_none]
  | some g =>
    have hnull := toJson_ne_null g
    simp only [h, Option.map_some, Geometry.ofJson?_toJson, hfinite g rfl, if_true]

/-- The geometry of an object is read as the one that is embedded in it. -/
theorem embeddedGeometry_eq {members : Keyed Json} (h : Readable members)
    {geometry : Option Geometry} (hgeometry : embeddedGeometry members = .ok geometry) :
    members.find? geometryMember = geometry.map Geometry.toJson ∧
      ∀ g, geometry = some g → g.Sized := by
  unfold embeddedGeometry at hgeometry
  rcases h.embedded with hnone | ⟨g, hsized, hsome⟩
  · simp only [hnone] at hgeometry
    cases hgeometry
    exact ⟨hnone, by simp⟩
  · have hnull := toJson_ne_null g
    simp only [hsome, Geometry.ofJson?_toJson] at hgeometry
    cases hfinite : g.isFinite with
    | false =>
      simp only [hfinite, Bool.false_eq_true, if_false] at hgeometry
      cases hgeometry
    | true =>
      simp only [hfinite, if_true] at hgeometry
      cases hgeometry
      exact ⟨hsome, by simpa using hsized⟩

/-- Only an object whose geometry can be read is taken apart. -/
theorem exists_members {v : Json} {p : Parts} (h : disassemble v = .ok p) :
    ∃ members geometry, v = .object members ∧ embeddedGeometry members = .ok geometry ∧
      p = { id := textMember? "id" members
            version := textMember? "version" members
            featureType := textMember? "type" members
            propertiesType := textMember? "propertiesType" members
            json := some (Json.object (Keyed.erase geometryMember members)).print
            geometry := .ofParsed geometry } := by
  cases v with
  | object members =>
    cases hgeometry : embeddedGeometry members with
    | error e => simp [disassemble, hgeometry, Except.map] at h
    | ok geometry =>
      simp only [disassemble, hgeometry, Except.map, Except.ok.injEq] at h
      exact ⟨members, geometry, rfl, hgeometry, h.symm⟩
  | null => cases h
  | bool b => cases h
  | number n => cases h
  | string s => cases h
  | array items => cases h

/-- Setting a tag to the text that it has in the object changes nothing. -/
theorem setMember_textMember? {members : Keyed Json} (h : members.Ascending) (name : String)
    (hname : geometryMember ≠ name) :
    setMember name ((textMember? name members).map .string) (Keyed.erase geometryMember members)
      = Keyed.erase geometryMember members := by
  refine setMember_of_find? (Keyed.ascending_erase h geometryMember) fun v hv => ?_
  rw [Keyed.find?_erase, if_neg hname]
  exact find?_of_textMember? hv

/-- Put together from its own parts, an object is its body with the version and the geometry
    that are set among the parts. -/
theorem assemble_parts {members : Keyed Json} (h : Legible members) {p : Parts}
    (hp : disassemble (.object members) = .ok p) (op : Option ExecutedOp)
    (version : Option String) (cache : GeometryCache) :
    assemble { p with op, version, geometry := cache }
      = .ok (.object (setMember geometryMember (cache.peekParsed.map Geometry.toJson)
          (setMember "version" (version.map .string) (Keyed.erase geometryMember members)))) := by
  obtain ⟨_, geometry, hobject, -, rfl⟩ := exists_members hp
  cases hobject
  have hbody : ofText? (Json.object (Keyed.erase geometryMember members)).print
      = some (.object (Keyed.erase geometryMember members)) :=
    ofTextWithin?_print h.exact h.shallow
  simp only [assemble, Option.getD_some, hbody, Option.bind_some, object?,
    setMember_textMember? h.ascending "id" (by decide),
    setMember_textMember? h.ascending "type" (by decide),
    setMember_textMember? h.ascending "propertiesType" (by decide)]

/-- Put together from its own parts, an object is the same but for the version that is set
    among the parts. -/
theorem assemble_disassemble {members : Keyed Json} (h : Readable members) {p : Parts}
    (hp : disassemble (.object members) = .ok p) (op : Option ExecutedOp) (version : String)
    {cache : GeometryCache} (hcache : cache.peekParsed = p.geometry.peekParsed) :
    assemble { p with op, version := some version, geometry := cache }
      = .ok ((Json.object members).withVersion version) := by
  rw [assemble_parts h.legible hp]
  obtain ⟨_, geometry, hobject, hgeometry, rfl⟩ := exists_members hp
  cases hobject
  obtain ⟨hembedded, -⟩ := embeddedGeometry_eq h hgeometry
  have hparsed : cache.peekParsed = geometry :=
    hcache.trans (GeometryCache.peekParsed_ofParsed geometry)
  have hbody : (Keyed.erase geometryMember members).Ascending :=
    Keyed.ascending_erase h.ascending geometryMember
  rw [hparsed, ← hembedded, withVersion]
  congr 2
  refine Keyed.eq_of_find?
    (ascending_setMember (ascending_setMember hbody _ _) _ _)
    (Keyed.ascending_insert h.ascending "version" _) fun key => ?_
  rw [find?_setMember, find?_setMember, Keyed.find?_erase, Keyed.find?_insert,
    Option.map_some, Option.some_or]
  by_cases hkey : geometryMember = key
  · -- The geometry is set from the cache, or there was none.
    have hversion : "version" ≠ key := by
      rw [← hkey]
      decide
    simp [hkey, hversion]
  · simp [hkey]

end Json

/-! ## Both formats -/

namespace Format

/-- A feature can be read back in its format. The lists of its geometry are no longer than
    the binary form can count. -/
def Readable : (fmt : Format) → fmt.Assembled → Prop
  | .geo, f => f.Readable ∧ ∀ g, f.geometry = some g → g.Sized
  | .json, v => ∃ members, v = .object members ∧ Json.Readable members

def withVersion (version : String) : (fmt : Format) → fmt.Assembled → fmt.Assembled
  | .geo, f => f.withVersion version
  | .json, v => v.withVersion version

variable {fmt : Format} {v : fmt.Assembled} {p : Parts}

/-- The parts of a feature have a body. -/
theorem isSome_json (h : fmt.disassemble v = .ok p) : p.json.isSome := by
  cases fmt with
  | geo =>
    cases h
    rfl
  | json =>
    obtain ⟨members, geometry, -, -, rfl⟩ := Json.exists_members h
    rfl

/-- The parts of a feature hold the geometry in parsed form alone. -/
theorem exists_geometry (h : fmt.Readable v) (hp : fmt.disassemble v = .ok p) :
    ∃ geometry, p.geometry = .ofParsed geometry ∧ ∀ g, geometry = some g → g.Sized := by
  cases fmt with
  | geo =>
    cases hp
    exact ⟨v.geometry, rfl, h.2⟩
  | json =>
    obtain ⟨members, rfl, hmembers⟩ := h
    have hjson : (Json.object members).disassemble = .ok p := hp
    obtain ⟨_, geometry, hobject, hgeometry, rfl⟩ := Json.exists_members hjson
    cases hobject
    exact ⟨geometry, rfl, (Json.embeddedGeometry_eq hmembers hgeometry).2⟩

/-- Put together from its own parts, a feature is the same but for the version that is set
    among the parts. -/
theorem assemble_disassemble (h : fmt.Readable v) (hp : fmt.disassemble v = .ok p)
    (op : Option ExecutedOp) (version : String) {cache : GeometryCache}
    (hcache : cache.peekParsed = p.geometry.peekParsed) :
    fmt.assemble { p with op, version := some version, geometry := cache }
      = .ok (fmt.withVersion version v) := by
  cases fmt with
  | geo =>
    cases hp
    have hparsed : cache.peekParsed = v.geometry :=
      hcache.trans (GeometryCache.peekParsed_ofParsed v.geometry)
    have hassemble := Feature.assemble_disassemble h.1 op version hparsed
    simp only [assemble, withVersion]
    exact hassemble
  | json =>
    obtain ⟨members, rfl, hmembers⟩ := h
    have hassemble := Json.assemble_disassemble hmembers hp op version hcache
    simp only [assemble, withVersion]
    exact hassemble

end Format

end FeatureStore
