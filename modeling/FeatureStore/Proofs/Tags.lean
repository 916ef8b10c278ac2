-- SUMMARY: What an assembled feature shows of a tag that has been set among the parts.
import FeatureStore.Proofs.LazyReads

/-!
# Tags

The id, the version and the two types of a feature are texts that it has twice: as parts of
their own, and in its body. When parts are put together, a tag that is there is written over
what the body says, and one that is not there leaves the body alone. So a tag that is set to a
text is shown by the assembled feature, and one that is taken away is shown as the body has
it, although it is no longer there for a reader of the parts.
-/

namespace FeatureStore

variable {fmt : Format} {p : Parts}

/-! ## Tags of parts -/

/-- A tag of a feature. -/
inductive Tag
  | id
  | version
  | featureType
  | propertiesType
deriving DecidableEq, Repr

namespace Tag

/-- The member of a body, or of a JSON object, that holds the tag. -/
def member : Tag → String
  | id => "id"
  | version => "version"
  | featureType => "type"
  | propertiesType => "propertiesType"

def part (p : Parts) : Tag → Option String
  | id => p.id
  | version => p.version
  | featureType => p.featureType
  | propertiesType => p.propertiesType

def edit (value : Option String) : Tag → Codec.PartEdit
  | id => .id value
  | version => .version value
  | featureType => .featureType value
  | propertiesType => .propertiesType value

def read : Tag → LazyRead
  | id => .id
  | version => .version
  | featureType => .featureType
  | propertiesType => .propertiesType

def set (tag : Tag) (value : Option String) (p : Parts) : Parts := (tag.edit value).apply p

variable (tag : Tag) (value : Option String)

@[simp] theorem part_set : tag.part (tag.set value p) = value := by
  cases tag <;> rfl

theorem part_set_of_ne {other : Tag} (h : other ≠ tag) :
    other.part (tag.set value p) = other.part p := by
  cases tag <;> cases other <;> first | rfl | exact absurd rfl h

@[simp] theorem json_set : (tag.set value p).json = p.json := by
  cases tag <;> rfl

@[simp] theorem geometry_set : (tag.set value p).geometry = p.geometry := by
  cases tag <;> rfl

theorem set_withGeometry (cache : GeometryCache) :
    { tag.set value p with geometry := cache } = tag.set value { p with geometry := cache } := by
  cases tag <;> rfl

end Tag

/-! ## Tags of assembled features -/

namespace Format

/-- The tag that a feature shows. -/
def tag? : (fmt : Format) → Tag → fmt.Assembled → Option Json
  | .geo, .id, f => some (.string f.id)
  | .geo, .version, f => f.version.map .string
  | .geo, .featureType, f => some (.string f.featureType)
  | .geo, .propertiesType, f => f.propertiesType.map .string
  | .json, tag, .object members => Keyed.find? tag.member members
  | .json, _, _ => none

/-- The features differ in the tag at most. -/
def AlikeApart : (fmt : Format) → Tag → fmt.Assembled → fmt.Assembled → Prop
  | .geo, tag, f, g =>
    (∀ other, other ≠ tag → tag? .geo other g = tag? .geo other f) ∧
      g.properties = f.properties ∧ g.geometry = f.geometry
  | .json, tag, f, g => ∃ members others : Keyed Json, f = .object members ∧ g = .object others ∧
      ∀ name, name ≠ tag.member → Keyed.find? name others = Keyed.find? name members

/-- What the body says on its own. -/
def body? : (fmt : Format) → Parts → Option fmt.Assembled
  | .geo, p => Feature.ofBody? (p.json.getD "\x7b\x7d")
  | .json, p => ((Json.ofText? (p.json.getD "\x7b\x7d")).bind Json.object?).map .object

/-- The tag that the body shows on its own. -/
def bodyTag? (fmt : Format) (tag : Tag) (p : Parts) : Option Json :=
  (fmt.body? p).bind (fmt.tag? tag)

variable {tag : Tag} {value : Option String} {f g : fmt.Assembled}

theorem body?_of_json {q : Parts} (h : q.json = p.json) : fmt.body? q = fmt.body? p := by
  cases fmt <;> simp only [body?, h]

theorem bodyTag?_of_json {q : Parts} (h : q.json = p.json) :
    fmt.bodyTag? tag q = fmt.bodyTag? tag p := by
  rw [bodyTag?, bodyTag?, body?_of_json h]

/-- Whether parts can be put together depends on their body alone. -/
theorem assemble_isOk (fmt : Format) (p : Parts) :
    (fmt.assemble p).isOk = (fmt.body? p).isSome := by
  cases fmt with
  | geo =>
    simp only [assemble, Feature.assemble, body?]
    cases Feature.ofBody? (p.json.getD "\x7b\x7d") <;> rfl
  | json =>
    simp only [assemble, Json.assemble, body?]
    cases (Json.ofText? (p.json.getD "\x7b\x7d")).bind Json.object? <;> rfl

/-- A tag comes from the parts, or else from the body. -/
theorem tag?_assemble (h : fmt.assemble p = .ok f) (tag : Tag) :
    fmt.tag? tag f = ((tag.part p).map .string).or (fmt.bodyTag? tag p) := by
  cases fmt with
  | geo =>
    simp only [assemble, Feature.assemble] at h
    cases hbody : Feature.ofBody? (p.json.getD "\x7b\x7d") with
    | none => simp [hbody] at h
    | some body =>
      rw [hbody] at h
      cases h
      simp only [bodyTag?, body?, hbody, Option.bind_some]
      cases tag with
      | id => cases hpart : p.id <;> simp [tag?, Tag.part, hpart]
      | version => cases hpart : p.version <;> simp [tag?, Tag.part, hpart]
      | featureType => cases hpart : p.featureType <;> simp [tag?, Tag.part, hpart]
      | propertiesType => cases hpart : p.propertiesType <;> simp [tag?, Tag.part, hpart]
  | json =>
    simp only [assemble, Json.assemble] at h
    cases hbody : (Json.ofText? (p.json.getD "\x7b\x7d")).bind Json.object? with
    | none => simp [hbody] at h
    | some members =>
      rw [hbody] at h
      cases h
      simp only [bodyTag?, body?, hbody, Option.map_some, Option.bind_some]
      cases tag <;> simp [tag?, Tag.part, Tag.member, Json.find?_setMember, Json.geometryMember]

/-- Parts that differ in one tag are put together to features that differ in it at most. -/
theorem alikeApart_assemble (hf : fmt.assemble p = .ok f)
    (hg : fmt.assemble (tag.set value p) = .ok g) : fmt.AlikeApart tag f g := by
  -- The body is the same, and only the member of this tag is written over.
  cases fmt with
  | geo =>
    have hothers : ∀ other, other ≠ tag → tag? .geo other g = tag? .geo other f := by
      intro other hne
      have hbody : bodyTag? .geo other (tag.set value p) = bodyTag? .geo other p :=
        bodyTag?_of_json (Tag.json_set tag value)
      rw [tag?_assemble hf, tag?_assemble hg, Tag.part_set_of_ne _ _ hne, hbody]
    simp only [assemble, Feature.assemble, Tag.json_set, Tag.geometry_set] at hf hg
    cases hbody : Feature.ofBody? (p.json.getD "\x7b\x7d") with
    | none => simp [hbody] at hf
    | some body =>
      simp only [hbody] at hf hg
      cases hf
      cases hg
      exact ⟨hothers, rfl, rfl⟩
  | json =>
    simp only [assemble, Json.assemble, Tag.json_set, Tag.geometry_set] at hf hg
    cases hbody : (Json.ofText? (p.json.getD "\x7b\x7d")).bind Json.object? with
    | none => simp [hbody] at hf
    | some members =>
      simp only [hbody] at hf hg
      cases hf
      cases hg
      refine ⟨_, _, rfl, rfl, fun name hname => ?_⟩
      have hother : ¬ tag.member = name := Ne.symm hname
      cases tag <;>
        simp_all [Json.find?_setMember, Tag.member, Tag.set, Tag.edit, Codec.PartEdit.apply]

/-- Parts that differ in one tag can both be put together or neither, and then to features that
    differ in that tag at most. -/
theorem rebuild_set (fmt : Format) (tag : Tag) (value : Option String) (p : Parts) :
    (∃ e e', fmt.rebuild p = .error e ∧ fmt.rebuild (tag.set value p) = .error e') ∨
    ∃ f g, fmt.rebuild p = .ok f ∧ fmt.rebuild (tag.set value p) = .ok g ∧
      fmt.AlikeApart tag f g ∧
      fmt.tag? tag g = (value.map .string).or (fmt.bodyTag? tag p) := by
  have hgeometry := Tag.geometry_set tag value (p := p)
  -- The geometry is not touched, so it can be parsed for both or for neither.
  cases hcache : p.geometry.withParsed with
  | error e =>
    exact .inl ⟨e, e, rebuild_of_unparsed hcache, rebuild_of_unparsed (hgeometry ▸ hcache)⟩
  | ok cache =>
    have hp : fmt.rebuild p = fmt.assemble { p with geometry := cache } :=
      rebuild_of_withParsed hcache
    have hq : fmt.rebuild (tag.set value p)
        = fmt.assemble (tag.set value { p with geometry := cache }) :=
      (rebuild_of_withParsed (hgeometry ▸ hcache)).trans
        (congrArg fmt.assemble (Tag.set_withGeometry tag value cache))
    have hok : (fmt.rebuild (tag.set value p)).isOk = (fmt.rebuild p).isOk := by
      rw [hp, hq, assemble_isOk, assemble_isOk, body?_of_json (Tag.json_set tag value)]
    cases hf : fmt.rebuild p with
    | error e =>
      cases hg : fmt.rebuild (tag.set value p) with
      | error e' => exact .inl ⟨e, e', rfl, rfl⟩
      | ok g => simp [hf, hg, Except.isOk, Except.toBool] at hok
    | ok f =>
      cases hg : fmt.rebuild (tag.set value p) with
      | error e' => simp [hf, hg, Except.isOk, Except.toBool] at hok
      | ok g =>
        have htag := tag?_assemble (hq.symm.trans hg) tag
        have hbody : fmt.bodyTag? tag (tag.set value { p with geometry := cache })
            = fmt.bodyTag? tag p := bodyTag?_of_json (Tag.json_set tag value)
        rw [Tag.part_set, hbody] at htag
        exact .inr ⟨f, g, rfl, rfl,
          alikeApart_assemble (hp.symm.trans hf) (hq.symm.trans hg), htag⟩

end Format

/-! ## Codecs that show what their parts are put together to -/

namespace Codec

variable {c : Codec fmt}

/-- The codec is made of parts, or of a feature that is the same after it has been taken apart
    and put together again. -/
def Origin.Survives : Origin fmt → Prop
  | .feature f => fmt.Survives f
  | .parts _ | .copied _ | .row _ => True

/-- If the use sets an assembled feature, it is such a feature, too. -/
def Use.Survives : Use fmt → Prop
  | .edit (.feature f) => fmt.Survives f
  | .edit (.part _) | .edit (.op _) | .ask _ | .aside _ => True

/-- The assembled feature that the codec shows is the one that its parts are put together to. -/
structure Matched (c : Codec fmt) : Prop where
  current : c.Current
  rebuilt : c.shown.feature = fmt.rebuilt? c.sync.parts

theorem Current.matched (h : c.Current) (hstale : c.encoded = false) : c.Matched := by
  have hdecoded : c.decoded = true := h.known.resolve_right (by simp [hstale])
  refine ⟨h, ?_⟩
  rw [sync_of_decoded hdecoded]
  exact h.feature_encode hstale

theorem matched_setFeature (c : Codec fmt) {f : fmt.Assembled} (h : fmt.Survives f) :
    (c.setFeature f).Matched := by
  refine ⟨⟨.inr rfl, rfl⟩, ?_⟩
  obtain ⟨p, hp⟩ : ∃ p, fmt.disassemble f = .ok p := by
    cases hparts : fmt.disassemble f with
    | ok p => exact ⟨p, rfl⟩
    | error e =>
      rw [Format.Survives, hparts] at h
      cases h
  have hsync : (c.setFeature f).sync.parts = { p with op := c.parts.op } := by
    simp [sync, decode, setFeature, hp, Parts.onlyOp]
  have hjson : p.json.isNone = false := by
    rw [← Option.not_isSome, Format.isSome_json hp]
    rfl
  rw [hsync, Format.rebuilt?, h.rebuild hp, hjson]
  rfl

theorem Matched.use (h : c.Matched) (use : LazyUse) : (c.perform use.action).2.Matched := by
  obtain ⟨hcurrent, hshown⟩ := h.current.use use
  have hseen : (c.perform use.action).2.sync.parts.seen = c.sync.parts.seen :=
    congrArg Shown.parts hshown
  refine ⟨hcurrent, ?_⟩
  rw [hshown, h.rebuilt, Format.rebuilt?_of_seen hseen]

theorem Matched.edit (h : c.Matched) (edit : Edit fmt) (hedit : (Use.edit edit).Survives) :
    (c.perform edit.action).2.Matched := by
  cases edit with
  | part edit =>
    rw [Edit.perform_part]
    exact (c.current_edit _).matched rfl
  | op value =>
    refine ⟨h.current.setOp value, ?_⟩
    have hafter : (c.perform (Edit.op value).action).2 = c.setOp value := rfl
    have hrebuild : fmt.rebuild (c.sync.setOp value).parts = fmt.rebuild c.sync.parts :=
      Format.rebuild_congr value rfl
    rw [hafter, h.current.shown_setOp, sync_setOp, Format.rebuilt?, hrebuild]
    exact h.rebuilt
  | feature f => exact c.matched_setFeature hedit

theorem Origin.matched_made {origin : Origin fmt} (h : origin.Survives) : origin.made.Matched := by
  cases origin with
  | feature f => exact matched_setFeature {} h
  | parts p => exact Current.matched ⟨.inl rfl, rfl⟩ rfl
  | copied c => exact Current.matched ⟨.inl rfl, rfl⟩ rfl
  | row p => exact Current.matched ⟨.inl rfl, rfl⟩ rfl

theorem Matched.live (h : c.Matched) {uses : List (Use fmt)}
    (huses : ∀ use ∈ uses, use.Survives) : (c.live uses).Matched := by
  induction uses generalizing c with
  | nil => exact h
  | cons use rest ih =>
    have hrest : ∀ use ∈ rest, use.Survives := fun use hmem => huses use (.tail _ hmem)
    cases use with
    | edit edit => exact ih (h.edit edit (huses _ (.head _))) hrest
    | ask use => exact ih (h.use use) hrest
    | aside use => exact ih (h.use use) hrest

/-! ## Setting a tag -/

/-- Setting a tag and reading the codec afterwards, in whatever way. -/
def retag (c : Codec fmt) (tag : Tag) (value : Option String) (reads : List LazyUse) :
    Codec fmt :=
  (c.perform (tag.edit value).action).2.useAll reads

theorem shown_retag (c : Codec fmt) (tag : Tag) (value : Option String) (reads : List LazyUse) :
    (c.retag tag value reads).shown
      = { parts := (tag.set value c.sync.parts).seen
          feature := fmt.rebuilt? (tag.set value c.sync.parts) } := by
  have hedit : (c.perform (tag.edit value).action).2 = c.edit (tag.set value) :=
    Edit.perform_part c (tag.edit value)
  have hcurrent : (c.perform (tag.edit value).action).2.Current := by
    rw [hedit]
    exact c.current_edit _
  obtain ⟨-, hshown⟩ := hcurrent.useAll reads
  rw [retag, hshown, hedit, shown_edit]

/-- However a codec has been made, edited and read: after one of its tags has been set, that tag
    is read as it was set. The feature is put together if and only if the parts could be put
    together before, and shows a text that was set. A tag that was taken away it shows as the body
    has it, so not at all only if the body says nothing of it. In everything else the feature is
    the one that the parts were put together to, and that is the one that was shown
    before unless the codec has been given a feature that comes apart and together as another. -/
theorem tag_is_shown_unless_cleared (origin : Origin fmt) (uses : List (Use fmt)) (tag : Tag)
    (value : Option String) (reads : List LazyUse) :
    let c := origin.made.live uses
    let retagged := c.retag tag value reads
    (retagged.perform tag.read.action).1 = .text value ∧
    retagged.assembled.1.isSome = (fmt.rebuilt? c.sync.parts).isSome ∧
    ∀ g, retagged.assembled.1 = some g →
      fmt.tag? tag g = (value.map .string).or (fmt.bodyTag? tag c.sync.parts) ∧
      (fmt.tag? tag g = value.map .string ↔
        value.isSome = true ∨ fmt.bodyTag? tag c.sync.parts = none) ∧
      ∃ f, fmt.rebuild c.sync.parts = .ok f ∧ fmt.AlikeApart tag f g ∧
        (origin.Survives → (∀ use ∈ uses, use.Survives) → c.assembled.1 = some f) := by
  intro c retagged
  have hshown : retagged.shown = _ := c.shown_retag tag value reads
  have hassembled : retagged.assembled.1 = fmt.rebuilt? (tag.set value c.sync.parts) :=
    congrArg Shown.feature hshown
  refine ⟨?reader, ?assembles, ?feature⟩
  case reader =>
    have hanswer := answer_eq retagged (.read tag.read)
    rw [hshown] at hanswer
    refine hanswer.trans ?_
    cases tag <;> rfl
  case assembles =>
    rw [hassembled, Format.rebuilt?, Format.rebuilt?, Tag.json_set]
    rcases fmt.rebuild_set tag value c.sync.parts with ⟨e, e', hf, hg⟩ | ⟨f, g, hf, hg, -⟩
    · rw [hf, hg]
      rfl
    · rw [hf, hg]
      split <;> rfl
  case feature =>
    intro g hg
    -- A feature has been put together, so there is a body.
    have hbody : c.sync.parts.json.isNone = false := by
      rw [← Bool.not_eq_true]
      intro hnone
      rw [hassembled, Format.rebuilt?, Tag.json_set, hnone] at hg
      cases hg
    rw [hassembled, Format.rebuilt?, Tag.json_set, hbody] at hg
    rcases fmt.rebuild_set tag value c.sync.parts with
      ⟨e, e', -, hset⟩ | ⟨f, g', hf, hset, halike, htag⟩
    · rw [hset] at hg
      cases hg
    · rw [hset] at hg
      obtain rfl : g' = g := Option.some.inj hg
      refine ⟨htag, ?_, f, hf, halike, fun horigin huses => ?_⟩
      · rw [htag]
        cases value <;> simp
      · have hmatched : c.Matched := (Origin.matched_made horigin).live huses
        have hbefore : c.assembled.1 = fmt.rebuilt? c.sync.parts := hmatched.rebuilt
        rw [hbefore, Format.rebuilt?, hbody, hf]
        rfl

/-- A version is set on a feature that has another one. The feature has been read before. -/
theorem tag_is_shown_of_version :
    let f : Feature := { id := "a", version := some "v1", properties := [("n", .null)] }
    let c : Codec .geo := ofFeature f
    let retagged := (c.useAll [.read .feature, .read .json]).retag .version (some "v2") [.encode]
    retagged.version.1 = some "v2" ∧ Format.Survives .geo f ∧
      ∃ g : Feature, retagged.assembled.1 = some g ∧ g.version = some "v2" ∧
        g.properties = f.properties := by
  intro f c retagged
  have hreadable : Format.Readable .geo f :=
    ⟨⟨⟨List.pairwise_singleton _ _, trivial, trivial⟩, by decide⟩, nofun⟩
  have hsurvives : Format.Survives .geo f := hreadable.survives rfl rfl rfl
  let origin : Origin .geo := .feature f
  let before : List (Use .geo) := [.ask (.read .feature), .ask (.read .json)]
  have hbefore : ∀ use ∈ before, use.Survives := by simp [before, Use.Survives]
  have horigin : origin.Survives := hsurvives
  have hmatched : (origin.made.live before).Matched := (Origin.matched_made horigin).live hbefore
  obtain ⟨hread, hassembles, hfeature⟩ :=
    tag_is_shown_unless_cleared origin before .version (some "v2") [.encode]
  rw [← hmatched.rebuilt] at hassembles
  obtain ⟨g, hg⟩ := Option.isSome_iff_exists.mp hassembles
  obtain ⟨htag, -, f', -, ⟨-, hproperties, -⟩, hsame⟩ := hfeature g hg
  obtain rfl : f = f' := Option.some.inj (hsame horigin hbefore)
  refine ⟨Answer.text.inj hread, hsurvives, g, hg, ?_, hproperties⟩
  cases hversion : g.version with
  | none => simp [Format.tag?, hversion] at htag
  | some version => simpa [Format.tag?, hversion] using htag

/-- A feature of the format `geo` whose body can be read back is put together as it was when its
    version has been taken away from the parts. -/
theorem assembled_retag_none {f : Feature} (h : f.Readable) (reads : List LazyUse) :
    ((ofFeature f : Codec .geo).retag .version none reads).assembled.1 = some f := by
  let cleared : Parts := Tag.version.set none f.disassemble
  have hshown : ((ofFeature f : Codec .geo).retag .version none reads).assembled.1
      = Format.rebuilt? .geo cleared :=
    congrArg Shown.feature (shown_retag (ofFeature f : Codec .geo) .version none reads)
  have hassemble : Feature.assemble cleared = .ok f :=
    Feature.assemble_parts (Feature.ofBody?_body h) none none
      (GeometryCache.peekParsed_ofParsed f.geometry)
  have hparsed : cleared.geometry.withParsed = .ok cleared.geometry :=
    GeometryCache.withParsed_ofParsed f.geometry
  have hrebuild : Format.rebuild .geo cleared = .ok f := by
    rw [Format.rebuild_of_withParsed hparsed]
    simp only [Format.assemble]
    exact hassemble
  have hbody : cleared.json.isNone = false := rfl
  rw [hshown, Format.rebuilt?, hbody, hrebuild]
  rfl

/-- The version of a feature is taken away. A reader of the parts finds none, and the feature
    still has it. -/
theorem cleared_version_is_shown :
    let f : Feature := { id := "a", version := some "v1" }
    let cleared := (ofFeature f : Codec .geo).retag .version none []
    cleared.version.1 = none ∧ cleared.assembled.1 = some f := by
  intro f cleared
  have hreadable : f.Readable := ⟨⟨List.Pairwise.nil, trivial⟩, by decide⟩
  exact ⟨rfl, assembled_retag_none hreadable []⟩

end Codec

end FeatureStore
