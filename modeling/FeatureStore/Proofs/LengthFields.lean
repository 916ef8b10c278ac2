-- SUMMARY: Decoding accepts exactly the binary forms, and refuses every length that the bytes after it cannot hold.
import FeatureStore.Proofs.BinaryAcceptance

/-!
# Lengths in binary forms

A list is written as its length and its items, so a length may claim more items than the
bytes after it can hold. `lengthFields` says after which bytes of a binary form such a
length stands, at every depth, and how many bytes an item of its list needs at least. All
that stands before a length is read as it was written, and so decoding comes to the length
and fails there, if the length is too large for what follows.
-/

namespace FeatureStore

/-! ## How many bytes items need -/

namespace Binary

variable {α : Type} {write : α → List UInt8} {width : Nat}

theorem mul_le_length_flatMap (h : ∀ item, width ≤ (write item).length) (items : List α) :
    items.length * width ≤ (items.flatMap write).length := by
  induction items with
  | nil => simp
  | cons first others ih =>
    have hfirst := h first
    rw [List.flatMap_cons, List.length_append, List.length_cons, Nat.succ_mul]
    omega

theorem length_le_length_flatMap (write : α → List UInt8) {items : List α} {item : α}
    (h : item ∈ items) :
    (write item).length ≤ (items.flatMap write).length := by
  obtain ⟨before, after, rfl⟩ := List.append_of_mem h
  simp only [List.flatMap_append, List.flatMap_cons, List.length_append]
  omega

@[simp] theorem length_word32 (n : Nat) : (word32 n).length = 4 := LittleEndian.length_bytes 4 n

@[simp] theorem length_word64 (n : Nat) : (word64 n).length = 8 := LittleEndian.length_bytes 8 n

theorem le_length_list (write : α → List UInt8) (items : List α) :
    8 ≤ (list write items).length := by
  simp [list]

end Binary

theorem Coord.le_length_encode (c : Coord) : 16 ≤ c.encode.length := by
  simp [Coord.encode, Binary.number]

theorem Polygon.le_length_encode (p : Polygon) : 16 ≤ p.encode.length := by
  have hexterior := Binary.le_length_list Coord.encode p.exterior
  have hinteriors := Binary.le_length_list Coord.encodeList p.interiors
  rw [Polygon.encode, Coord.encodeList, List.length_append]
  omega

namespace Geometry

theorem le_length_encodeBody (g : Geometry) : 8 ≤ g.encodeBody.length := by
  cases g with
  | point c => simp [encodeBody, Coord.encode, Binary.number]
  | line start stop => simp [encodeBody, Coord.encode, Binary.number]
  | lineString points => simp [encodeBody, Coord.encodeList, Binary.list]
  | polygon p =>
    have hp := p.le_length_encode
    rw [encodeBody]
    omega
  | multiPoint points => simp [encodeBody, Coord.encodeList, Binary.list]
  | multiLineString lines => simp [encodeBody, Binary.list]
  | multiPolygon polygons => simp [encodeBody, Binary.list]
  | collection members => simp [encodeBody_collection]
  | rect min max => simp [encodeBody, Coord.encode, Binary.number]
  | triangle a b c => simp [encodeBody, Coord.encode, Binary.number]

theorem le_length_encode (g : Geometry) : 12 ≤ g.encode.length := by
  have hbody := g.le_length_encodeBody
  rw [encode, List.length_append, Binary.length_word32]
  omega

end Geometry

/-! ## Byte strings that a word can count

A list has no more items than its binary form has bytes. So the lists of a geometry are
counted by words, if the bytes of its binary form are. -/

theorem Coord.length_lt_of_encodeList {points : List Coord}
    (h : (Coord.encodeList points).length < UInt64.size) : points.length < UInt64.size := by
  have hpoints := Binary.mul_le_length_flatMap Coord.le_length_encode points
  rw [Coord.encodeList, Binary.list, List.length_append] at h
  omega

theorem Coord.lengths_lt_of_list {lines : List (List Coord)}
    (h : (Binary.list Coord.encodeList lines).length < UInt64.size) :
    lines.length < UInt64.size ∧ ∀ points ∈ lines, points.length < UInt64.size := by
  rw [Binary.list, List.length_append] at h
  have hwidth (points : List Coord) : 8 ≤ (Coord.encodeList points).length :=
    Binary.le_length_list Coord.encode points
  have hlines := Binary.mul_le_length_flatMap hwidth lines
  refine ⟨by omega, fun points hmem => Coord.length_lt_of_encodeList ?_⟩
  have hpoints := Binary.length_le_length_flatMap Coord.encodeList hmem
  omega

theorem Polygon.sized_of_length {p : Polygon} (h : p.encode.length < UInt64.size) : p.Sized := by
  rw [Polygon.encode, List.length_append] at h
  exact ⟨Coord.length_lt_of_encodeList (by omega), Coord.lengths_lt_of_list (by omega)⟩

namespace Geometry

theorem length_le_length_encodeMembers (members : List Geometry) :
    members.length ≤ (encodeMembers members).length := by
  have hmembers := Binary.mul_le_length_flatMap le_length_encode members
  rw [encodeMembers_eq]
  omega

mutual

theorem sized_of_length : (g : Geometry) → g.encodeBody.length < UInt64.size → g.Sized
  | .point _, _ | .line .., _ | .rect .., _ | .triangle .., _ => trivial
  | .lineString _, h | .multiPoint _, h => Coord.length_lt_of_encodeList h
  | .polygon _, h => Polygon.sized_of_length h
  | .multiLineString _, h => Coord.lengths_lt_of_list h
  | .multiPolygon polygons, h => by
    have hbody : (Binary.list Polygon.encode polygons).length < UInt64.size := h
    rw [Binary.list, List.length_append] at hbody
    have hpolygons := Binary.mul_le_length_flatMap Polygon.le_length_encode polygons
    refine ⟨by omega, fun p hmem => Polygon.sized_of_length ?_⟩
    have hp := Binary.length_le_length_flatMap Polygon.encode hmem
    omega
  | .collection members, h => by
    rw [encodeBody_collection, List.length_append] at h
    have hlength := length_le_length_encodeMembers members
    exact (sized_collection members).mpr ⟨by omega, areSized_of_length members (by omega)⟩

theorem areSized_of_length : (members : List Geometry) →
    (encodeMembers members).length < UInt64.size → AreSized members
  | [], _ => trivial
  | g :: rest, h => by
    rw [encodeMembers_cons, List.length_append] at h
    have hbody := g.length_encodeBody_lt
    exact (areSized_cons g rest).mpr
      ⟨sized_of_length g (by omega), areSized_of_length rest (by omega)⟩

end

end Geometry

/-! ## Where lengths stand -/

/-- A length in a byte string: the bytes that stand before it, and how many bytes an item of
    its list needs at least. -/
structure LengthField where
  before : List UInt8
  itemWidth : Nat

namespace LengthField

/-- The length when more bytes stand before it. -/
def after (bytes : List UInt8) (field : LengthField) : LengthField :=
  { field with before := bytes ++ field.before }

theorem length_before_after (bytes : List UInt8) (field : LengthField) :
    (field.after bytes).before.length = bytes.length + field.before.length :=
  List.length_append

/-- The byte string has a length there. -/
def Within (field : LengthField) (bytes : List UInt8) : Prop :=
  ∃ n rest, bytes = field.before ++ (Binary.word64 n ++ rest)

theorem Within.append {field : LengthField} {bytes : List UInt8} (h : field.Within bytes)
    (more : List UInt8) : field.Within (bytes ++ more) := by
  obtain ⟨n, rest, rfl⟩ := h
  exact ⟨n, rest ++ more, by simp only [List.append_assoc]⟩

theorem Within.after {field : LengthField} {bytes : List UInt8} (h : field.Within bytes)
    (before : List UInt8) : (field.after before).Within (before ++ bytes) := by
  obtain ⟨n, rest, rfl⟩ := h
  exact ⟨n, rest, by simp only [LengthField.after, List.append_assoc]⟩

end LengthField

namespace Binary

variable {α : Type}

/-- The lengths in the items of a list, from those in each item. -/
def itemFields (write : α → List UInt8) (inner : α → List LengthField) :
    List α → List LengthField
  | [] => []
  | item :: rest => inner item ++ (itemFields write inner rest).map (.after (write item))

/-- The lengths in a list: its own, and those in its items. -/
def listFields (itemWidth : Nat) (write : α → List UInt8) (inner : α → List LengthField)
    (items : List α) : List LengthField :=
  ⟨[], itemWidth⟩ :: (itemFields write inner items).map (.after (word64 items.length))

end Binary

def Coord.listFields (points : List Coord) : List LengthField :=
  Binary.listFields 16 Coord.encode (fun _ => []) points

def Coord.linesFields (lines : List (List Coord)) : List LengthField :=
  Binary.listFields 8 Coord.encodeList Coord.listFields lines

def Polygon.lengthFields (p : Polygon) : List LengthField :=
  Coord.listFields p.exterior
    ++ (Coord.linesFields p.interiors).map (.after (Coord.encodeList p.exterior))

namespace Geometry

mutual

/-- The lengths in the binary form of a geometry without its kind. -/
def bodyFields : Geometry → List LengthField
  | .point _ | .line .. | .rect .. | .triangle .. => []
  | .lineString points | .multiPoint points => Coord.listFields points
  | .polygon p => p.lengthFields
  | .multiLineString lines => Coord.linesFields lines
  | .multiPolygon polygons =>
    Binary.listFields 16 Polygon.encode Polygon.lengthFields polygons
  | .collection members =>
    ⟨[], 12⟩ :: (memberFields members).map (.after (Binary.word64 members.length))

def memberFields : List Geometry → List LengthField
  | [] => []
  | g :: rest =>
    g.bodyFields.map (.after (Binary.word32 g.kind)) ++ (memberFields rest).map (.after g.encode)

end

/-- The lengths in the binary form of a geometry. -/
def lengthFields (g : Geometry) : List LengthField :=
  g.bodyFields.map (.after (Binary.word32 g.kind))

end Geometry

/-! ### They stand there -/

namespace Binary

variable {α : Type} {write : α → List UInt8} {inner : α → List LengthField}

theorem within_itemFields {items : List α}
    (h : ∀ item ∈ items, ∀ field ∈ inner item, field.Within (write item)) :
    ∀ field ∈ itemFields write inner items, field.Within (items.flatMap write) := by
  induction items with
  | nil => simp [itemFields]
  | cons item rest ih =>
    intro field hfield
    rw [List.flatMap_cons]
    rcases List.mem_append.mp hfield with hfirst | hothers
    · exact (h item List.mem_cons_self field hfirst).append _
    · obtain ⟨other, hother, rfl⟩ := List.mem_map.mp hothers
      exact (ih (fun item hmem => h item (List.mem_cons_of_mem _ hmem)) other hother).after _

theorem within_listFields {itemWidth : Nat} {items : List α}
    (h : ∀ item ∈ items, ∀ field ∈ inner item, field.Within (write item)) :
    ∀ field ∈ listFields itemWidth write inner items, field.Within (list write items) := by
  intro field hfield
  rcases List.mem_cons.mp hfield with rfl | hitems
  · exact ⟨items.length, _, rfl⟩
  · obtain ⟨other, hother, rfl⟩ := List.mem_map.mp hitems
    exact (within_itemFields h other hother).after _

end Binary

theorem Coord.within_listFields (points : List Coord) :
    ∀ field ∈ Coord.listFields points, field.Within (Coord.encodeList points) :=
  Binary.within_listFields fun _ _ _ h => nomatch h

theorem Coord.within_linesFields (lines : List (List Coord)) :
    ∀ field ∈ Coord.linesFields lines, field.Within (Binary.list Coord.encodeList lines) :=
  Binary.within_listFields fun points _ => Coord.within_listFields points

theorem Polygon.within_lengthFields (p : Polygon) :
    ∀ field ∈ p.lengthFields, field.Within p.encode := by
  intro field hfield
  rcases List.mem_append.mp hfield with hexterior | hinteriors
  · exact (Coord.within_listFields p.exterior field hexterior).append _
  · obtain ⟨other, hother, rfl⟩ := List.mem_map.mp hinteriors
    exact (Coord.within_linesFields p.interiors other hother).after _

namespace Geometry

mutual

theorem within_bodyFields : (g : Geometry) → ∀ field ∈ g.bodyFields, field.Within g.encodeBody
  | .point _, _, h | .line .., _, h | .rect .., _, h | .triangle .., _, h => nomatch h
  | .lineString points, field, h | .multiPoint points, field, h =>
    Coord.within_listFields points field h
  | .polygon p, field, h => p.within_lengthFields field h
  | .multiLineString lines, field, h => Coord.within_linesFields lines field h
  | .multiPolygon polygons, field, h =>
    Binary.within_listFields (fun p _ => p.within_lengthFields) field h
  | .collection members, field, h => by
    rw [encodeBody_collection]
    rw [bodyFields] at h
    rcases List.mem_cons.mp h with rfl | hmembers
    · exact ⟨members.length, _, rfl⟩
    · obtain ⟨other, hother, rfl⟩ := List.mem_map.mp hmembers
      exact (within_memberFields members other hother).after _

theorem within_memberFields : (members : List Geometry) →
    ∀ field ∈ memberFields members, field.Within (encodeMembers members)
  | [], _, h => nomatch h
  | g :: rest, field, h => by
    rw [encodeMembers_cons]
    rw [memberFields] at h
    rcases List.mem_append.mp h with hfirst | hothers
    · obtain ⟨other, hother, rfl⟩ := List.mem_map.mp hfirst
      exact ((within_bodyFields g other hother).after _).append _
    · obtain ⟨other, hother, rfl⟩ := List.mem_map.mp hothers
      exact (within_memberFields rest other hother).after _

end

end Geometry

/-! ## Lengths that are refused -/

namespace ByteReader

variable {α β : Type} {read : ByteReader α} {next : α → ByteReader β} {field : LengthField}
  {write : α → List UInt8} {valid : α → Prop} {inner : α → List LengthField} {width : Nat}
  {items : List α}

/-- The reader fails on every byte string that has a length there for which too few bytes
    follow. -/
def Refuses (read : ByteReader α) (field : LengthField) : Prop :=
  ∀ n after, n < UInt64.size → after.length < n * field.itemWidth →
    read (field.before ++ (Binary.word64 n ++ after)) = none

/-- The length stands in what is read first. -/
theorem Refuses.bind (h : Refuses read field) (next : α → ByteReader β) :
    Refuses (read >>= next) field := by
  intro n after hn hshort
  change (read _).bind (fun (a, left) => next a left) = none
  rw [h n after hn hshort]
  rfl

/-- The length stands in what is read later. -/
theorem Reads.refuses {bytes : List UInt8} {a : α} (hread : Reads read bytes a)
    (hnext : Refuses (next a) field) : Refuses (read >>= next) (field.after bytes) := by
  intro n after hn hshort
  change (read (bytes ++ field.before ++ _)).bind (fun (a, left) => next a left) = none
  rw [List.append_assoc, hread]
  exact hnext n after hn hshort

/-- A list is refused for its own length. -/
theorem refuses_list (h : Takes read write valid) (hwidth : ∀ item, width ≤ (write item).length) :
    Refuses (list read) ⟨[], width⟩ := by
  intro n after hn hshort
  have hlength : word 8 (Binary.word64 n ++ after) = some (n, after) := reads_word 8 hn after
  cases hlist : list read (Binary.word64 n ++ after) with
  | none => exact hlist
  | some result =>
    obtain ⟨items, rest⟩ := result
    obtain ⟨m, left, hword, hitems⟩ := bind_eq_some.mp hlist
    rw [hlength] at hword
    cases hword
    obtain ⟨rfl, rfl, -⟩ := many_eq_some h hitems
    have hbytes := Binary.mul_le_length_flatMap hwidth items
    have htoo : (items.flatMap write ++ rest).length < items.length * width := hshort
    rw [List.length_append] at htoo
    omega

/-- Items are refused for a length in one of them. -/
theorem refuses_itemFields (hreads : ∀ item ∈ items, Reads read (write item) item)
    (hinner : ∀ item ∈ items, ∀ field ∈ inner item, Refuses read field) :
    ∀ field ∈ Binary.itemFields write inner items, Refuses (many read items.length) field := by
  induction items with
  | nil => exact fun _ h => nomatch h
  | cons item rest ih =>
    intro field hfield
    rcases List.mem_append.mp hfield with hfirst | hothers
    · exact (hinner item List.mem_cons_self field hfirst).bind _
    · obtain ⟨other, hother, rfl⟩ := List.mem_map.mp hothers
      have hrest := ih (fun item hmem => hreads item (List.mem_cons_of_mem _ hmem))
        (fun item hmem => hinner item (List.mem_cons_of_mem _ hmem)) other hother
      exact (hreads item List.mem_cons_self).refuses (hrest.bind _)

theorem refuses_listFields (h : Takes read write valid)
    (hwidth : ∀ item, width ≤ (write item).length) (hlength : items.length < UInt64.size)
    (hreads : ∀ item ∈ items, Reads read (write item) item)
    (hinner : ∀ item ∈ items, ∀ field ∈ inner item, Refuses read field) :
    ∀ field ∈ Binary.listFields width write inner items, Refuses (list read) field := by
  intro field hfield
  rcases List.mem_cons.mp hfield with rfl | hitems
  · exact refuses_list h hwidth
  · obtain ⟨other, hother, rfl⟩ := List.mem_map.mp hitems
    exact (reads_word 8 hlength).refuses (refuses_itemFields hreads hinner other hother)

theorem refuses_coords {points : List Coord} (h : points.length < UInt64.size) :
    ∀ field ∈ Coord.listFields points, Refuses coords field :=
  refuses_listFields takes_coord Coord.le_length_encode h (fun c _ => reads_coord c)
    (fun _ _ _ hfield => nomatch hfield)

theorem refuses_lines {lines : List (List Coord)} (hlength : lines.length < UInt64.size)
    (h : ∀ points ∈ lines, points.length < UInt64.size) :
    ∀ field ∈ Coord.linesFields lines, Refuses (list coords) field :=
  refuses_listFields takes_coords (fun points => Binary.le_length_list Coord.encode points) hlength
    (fun points hmem => reads_coords (h points hmem))
    (fun points hmem => refuses_coords (h points hmem))

theorem refuses_polygon {p : Polygon} (h : p.Sized) :
    ∀ field ∈ p.lengthFields, Refuses polygon field := by
  obtain ⟨hexterior, hinteriors, hrings⟩ := h
  intro field hfield
  rcases List.mem_append.mp hfield with houter | hinner
  · exact (refuses_coords hexterior field houter).bind _
  · obtain ⟨other, hother, rfl⟩ := List.mem_map.mp hinner
    exact (reads_coords hexterior).refuses ((refuses_lines hinteriors hrings other hother).bind _)

end ByteReader

namespace Geometry

open ByteReader

mutual

/-- A geometry is refused for a length in it. The bytes before the length bound the depth
    that it takes to come to the length. -/
theorem refuses_geometry (g : Geometry) (h : g.Sized) (depth : Nat) :
    ∀ field ∈ g.bodyFields, 4 + field.before.length ≤ depth →
      Refuses (geometry depth) (field.after (Binary.word32 g.kind)) := by
  intro field hfield hdepth
  obtain ⟨depth, rfl⟩ : ∃ n, depth = n + 1 := ⟨depth - 1, by omega⟩
  refine (reads_word 4 g.kind_lt).refuses ?_
  match g with
  | .point _ | .line .. | .rect .. | .triangle .. => exact nomatch hfield
  | .lineString _ | .multiPoint _ => exact (refuses_coords h field hfield).bind _
  | .polygon _ => exact (refuses_polygon h field hfield).bind _
  | .multiLineString _ => exact (refuses_lines h.1 h.2 field hfield).bind _
  | .multiPolygon _ =>
    exact (refuses_listFields takes_polygon Polygon.le_length_encode h.1
      (fun p hmem => reads_polygon (h.2 p hmem)) (fun p hmem => refuses_polygon (h.2 p hmem))
      field hfield).bind _
  | .collection members =>
    obtain ⟨hlength, hsized⟩ := (sized_collection members).mp h
    rw [bodyFields] at hfield
    rcases List.mem_cons.mp hfield with rfl | hmembers
    · exact (refuses_list (takes_geometry depth) le_length_encode).bind _
    · obtain ⟨other, hother, rfl⟩ := List.mem_map.mp hmembers
      rw [LengthField.length_before_after, Binary.length_word64] at hdepth
      have hinner := refuses_members members hsized depth other hother (by omega)
      have hlist : Refuses (list (geometry depth)) (other.after (Binary.word64 members.length)) :=
        (reads_word 8 hlength).refuses hinner
      exact hlist.bind _

theorem refuses_members (members : List Geometry) (h : AreSized members) (depth : Nat) :
    ∀ field ∈ memberFields members, field.before.length ≤ depth →
      Refuses (many (geometry depth) members.length) field := by
  intro field hfield hdepth
  match members with
  | [] => exact nomatch hfield
  | g :: rest =>
    obtain ⟨hsized, hrest⟩ := (areSized_cons g rest).mp h
    rw [memberFields] at hfield
    rcases List.mem_append.mp hfield with hfirst | hothers
    · obtain ⟨other, hother, rfl⟩ := List.mem_map.mp hfirst
      rw [LengthField.length_before_after, Binary.length_word32] at hdepth
      exact (refuses_geometry g hsized depth other hother hdepth).bind _
    · obtain ⟨other, hother, rfl⟩ := List.mem_map.mp hothers
      rw [LengthField.length_before_after] at hdepth
      have hothers := refuses_members rest hrest depth other hother (by omega)
      exact (reads_encode g hsized depth (by omega)).refuses (hothers.bind _)

end

/-- A byte string that follows a binary form up to a length, and then holds too few bytes for
    this length, is no binary form and does not begin with one. -/
theorem decode?_of_mem_lengthFields {g : Geometry} (h : g.Sized) {field : LengthField}
    (hfield : field ∈ g.lengthFields) {n : Nat} (hn : n < UInt64.size) {after : List UInt8}
    (hshort : after.length < n * field.itemWidth) :
    decode? (field.before ++ (Binary.word64 n ++ after)) = none := by
  obtain ⟨other, hother, rfl⟩ := List.mem_map.mp hfield
  have hdepth := LengthField.length_before_after (Binary.word32 g.kind) other
  rw [Binary.length_word32] at hdepth
  have hrefuses := refuses_geometry g h
    ((other.after (Binary.word32 g.kind)).before ++ (Binary.word64 n ++ after)).length other hother
    (by rw [List.length_append]; omega)
  exact congrArg (Option.map Prod.fst) (hrefuses n after hn hshort)

/-! ## Decoding and encoding -/

/-- A binary form that is the beginning of another one is this other one. -/
theorem eq_of_encode_prefix {g other : Geometry} (hg : g.Sized) (hother : other.Sized)
    (h : g.encode <+: other.encode) : g = other := by
  obtain ⟨rest, hrest⟩ := h
  have hdecode := decode?_encode_append hg rest
  rw [hrest, decode?_encode hother] at hdecode
  exact (Option.some.inj hdecode).symm

/-- A binary form that has been cut short is refused. -/
theorem decode?_of_prefix {g : Geometry} (h : g.Sized) {bytes : List UInt8}
    (hcut : bytes <+: g.encode) (hproper : bytes ≠ g.encode) : decode? bytes = none := by
  cases hdecode : decode? bytes with
  | none => rfl
  | some other =>
    obtain ⟨hsized, rest, hbytes⟩ := decode?_eq_some.mp hdecode
    have hbegin : other.encode <+: bytes := ⟨rest, hbytes.symm⟩
    obtain rfl := eq_of_encode_prefix hsized h (hbegin.trans hcut)
    exact absurd (hcut.eq_of_length_le hbegin.length_le) hproper

/-- Decoding accepts exactly what encoding produces, bytes that follow aside. That the lists
    of the geometry are counted by words is all that is asked of it, and this goes without
    saying for a byte string whose own bytes are. So decoding undoes encoding, a binary form
    that has been cut short is refused, none is the beginning of another one, and wherever a
    length stands in a binary form, a byte string that claims a larger one there than its
    bytes can hold is refused. -/
theorem only_encoded_is_decoded :
    (∀ (bytes : List UInt8) (g : Geometry),
      decode? bytes = some g ↔ g.Sized ∧ ∃ rest, bytes = g.encode ++ rest) ∧
    (∀ (bytes : List UInt8) (g : Geometry), bytes.length < UInt64.size →
      (decode? bytes = some g ↔ ∃ rest, bytes = g.encode ++ rest)) ∧
    (∀ g : Geometry, g.Sized → decode? g.encode = some g) ∧
    (∀ (g : Geometry) (bytes : List UInt8), g.Sized → bytes <+: g.encode → bytes ≠ g.encode →
      decode? bytes = none) ∧
    (∀ g other : Geometry, g.Sized → other.Sized → g.encode <+: other.encode → g = other) ∧
    ∀ (g : Geometry), ∀ field ∈ g.lengthFields, field.Within g.encode ∧
      (g.Sized → ∀ n after, n < UInt64.size → after.length < n * field.itemWidth →
        decode? (field.before ++ (Binary.word64 n ++ after)) = none) := by
  refine ⟨fun _ _ => decode?_eq_some, fun bytes g hbytes => ?_, fun _ => decode?_encode,
    fun _ _ h => decode?_of_prefix h, fun _ _ => eq_of_encode_prefix,
    fun g field hfield => ⟨?_, ?_⟩⟩
  · refine decode?_eq_some.trans ⟨And.right, fun hrest => ⟨?_, hrest⟩⟩
    obtain ⟨rest, rfl⟩ := hrest
    have hbody := g.length_encodeBody_lt
    rw [List.length_append] at hbytes
    exact sized_of_length g (by omega)
  · obtain ⟨other, hother, rfl⟩ := List.mem_map.mp hfield
    exact (within_bodyFields g other hother).after _
  · exact fun h _ _ hn hshort => decode?_of_mem_lengthFields h hfield hn hshort

/-- A collection claims more members than the bytes after its first one can hold. -/
example : decode? (Binary.word32 7 ++ Binary.word64 3 ++ (Geometry.multiPoint []).encode) = none := by
  decide +kernel

end Geometry

end FeatureStore
