-- SUMMARY: The binary form of a geometry is read back as that geometry, whatever bytes follow it.
import FeatureStore.Geometry.Cache

/-!
# Reading back the binary form

A reader reads a value from bytes if it takes exactly these bytes off the front of any
byte string that begins with them. Readers that follow each other read what was written
one after the other, so each form is put together from those of its fields. Where
geometries are nested the induction is on the geometry, and the number of bytes bounds the
depth that is still needed.

The length of a list is written as a word of sixty-four bits, and a list in memory has no
more items than such a word can count: its geometry is `Sized`.
-/

namespace FeatureStore

/-! ## Sizes -/

/-- Every line of the polygon has a length that a word can hold. -/
def Polygon.Sized (p : Polygon) : Prop :=
  p.exterior.length < UInt64.size ∧ p.interiors.length < UInt64.size ∧
    ∀ ring ∈ p.interiors, ring.length < UInt64.size

namespace Geometry

mutual

/-- Every list of the geometry has a length that a word can hold. -/
def Sized : Geometry → Prop
  | .point _ | .line .. | .rect .. | .triangle .. => True
  | .lineString points | .multiPoint points => points.length < UInt64.size
  | .polygon p => p.Sized
  | .multiLineString lines =>
    lines.length < UInt64.size ∧ ∀ points ∈ lines, points.length < UInt64.size
  | .multiPolygon polygons => polygons.length < UInt64.size ∧ ∀ p ∈ polygons, p.Sized
  | .collection members => members.length < UInt64.size ∧ AreSized members

def AreSized : List Geometry → Prop
  | [] => True
  | g :: rest => g.Sized ∧ AreSized rest

end

end Geometry

namespace ByteReader

variable {α β : Type}

/-! ## Readers of bytes -/

/-- The reader takes the value off the front of any byte string that begins with the
    bytes. -/
def Reads (read : ByteReader α) (bytes : List UInt8) (value : α) : Prop :=
  ∀ rest, read (bytes ++ rest) = some (value, rest)

theorem Reads.pure (value : α) : Reads (Pure.pure value) [] value := fun _ => rfl

theorem Reads.bind {read : ByteReader α} {next : α → ByteReader β} {xs ys : List UInt8} {a : α}
    {b : β} (hread : Reads read xs a) (hnext : Reads (next a) ys b) :
    Reads (read >>= next) (xs ++ ys) b := by
  intro rest
  have hfirst := hread (ys ++ rest)
  rw [List.append_assoc]
  change (read (xs ++ (ys ++ rest))).bind (fun (a, rest) => next a rest) = _
  rw [hfirst]
  exact hnext rest

/-- Wrapping up what has been read takes no more bytes. -/
theorem Reads.map {read : ByteReader α} {xs : List UInt8} {a : α} (h : Reads read xs a)
    (f : α → β) : Reads (do return f (← read)) xs (f a) := by
  have hbind : Reads (read >>= fun a => Pure.pure (f a)) (xs ++ []) (f a) :=
    h.bind (Reads.pure (f a))
  rwa [List.append_nil] at hbind

theorem reads_byte (b : UInt8) : Reads byte [b] b := fun _ => rfl

theorem reads_many {read : ByteReader α} {write : α → List UInt8} {items : List α}
    (h : ∀ item ∈ items, Reads read (write item) item) :
    Reads (many read items.length) (items.flatMap write) items := by
  induction items with
  | nil => exact Reads.pure []
  | cons first others ih =>
    have hfirst := h first List.mem_cons_self
    have hothers := ih (fun item hmem => h item (List.mem_cons_of_mem _ hmem))
    exact hfirst.bind (hothers.map (first :: ·))

theorem reads_word (width : Nat) {n : Nat} (h : n < Nat.pow 256 width) :
    Reads (word width) (LittleEndian.bytes width n) n := by
  have hbytes : Reads (many byte (LittleEndian.bytes width n).length)
      ((LittleEndian.bytes width n).flatMap ([·])) (LittleEndian.bytes width n) :=
    reads_many (fun b _ => reads_byte b)
  rw [LittleEndian.length_bytes, List.flatMap_singleton'] at hbytes
  have hvalue := hbytes.map LittleEndian.value
  rwa [LittleEndian.value_bytes_of_lt h] at hvalue

theorem reads_list {read : ByteReader α} {write : α → List UInt8} {items : List α}
    (hlength : items.length < UInt64.size) (h : ∀ item ∈ items, Reads read (write item) item) :
    Reads (list read) (Binary.list write items) items :=
  (reads_word 8 hlength).bind (reads_many h)

/-! ## Parts of geometries -/

theorem reads_number (x : Binary64) : Reads number (Binary.number x) x := by
  have hbits := (reads_word 8 x.bits.toNat_lt).map Binary64.ofBits
  have hsame : Binary64.ofBits x.bits.toNat = x := by simp [Binary64.ofBits]
  rwa [hsame] at hbits

theorem reads_coord (c : Coord) : Reads coord c.encode c :=
  (reads_number c.x).bind ((reads_number c.y).map (Coord.mk c.x))

theorem reads_coords {points : List Coord} (h : points.length < UInt64.size) :
    Reads coords (Coord.encodeList points) points :=
  reads_list h (fun c _ => reads_coord c)

theorem reads_lines {lines : List (List Coord)} (hlength : lines.length < UInt64.size)
    (h : ∀ points ∈ lines, points.length < UInt64.size) :
    Reads (list coords) (Binary.list Coord.encodeList lines) lines :=
  reads_list hlength (fun points hmem => reads_coords (h points hmem))

theorem reads_polygon {p : Polygon} (h : p.Sized) : Reads polygon p.encode p := by
  obtain ⟨hexterior, hinteriors, hrings⟩ := h
  exact (reads_coords hexterior).bind ((reads_lines hinteriors hrings).map (Polygon.mk p.exterior))

end ByteReader

/-! ## Geometries -/

namespace Geometry

open ByteReader

@[simp] theorem sized_collection (members : List Geometry) :
    (collection members).Sized ↔ members.length < UInt64.size ∧ AreSized members := by
  rw [Sized]

@[simp] theorem areSized_cons (g : Geometry) (rest : List Geometry) :
    AreSized (g :: rest) ↔ g.Sized ∧ AreSized rest := by
  rw [AreSized]

theorem encodeBody_collection (members : List Geometry) :
    (collection members).encodeBody = Binary.word64 members.length ++ encodeMembers members := by
  rw [encodeBody]

theorem encodeMembers_cons (g : Geometry) (rest : List Geometry) :
    encodeMembers (g :: rest) = g.encode ++ encodeMembers rest := by
  rw [encodeMembers, encode]

theorem kind_lt (g : Geometry) : g.kind < Nat.pow 256 4 := by
  have hkinds : g.kind < 10 := by cases g <;> simp [kind]
  exact Nat.lt_trans hkinds (by decide)

/-- The kind of a geometry takes bytes, so that a geometry is longer than its body. -/
theorem length_encodeBody_lt (g : Geometry) : g.encodeBody.length < g.encode.length := by
  simp [encode, Binary.word32]

mutual

theorem reads_encode (g : Geometry) (h : g.Sized) (depth : Nat) (hdepth : g.encode.length ≤ depth) :
    Reads (geometry depth) g.encode g := by
  have hbody := g.length_encodeBody_lt
  obtain ⟨depth, rfl⟩ : ∃ n, depth = n + 1 := ⟨depth - 1, by omega⟩
  -- The depth is measured by the bytes: every level of nesting spends those of its kind.
  refine (reads_word 4 g.kind_lt).bind ?_
  match g with
  | .point c => exact (reads_coord c).map point
  | .line start stop => exact (reads_coord start).bind ((reads_coord stop).map (line start))
  | .lineString points => exact (reads_coords h).map lineString
  | .polygon p => exact (reads_polygon h).map polygon
  | .multiPoint points => exact (reads_coords h).map multiPoint
  | .multiLineString lines => exact (reads_lines h.1 h.2).map multiLineString
  | .multiPolygon polygons =>
    exact (reads_list h.1 (fun p hmem => reads_polygon (h.2 p hmem))).map multiPolygon
  | .collection members =>
    obtain ⟨hlength, hsized⟩ := (sized_collection members).mp h
    rw [encodeBody_collection] at hbody ⊢
    rw [List.length_append] at hbody
    have hmembers := reads_encodeMembers members hsized depth (by omega)
    have hlist : Reads (list (geometry depth))
        (Binary.word64 members.length ++ encodeMembers members) members :=
      (reads_word 8 hlength).bind hmembers
    exact hlist.map collection
  | .rect min max => exact (reads_coord min).bind ((reads_coord max).map (rect min))
  | .triangle a b c =>
    have hbytes : (triangle a b c).encodeBody = a.encode ++ (b.encode ++ c.encode) := by
      rw [encodeBody, List.append_assoc]
    rw [hbytes]
    exact (reads_coord a).bind ((reads_coord b).bind ((reads_coord c).map (triangle a b)))

theorem reads_encodeMembers (members : List Geometry) (h : AreSized members) (depth : Nat)
    (hdepth : (encodeMembers members).length ≤ depth) :
    Reads (many (geometry depth) members.length) (encodeMembers members) members := by
  match members with
  | [] => exact Reads.pure []
  | g :: rest =>
    obtain ⟨hsized, hrest⟩ := (areSized_cons g rest).mp h
    rw [encodeMembers_cons] at hdepth ⊢
    rw [List.length_append] at hdepth
    have hfirst := reads_encode g hsized depth (by omega)
    have hothers := reads_encodeMembers rest hrest depth (by omega)
    exact hfirst.bind (hothers.map (g :: ·))

end

/-- Decoding undoes encoding, also in front of other bytes. -/
theorem decode?_encode_append {g : Geometry} (h : g.Sized) (rest : List UInt8) :
    decode? (g.encode ++ rest) = some g := by
  have hread := reads_encode g h (g.encode ++ rest).length (by simp) rest
  rw [decode?]
  change ((geometry _) (g.encode ++ rest)).map Prod.fst = _
  rw [hread]
  rfl

theorem decode?_encode {g : Geometry} (h : g.Sized) : decode? g.encode = some g := by
  simpa using decode?_encode_append h []

end Geometry

/-! ## Caches -/

namespace GeometryCache

/-- The parsed form is derived from either of the forms in which a geometry is kept. -/
theorem withParsed_kept {geometry : Option Geometry} (h : ∀ g, geometry = some g → g.Sized) :
    (ofParsed geometry).withBinary.withParsed = .ok (ofParsed geometry).withBinary ∧
      (ofBinary (ofParsed geometry).withBinary.peekBinary).withParsed
        = .ok (ofParsed geometry).withBinary := by
  cases geometry with
  | none => exact ⟨rfl, rfl⟩
  | some g =>
    refine ⟨rfl, ?_⟩
    simp only [ofParsed, withBinary, peekBinary, ofBinary, withParsed,
      Geometry.decode?_encode (h g rfl)]

@[simp] theorem peekParsed_ofParsed (geometry : Option Geometry) :
    (ofParsed geometry).peekParsed = geometry := by
  cases geometry <;> rfl

@[simp] theorem withParsed_ofParsed (geometry : Option Geometry) :
    (ofParsed geometry).withParsed = .ok (ofParsed geometry) := by
  cases geometry <;> rfl

theorem peekParsed_withBinary (cache : GeometryCache) :
    cache.withBinary.peekParsed = cache.peekParsed := by
  cases cache <;> rfl

end GeometryCache

end FeatureStore
