-- SUMMARY: The binary form of geometries: encoding, and decoding from the front of a byte string.
import FeatureStore.Geometry.Basic
import FeatureStore.Numeric.LittleEndian

/-!
# Binary geometries

The binary form is little-endian and of fixed width: the kind of a geometry as a
word of four bytes, the length of a list as a word of eight bytes before its
items, a coordinate as the eight bytes of its bits. Fields follow each other in
their order without any mark.

Decoding reads a geometry from the front of a byte string and ignores what
follows it. It fails on a byte string that ends too early, whatever length a list
claims to have, and on an unknown kind.
-/

namespace FeatureStore

/-! ## Encoding -/

namespace Binary

/-- A word of four bytes. -/
def word32 (n : Nat) : List UInt8 := LittleEndian.bytes 4 n

/-- A word of eight bytes. -/
def word64 (n : Nat) : List UInt8 := LittleEndian.bytes 8 n

/-- The bits of a binary64 number. -/
def number (x : Binary64) : List UInt8 := word64 x.bits.toNat

/-- The length of a list, then its items. -/
def list {α : Type} (item : α → List UInt8) (items : List α) : List UInt8 :=
  word64 items.length ++ items.flatMap item

end Binary

def Coord.encode (c : Coord) : List UInt8 := Binary.number c.x ++ Binary.number c.y

def Coord.encodeList (points : List Coord) : List UInt8 := Binary.list Coord.encode points

def Polygon.encode (p : Polygon) : List UInt8 :=
  Coord.encodeList p.exterior ++ Binary.list Coord.encodeList p.interiors

namespace Geometry

/-- The number that stands for the kind of a geometry. -/
def kind : Geometry → Nat
  | .point _ => 0
  | .line .. => 1
  | .lineString _ => 2
  | .polygon _ => 3
  | .multiPoint _ => 4
  | .multiLineString _ => 5
  | .multiPolygon _ => 6
  | .collection _ => 7
  | .rect .. => 8
  | .triangle .. => 9

mutual

/-- The binary form of a geometry without its kind. -/
def encodeBody : Geometry → List UInt8
  | .point c => c.encode
  | .line start stop => start.encode ++ stop.encode
  | .lineString points => Coord.encodeList points
  | .polygon p => p.encode
  | .multiPoint points => Coord.encodeList points
  | .multiLineString lines => Binary.list Coord.encodeList lines
  | .multiPolygon polygons => Binary.list Polygon.encode polygons
  | .collection members => Binary.word64 members.length ++ encodeMembers members
  | .rect min max => min.encode ++ max.encode
  | .triangle a b c => a.encode ++ b.encode ++ c.encode

/-- The binary forms of geometries, one after the other. -/
def encodeMembers : List Geometry → List UInt8
  | [] => []
  | g :: rest => Binary.word32 g.kind ++ g.encodeBody ++ encodeMembers rest

end

def encode (g : Geometry) : List UInt8 := Binary.word32 g.kind ++ g.encodeBody

end Geometry

/-! ## Decoding -/

/-- Reads a value from the front of a byte string and leaves the rest. -/
abbrev ByteReader := StateT (List UInt8) Option

namespace ByteReader

def byte : ByteReader UInt8
  | [] => none
  | b :: rest => some (b, rest)

/-- A given number of values, one after the other. -/
def many {α : Type} (read : ByteReader α) : Nat → ByteReader (List α)
  | 0 => pure []
  | n + 1 => do
    let first ← read
    let rest ← many read n
    return first :: rest

/-- A little-endian word of the given width. -/
def word (width : Nat) : ByteReader Nat := do
  let bytes ← many byte width
  return LittleEndian.value bytes

/-- The bits of a binary64 number. -/
def number : ByteReader Binary64 := do
  let bits ← word 8
  return Binary64.ofBits bits

/-- A length, then that many items. -/
def list {α : Type} (read : ByteReader α) : ByteReader (List α) := do
  let length ← word 8
  many read length

def coord : ByteReader Coord := do
  let x ← number
  let y ← number
  return ⟨x, y⟩

def coords : ByteReader (List Coord) := list coord

def polygon : ByteReader Polygon := do
  let exterior ← coords
  let interiors ← list coords
  return ⟨exterior, interiors⟩

/-- A geometry in which at most `depth` geometries nest. -/
def geometry : (depth : Nat) → ByteReader Geometry
  | 0 => failure
  | depth + 1 => do
    match ← word 4 with
    | 0 => return .point (← coord)
    | 1 =>
      let start ← coord
      let stop ← coord
      return .line start stop
    | 2 => return .lineString (← coords)
    | 3 => return .polygon (← polygon)
    | 4 => return .multiPoint (← coords)
    | 5 => return .multiLineString (← list coords)
    | 6 => return .multiPolygon (← list polygon)
    | 7 => return .collection (← list (geometry depth))
    | 8 =>
      let min ← coord
      let max ← coord
      return .rect min max
    | 9 =>
      let a ← coord
      let b ← coord
      let c ← coord
      return .triangle a b c
    | _ => failure

end ByteReader

/-- The geometry at the front of a byte string. Every geometry takes at least four
    bytes for its kind, so the number of bytes bounds how deep geometries nest. -/
def Geometry.decode? (bytes : List UInt8) : Option Geometry :=
  ((ByteReader.geometry bytes.length).run bytes).map Prod.fst

end FeatureStore
