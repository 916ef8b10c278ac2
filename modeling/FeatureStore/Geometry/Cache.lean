-- SUMMARY: A geometry in binary form, in parsed form, or in both.
import FeatureStore.Error
import FeatureStore.Geometry.Binary

/-!
# Geometry caches

A cache holds a geometry in the form it was given in, and the other form once that
has been asked for. Setting one form drops the other, so the two never disagree.
Asking for the parsed form of bytes that are no geometry fails and leaves the cache
as it was.
-/

namespace FeatureStore

/-- A geometry, if there is one, in the forms that are known of it. -/
inductive GeometryCache
  | neither
  | binary (bytes : List UInt8)
  | parsed (g : Geometry)
  | both (bytes : List UInt8) (g : Geometry)
deriving Repr, Inhabited

/-- Which forms a cache holds. -/
inductive GeometryState
  | neither
  | binary
  | parsed
  | both
deriving DecidableEq, Repr

def GeometryState.name : GeometryState → String
  | .neither => "Neither"
  | .binary => "Binary"
  | .parsed => "Parsed"
  | .both => "Both"

namespace GeometryCache

def ofBinary : Option (List UInt8) → GeometryCache
  | none => .neither
  | some bytes => .binary bytes

def ofParsed : Option Geometry → GeometryCache
  | none => .neither
  | some g => .parsed g

def state : GeometryCache → GeometryState
  | .neither => .neither
  | .binary _ => .binary
  | .parsed _ => .parsed
  | .both .. => .both

def peekParsed : GeometryCache → Option Geometry
  | .parsed g | .both _ g => some g
  | .neither | .binary _ => none

def peekBinary : GeometryCache → Option (List UInt8)
  | .binary bytes | .both bytes _ => some bytes
  | .neither | .parsed _ => none

/-- The cache with the parsed form derived, if it has the binary form alone. -/
def withParsed : GeometryCache → Except CodecError GeometryCache
  | .binary bytes =>
    match Geometry.decode? bytes with
    | some g => .ok (.both bytes g)
    | none => .error .unreadableGeometry
  | cache => .ok cache

/-- The cache with the binary form derived, if it has the parsed form alone. -/
def withBinary : GeometryCache → GeometryCache
  | .parsed g => .both g.encode g
  | cache => cache

/-- Read the parsed form, deriving it on first use. -/
def readParsed (cache : GeometryCache) : Except CodecError (Option Geometry) × GeometryCache :=
  match cache.withParsed with
  | .ok derived => (.ok derived.peekParsed, derived)
  | .error e => (.error e, cache)

/-- Read the binary form, deriving it on first use. -/
def readBinary (cache : GeometryCache) : Option (List UInt8) × GeometryCache :=
  (cache.withBinary.peekBinary, cache.withBinary)

/-! ## Uses of a cache as data -/

inductive Action
  | readParsed
  | readBinary
  | setParsed (g : Option Geometry)
  | setBinary (bytes : Option (List UInt8))
deriving Repr

/-- What a use of a cache answers. -/
inductive Answer
  | done
  | parsed (result : Except CodecError (Option Geometry))
  | binary (result : Option (List UInt8))

def perform (cache : GeometryCache) : Action → Answer × GeometryCache
  | .readParsed =>
    let (result, cache) := cache.readParsed
    (.parsed result, cache)
  | .readBinary =>
    let (result, cache) := cache.readBinary
    (.binary result, cache)
  | .setParsed g => (.done, ofParsed g)
  | .setBinary bytes => (.done, ofBinary bytes)

end GeometryCache

end FeatureStore
