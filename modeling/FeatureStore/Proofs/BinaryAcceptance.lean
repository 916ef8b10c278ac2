-- SUMMARY: The byte strings that are decoded to a geometry are those that begin with its binary form.
import FeatureStore.Proofs.BinaryLayout

/-!
# What is decoded

Decoding inverts encoding in both directions. That a binary form is read back has been
shown; here it is shown that nothing else is read. Whatever a reader gives, the bytes that
it has taken are those that are written of it, and again this is put together from the
fields. So the binary forms are told apart by their first bytes: none is the beginning of
another one, and one that is cut short is no binary form.

A length stands in the bytes before its items. A reader that finds fewer bytes after a
length than its items need at least fails, wherever in a geometry the length stands.
-/

namespace FeatureStore

namespace ByteReader

variable {α β : Type} {read : ByteReader α} {next : α → ByteReader β} {bytes rest : List UInt8}

/-! ## What readers take -/

/-- One reader after another gives what the second one gives on the bytes that the first one
    has left. -/
theorem bind_eq_some {b : β} :
    (read >>= next) bytes = some (b, rest) ↔
      ∃ a left, read bytes = some (a, left) ∧ next a left = some (b, rest) := by
  change (read bytes).bind (fun (a, left) => next a left) = _ ↔ _
  simp [Option.bind_eq_some_iff]

theorem pure_eq_some {a b : α} :
    (pure a : ByteReader α) bytes = some (b, rest) ↔ a = b ∧ bytes = rest := by
  change some (a, bytes) = _ ↔ _
  simp

/-- Wrapping up what has been read takes nothing else. -/
theorem map_eq_some {f : α → β} {b : β} :
    (do return f (← read) : ByteReader β) bytes = some (b, rest) ↔
      ∃ a, read bytes = some (a, rest) ∧ f a = b := by
  constructor
  · intro h
    obtain ⟨a, left, hread, hpure⟩ := bind_eq_some.mp h
    obtain ⟨hsame, rfl⟩ := pure_eq_some.mp hpure
    exact ⟨a, hread, hsame⟩
  · rintro ⟨a, hread, rfl⟩
    exact bind_eq_some.mpr ⟨a, rest, hread, rfl⟩

/-- Whatever the reader gives is valid, and the bytes that it has taken are what is written
    of it. -/
def Takes (read : ByteReader α) (write : α → List UInt8) (valid : α → Prop) : Prop :=
  ∀ bytes value rest, read bytes = some (value, rest) → bytes = write value ++ rest ∧ valid value

theorem takes_byte : Takes byte ([·]) (fun _ => True) := by
  intro bytes value rest h
  cases bytes with
  | nil => cases h
  | cons b left =>
    cases h
    exact ⟨rfl, trivial⟩

theorem many_eq_some {write : α → List UInt8} {valid : α → Prop} (h : Takes read write valid)
    {n : Nat} {items : List α} (hread : many read n bytes = some (items, rest)) :
    items.length = n ∧ bytes = items.flatMap write ++ rest ∧ ∀ item ∈ items, valid item := by
  induction n generalizing bytes items with
  | zero =>
    obtain ⟨rfl, rfl⟩ := pure_eq_some.mp hread
    exact ⟨rfl, rfl, by simp⟩
  | succ n ih =>
    obtain ⟨first, left, hfirst, hread⟩ := bind_eq_some.mp hread
    obtain ⟨others, hothers, rfl⟩ := map_eq_some.mp hread
    obtain ⟨rfl, hvalid⟩ := h _ _ _ hfirst
    obtain ⟨rfl, rfl, hothersvalid⟩ := ih hothers
    refine ⟨rfl, ?_, ?_⟩
    · rw [List.flatMap_cons, List.append_assoc]
    · simpa using ⟨hvalid, hothersvalid⟩

theorem takes_word (width : Nat) :
    Takes (word width) (LittleEndian.bytes width) (· < Nat.pow 256 width) := by
  intro bytes n rest h
  obtain ⟨bs, hbytes, rfl⟩ := map_eq_some.mp h
  obtain ⟨rfl, hsame, -⟩ := many_eq_some takes_byte hbytes
  rw [List.flatMap_singleton'] at hsame
  rw [LittleEndian.bytes_value]
  exact ⟨hsame, LittleEndian.value_lt bs⟩

theorem takes_list {write : α → List UInt8} {valid : α → Prop} (h : Takes read write valid) :
    Takes (list read) (Binary.list write)
      (fun items => items.length < UInt64.size ∧ ∀ item ∈ items, valid item) := by
  intro bytes items rest hread
  obtain ⟨n, left, hlength, hitems⟩ := bind_eq_some.mp hread
  obtain ⟨rfl, hsize⟩ := takes_word 8 _ _ _ hlength
  obtain ⟨rfl, rfl, hvalid⟩ := many_eq_some h hitems
  refine ⟨?_, hsize, hvalid⟩
  rw [Binary.list, List.append_assoc]
  rfl

/-! ## Parts of geometries -/

theorem takes_number : Takes number Binary.number (fun _ => True) := by
  intro bytes x rest h
  obtain ⟨n, hword, rfl⟩ := map_eq_some.mp h
  obtain ⟨rfl, hsize⟩ := takes_word 8 _ _ _ hword
  have hbits : (Binary64.ofBits n).bits.toNat = n := UInt64.toNat_ofNat_of_lt' hsize
  rw [Binary.number, hbits]
  exact ⟨rfl, trivial⟩

theorem takes_coord : Takes coord Coord.encode (fun _ => True) := by
  intro bytes c rest h
  obtain ⟨x, left, hx, h⟩ := bind_eq_some.mp h
  obtain ⟨y, hy, rfl⟩ := map_eq_some.mp h
  obtain ⟨rfl, -⟩ := takes_number _ _ _ hx
  obtain ⟨rfl, -⟩ := takes_number _ _ _ hy
  refine ⟨?_, trivial⟩
  rw [Coord.encode, List.append_assoc]

theorem takes_coords : Takes coords Coord.encodeList (fun points => points.length < UInt64.size) :=
  fun bytes points rest h => (takes_list takes_coord bytes points rest h).imp_right And.left

theorem takes_polygon : Takes polygon Polygon.encode Polygon.Sized := by
  intro bytes p rest h
  obtain ⟨exterior, left, hexterior, h⟩ := bind_eq_some.mp h
  obtain ⟨interiors, hinteriors, rfl⟩ := map_eq_some.mp h
  obtain ⟨rfl, hsize⟩ := takes_coords _ _ _ hexterior
  obtain ⟨rfl, hrings⟩ := takes_list takes_coords _ _ _ hinteriors
  refine ⟨?_, hsize, hrings⟩
  rw [Polygon.encode, List.append_assoc]

end ByteReader

/-! ## Geometries -/

namespace Geometry

open ByteReader

theorem areSized_iff {members : List Geometry} : AreSized members ↔ ∀ g ∈ members, g.Sized := by
  induction members with
  | nil => simp [AreSized]
  | cons g rest ih => simp [ih]

theorem encodeMembers_eq (members : List Geometry) : encodeMembers members = members.flatMap encode := by
  induction members with
  | nil => rw [encodeMembers, List.flatMap_nil]
  | cons g rest ih => rw [encodeMembers_cons, ih, List.flatMap_cons]

/-- A reader of geometries takes binary forms only. The induction is on the depth that is
    left, since the members of a collection are read with less of it. -/
theorem takes_geometry (depth : Nat) : Takes (geometry depth) encode Sized := by
  induction depth with
  | zero => exact fun _ _ _ h => nomatch h
  | succ depth ih =>
    intro bytes g rest hread
    obtain ⟨kind, body, hkind, h⟩ := bind_eq_some.mp hread
    obtain ⟨rfl, -⟩ := takes_word 4 _ _ _ hkind
    clear hread hkind
    -- The kind has been read, so it remains to compare the bodies, one case for each kind.
    have hwhole {g : Geometry} (hg : g.kind = kind) (hbody : body = g.encodeBody ++ rest) :
        LittleEndian.bytes 4 kind ++ body = g.encode ++ rest := by
      rw [hbody, encode, hg, List.append_assoc]
      rfl
    split at h
    · obtain ⟨c, hc, rfl⟩ := map_eq_some.mp h
      obtain ⟨hbody, -⟩ := takes_coord _ _ _ hc
      exact ⟨hwhole rfl hbody, trivial⟩
    · obtain ⟨start, left, hstart, h⟩ := bind_eq_some.mp h
      obtain ⟨stop, hstop, rfl⟩ := map_eq_some.mp h
      obtain ⟨rfl, -⟩ := takes_coord _ _ _ hstart
      obtain ⟨rfl, -⟩ := takes_coord _ _ _ hstop
      exact ⟨hwhole rfl (List.append_assoc ..).symm, trivial⟩
    · obtain ⟨points, hpoints, rfl⟩ := map_eq_some.mp h
      obtain ⟨hbody, hsized⟩ := takes_coords _ _ _ hpoints
      exact ⟨hwhole rfl hbody, hsized⟩
    · obtain ⟨p, hp, rfl⟩ := map_eq_some.mp h
      obtain ⟨hbody, hsized⟩ := takes_polygon _ _ _ hp
      exact ⟨hwhole rfl hbody, hsized⟩
    · obtain ⟨points, hpoints, rfl⟩ := map_eq_some.mp h
      obtain ⟨hbody, hsized⟩ := takes_coords _ _ _ hpoints
      exact ⟨hwhole rfl hbody, hsized⟩
    · obtain ⟨lines, hlines, rfl⟩ := map_eq_some.mp h
      obtain ⟨hbody, hsized⟩ := takes_list takes_coords _ _ _ hlines
      exact ⟨hwhole rfl hbody, hsized⟩
    · obtain ⟨polygons, hpolygons, rfl⟩ := map_eq_some.mp h
      obtain ⟨hbody, hsized⟩ := takes_list takes_polygon _ _ _ hpolygons
      exact ⟨hwhole rfl hbody, hsized⟩
    -- The members are read with the depth that is left, for which there is the induction.
    · obtain ⟨members, hmembers, rfl⟩ := map_eq_some.mp h
      obtain ⟨hbody, hlength, hsized⟩ := takes_list ih _ _ _ hmembers
      rw [Binary.list, ← encodeMembers_eq, ← encodeBody_collection] at hbody
      exact ⟨hwhole rfl hbody, (sized_collection members).mpr ⟨hlength, areSized_iff.mpr hsized⟩⟩
    · obtain ⟨min, left, hmin, h⟩ := bind_eq_some.mp h
      obtain ⟨max, hmax, rfl⟩ := map_eq_some.mp h
      obtain ⟨rfl, -⟩ := takes_coord _ _ _ hmin
      obtain ⟨rfl, -⟩ := takes_coord _ _ _ hmax
      exact ⟨hwhole rfl (List.append_assoc ..).symm, trivial⟩
    · obtain ⟨a, left, ha, h⟩ := bind_eq_some.mp h
      obtain ⟨b, last, hb, h⟩ := bind_eq_some.mp h
      obtain ⟨c, hc, rfl⟩ := map_eq_some.mp h
      obtain ⟨rfl, -⟩ := takes_coord _ _ _ ha
      obtain ⟨rfl, -⟩ := takes_coord _ _ _ hb
      obtain ⟨rfl, -⟩ := takes_coord _ _ _ hc
      refine ⟨hwhole rfl ?_, trivial⟩
      rw [encodeBody, List.append_assoc, List.append_assoc]
    · cases h

/-- The byte strings that give a geometry are those that begin with its binary form. -/
theorem decode?_eq_some {bytes : List UInt8} {g : Geometry} :
    decode? bytes = some g ↔ g.Sized ∧ ∃ rest, bytes = g.encode ++ rest := by
  constructor
  · intro h
    obtain ⟨⟨value, rest⟩, hread, rfl⟩ := Option.map_eq_some_iff.mp h
    obtain ⟨hbytes, hsized⟩ := takes_geometry bytes.length bytes value rest hread
    exact ⟨hsized, rest, hbytes⟩
  · rintro ⟨hsized, rest, rfl⟩
    exact decode?_encode_append hsized rest

end Geometry

end FeatureStore
