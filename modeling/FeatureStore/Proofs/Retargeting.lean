-- SUMMARY: A cursor that has been put into other formats reads like one that has not.
import FeatureStore.Proofs.Materializing
import FeatureStore.Proofs.Rejections

/-!
# Retargeting

A cursor may be put into another format at any time, and into a third one after that. Its
rows then move to codecs of those formats, by the ways in which a codec can move: as it is,
taken apart first, or put together again at once. None of this is seen by a reader of the
parts of rows. The cursor stays where it is over the same source, its rows have the same
parts, and the cause of a rejected write goes along with its row. So whatever the reader does
next comes to the same, row for row and load for load.
-/

namespace FeatureStore

variable {ε σ : Type} [RowSource ε σ] {fmt other third : Format}

/-! ## Parts that are seen alike -/

theorem GeometryCache.Yields.readBinary_eq {cache derived : GeometryCache}
    (h : cache.Yields derived) : derived.readBinary.1 = cache.readBinary.1 := by
  obtain rfl | hparsed := h
  · rfl
  cases cache with
  | binary bytes =>
    cases hdecode : Geometry.decode? bytes with
    | none => simp [withParsed, hdecode] at hparsed
    | some g =>
      obtain rfl : both bytes g = derived := by simpa [withParsed, hdecode] using hparsed
      rfl
  | neither => cases hparsed; rfl
  | parsed g => cases hparsed; rfl
  | both bytes g => cases hparsed; rfl

namespace Parts

variable {p q : Parts}

/-- Parts with another cache are seen alike if the cache is. -/
theorem seen_withCache {cache : GeometryCache}
    (hparsed : cache.readParsed.1 = p.geometry.readParsed.1)
    (hbinary : cache.readBinary.1 = p.geometry.readBinary.1) :
    { p with geometry := cache }.seen = p.seen := by
  simp only [seen, hparsed, hbinary]

/-- Parts that are seen alike are put together alike. -/
theorem rebuild_of_seen (h : q.seen = p.seen) (target : Format) :
    target.rebuild q = target.rebuild p := by
  obtain ⟨op, id, version, featureType, propertiesType, json, geometry⟩ := q
  simp only [seen, SeenParts.mk.injEq] at h
  obtain ⟨-, rfl, rfl, rfl, rfl, rfl, hparsed, -⟩ := h
  exact Format.rebuild_congr op hparsed

end Parts

/-! ## Rows that are read alike -/

namespace Codec

variable {c : Codec fmt} {d : Codec other} {e : Codec third}

/-- The error of a rejected write, if the codec has one. -/
def rejection (c : Codec fmt) : Option CodecError := c.error.filter CodecError.isRejection

theorem op_sync (c : Codec fmt) : c.sync.parts.op = c.parts.op := by
  unfold sync
  split
  · rcases c.decode_cases false with hsame | ⟨e, hfail⟩ | ⟨f, parts, -, -, hdone⟩
    · rw [hsame]
    · rw [hfail]
    · rw [hdone]
  · rfl

theorem seen_parts (c : Codec fmt) : c.seen.parts = c.sync.parts.seen := by
  simp only [Parts.seen, op_sync]
  rfl

/-- Both codecs, of whatever formats, answer a reader of parts alike, and once that has been
    done both have the error of the same rejected write, or neither has one. -/
structure Alike (c : Codec fmt) (d : Codec other) : Prop where
  seen : d.seen.parts = c.seen.parts
  rejection : d.sync.rejection = c.sync.rejection

namespace Alike

theorem refl (c : Codec fmt) : c.Alike c := ⟨rfl, rfl⟩

theorem symm (h : c.Alike d) : d.Alike c := ⟨h.seen.symm, h.rejection.symm⟩

theorem trans (h : c.Alike d) (h' : d.Alike e) : c.Alike e :=
  ⟨h'.seen.trans h.seen, h'.rejection.trans h.rejection⟩

theorem parts_eq (h : c.Alike d) : d.sync.parts.seen = c.sync.parts.seen := by
  rw [← seen_parts, ← seen_parts, h.seen]

end Alike

/-! ### Moving -/

/-- The codec moved by its parts, without the error of a rejected write. -/
def moveParts (c : Codec fmt) (target : Format) (reEncode : Bool) : Codec target :=
  if reEncode then (ofParts c.sync.parts).encode true else ofParts c.sync.parts

/-- The error of a rejected write comes before what has been wrong with the parts. -/
theorem move_eq (c : Codec fmt) (target : Format) (reEncode : Bool) :
    c.move target reEncode
      = (c.moveParts target reEncode).setError
          (c.sync.rejection.or (c.moveParts target reEncode).error) := by
  unfold move moveParts withParts rejection
  cases c.sync.error with
  | none => rfl
  | some e =>
    cases hrejection : e.isRejection with
    | false =>
      rw [Option.filter_some_neg (by simp [hrejection])]
      simp only [hrejection]
      rfl
    | true =>
      rw [Option.filter_some_pos hrejection]
      simp only [hrejection]
      rfl

/-- The codec has the parts that the other one is read to have, and the error of the same
    rejected write. -/
structure Moved (c : Codec fmt) (d : Codec other) : Prop where
  decoded : d.decoded = true
  parts : ∃ cache, c.sync.parts.geometry.Yields cache ∧
    d.parts = { c.sync.parts with geometry := cache }
  rejection : d.rejection = c.sync.rejection

theorem Moved.alike (h : c.Moved d) : c.Alike d := by
  have hsync : d.sync = d := sync_of_decoded h.decoded
  obtain ⟨cache, hcache, hparts⟩ := h.parts
  refine ⟨?_, by rw [hsync, h.rejection]⟩
  rw [seen_parts, seen_parts, hsync, hparts]
  exact Parts.seen_withCache hcache.readParsed_eq hcache.readBinary_eq

theorem moved_move (c : Codec fmt) (target : Format) (reEncode : Bool) :
    c.Moved (c.move target reEncode) := by
  -- The error of a rejected write goes before the one that the move may leave.
  have hcarried {e : Option CodecError} (he : e.filter CodecError.isRejection = none) :
      (c.sync.rejection.or e).filter CodecError.isRejection = c.sync.rejection := by
    unfold rejection
    cases herror : c.sync.error with
    | none => exact he
    | some first =>
      cases hrejection : first.isRejection with
      | false => rwa [Option.filter_some_neg (by simp [hrejection])]
      | true =>
        rw [Option.filter_some_pos hrejection]
        exact Option.filter_some_pos hrejection
  rw [move_eq]
  cases reEncode with
  | false => exact ⟨rfl, ⟨c.sync.parts.geometry, .inl rfl, rfl⟩, hcarried rfl⟩
  | true =>
    rcases (ofParts c.sync.parts : Codec target).encode_cases true with
      hsame | ⟨-, cache, hcache, ⟨f, -, hdone⟩ | ⟨e, hrebuild, hfail⟩⟩
    · have hparts : c.moveParts target true = ofParts c.sync.parts := hsame
      rw [hparts]
      exact ⟨rfl, ⟨c.sync.parts.geometry, .inl rfl, rfl⟩, hcarried rfl⟩
    · have hparts : c.moveParts target true = _ := hdone
      rw [hparts]
      exact ⟨rfl, ⟨cache, hcache, rfl⟩, hcarried rfl⟩
    · have hparts : c.moveParts target true = _ := hfail
      rw [hparts]
      refine ⟨rfl, ⟨cache, hcache, rfl⟩, hcarried ?_⟩
      exact Option.filter_some_neg (by simp [Format.isRejection_of_rebuild hrebuild])

/-- Parts with a body that cannot be put together in the other format stay, and what is wrong
    with them becomes the error, unless there is that of a rejected write. -/
theorem move_of_fault {target : Format} {e : CodecError}
    (hjson : c.sync.parts.json.isSome = true) (h : target.rebuild c.sync.parts = .error e) :
    (c.move target true).feature = none ∧
      (c.move target true).error = some (c.sync.rejection.getD e) := by
  have herror : (c.moveParts target true).error = some e :=
    (error_encode_of_stale (c := (ofParts c.sync.parts : Codec target)) rfl hjson true).trans
      (Format.fault?_of_error h)
  have hfeature : (c.moveParts target true).feature = none := by
    rcases (ofParts c.sync.parts : Codec target).encode_cases true with
      hsame | ⟨-, cache, -, ⟨f, hrebuild, -⟩ | ⟨e', -, hfail⟩⟩
    · exact congrArg feature hsame
    · cases hrebuild.symm.trans h
    · exact congrArg feature hfail
  rw [move_eq]
  refine ⟨hfeature, ?_⟩
  rw [herror]
  cases c.sync.rejection <;> rfl

/-- To whatever format a codec is retargeted, it stays as it is or is moved. -/
theorem alike_retarget (c : Codec fmt) (target : Format) (reEncode : Bool) :
    c.Alike (c.retarget target reEncode) := by
  cases reEncode with
  | true => exact (c.moved_move target true).alike
  | false =>
    by_cases hsame : fmt = target
    · subst hsame
      rw [retarget_self]
      exact .refl c
    · rw [c.retarget_of_ne hsame]
      exact (c.moved_move target false).alike

theorem rejection_retarget (h : c.decoded = true) (target : Format) (reEncode : Bool) :
    (c.retarget target reEncode).decoded = true ∧
      (c.retarget target reEncode).rejection = c.rejection := by
  have hmoved (reEncode : Bool) : (c.move target reEncode).rejection = c.rejection := by
    rw [(c.moved_move target reEncode).rejection, sync_of_decoded h]
  cases reEncode with
  | true => exact ⟨(c.moved_move target true).decoded, hmoved true⟩
  | false =>
    by_cases hsame : fmt = target
    · subst hsame
      rw [retarget_self]
      exact ⟨h, rfl⟩
    · rw [c.retarget_of_ne hsame]
      exact ⟨(c.moved_move target false).decoded, hmoved false⟩

/-! ### Reading -/

/-- Parts that have been derived, or could not be, stay so with another cache. -/
theorem sync_withGeometry (h : c.sync = c) (cache : GeometryCache) :
    (c.withGeometry cache).sync = c.withGeometry cache := by
  cases hdecoded : c.decoded with
  | true => exact sync_of_decoded hdecoded
  | false =>
    cases hfeature : c.feature with
    | none => simp [sync, withGeometry, hfeature]
    | some f =>
      have hdecode : c.sync = c.decode false := by simp [sync, hdecoded, hfeature]
      rw [hdecode] at h
      cases hparts : fmt.disassemble f with
      | ok parts =>
        have hdone : (c.decode false).decoded = true := by
          simp [decode, hdecoded, hfeature, hparts]
        rw [h, hdecoded] at hdone
        cases hdone
      | error e =>
        have herror : c.error = some e := by
          rw [← h]
          simp [decode, hdecoded, hfeature, hparts]
        simp [sync, decode, withGeometry, hdecoded, hfeature, hparts, herror]

theorem readParts_eq (c : Codec fmt) :
    c.readParts = (c.seen.parts,
      c.sync.withGeometry c.sync.parts.geometry.withBinary.readParsed.2) := by
  have hbinary := sync_withGeometry c.sync_sync c.sync.parts.geometry.withBinary
  simp only [readParts, id, version, featureType, propertiesType, json, read, binaryGeometry,
    geometry, sync_sync, GeometryCache.readBinary, hbinary, seen_parts]
  simp only [withGeometry, GeometryCache.readParsed_withBinary]
  rfl

/-- Reading the parts of a row leaves a codec that is read alike. -/
theorem alike_readParts (c : Codec fmt) : c.Alike c.readParts.2 := by
  have hread : c.readParts.2.sync = c.readParts.2 := by
    rw [readParts_eq]
    exact sync_withGeometry c.sync_sync _
  have hyields := GeometryCache.yields_readParsed c.sync.parts.geometry.withBinary
  refine ⟨?_, by rw [hread, readParts_eq]; rfl⟩
  rw [seen_parts, seen_parts, hread, readParts_eq]
  refine Parts.seen_withCache ?_ ?_
  · exact hyields.readParsed_eq.trans (GeometryCache.readParsed_withBinary _)
  · exact hyields.readBinary_eq.trans (by cases c.sync.parts.geometry <;> rfl)

/-- Read the parts of a row, and then whether it is that of a rejected write. -/
def readRow (c : Codec fmt) : SeenRow × Codec fmt :=
  ({ parts := c.readParts.1, error := c.readParts.2.rejection }, c.readParts.2)

theorem Alike.readRow (h : c.Alike d) :
    d.readRow.1 = c.readRow.1 ∧ c.readRow.2.Alike d.readRow.2 := by
  have hrow {fmt : Format} (c : Codec fmt) :
      c.readRow.1 = { parts := c.seen.parts, error := c.sync.rejection } := by
    simp only [Codec.readRow, readParts_eq]
    rfl
  refine ⟨?_, c.alike_readParts.symm.trans (h.trans d.alike_readParts)⟩
  rw [hrow, hrow, h.seen, h.rejection]

/-- The codec shows a result. It may have been read and moved since, but not edited. -/
inductive OfResult : {fmt : Format} → Codec fmt → Prop
  | shown {fmt : Format} (result : ExecutedResult) : OfResult (result.toCodec : Codec fmt)
  | read {fmt : Format} {c : Codec fmt} (h : OfResult c) (read : LazyRead) :
      OfResult (c.perform read.action).2
  | retarget {fmt : Format} {c : Codec fmt} (h : OfResult c) (target : Format)
      (reEncode : Bool) : OfResult (c.retarget target reEncode)

theorem OfResult.decoded {fmt : Format} {c : Codec fmt} (h : OfResult c) : c.decoded = true := by
  induction h with
  | shown result => rfl
  | @read fmt c h read ih =>
    have hsync : c.sync.decoded = true := by rw [sync_of_decoded ih, ih]
    cases read with
    | op => exact ih
    | feature =>
      rcases c.encode_cases false with hsame | ⟨-, cache, -, ⟨f, -, hdone⟩ | ⟨e, -, hfail⟩⟩
      · exact (congrArg Codec.decoded hsame).trans ih
      · exact (congrArg Codec.decoded hdone).trans ih
      · exact (congrArg Codec.decoded hfail).trans ih
    | id | version | featureType | propertiesType | json | geometry | binary => exact hsync
  | retarget h target reEncode ih => exact (rejection_retarget ih target reEncode).1

end Codec

/-! ## Cursors that are read alike -/

/-- Both slots are empty, or both hold rows that are read alike. -/
structure Row.Alike (r : Row fmt) (s : Row other) : Prop where
  valid : s.valid = r.valid
  codec : r.valid = true → r.codec.Alike s.codec

theorem Row.Alike.refl (r : Row fmt) : r.Alike r := ⟨rfl, fun _ => .refl r.codec⟩

theorem Row.alike_empty : Row.Alike ({} : Row fmt) ({} : Row other) := ⟨rfl, by nofun⟩

theorem Row.alike_ofParts (parts : Parts) :
    Row.Alike (Row.ofParts parts : Row fmt) (Row.ofParts parts : Row other) :=
  ⟨rfl, fun _ => ⟨rfl, rfl⟩⟩

theorem Row.Alike.retargetRow {r : Row fmt} {s : Row other} (h : r.Alike s) (target : Format)
    (reEncode : Bool) : r.Alike (StreamingCursor.retargetRow s target reEncode) := by
  unfold StreamingCursor.retargetRow
  split
  next hvalid =>
    have hrow : r.valid = true := h.valid.symm.trans hvalid
    exact ⟨hrow.symm, fun _ => (h.codec hrow).trans (s.codec.alike_retarget target reEncode)⟩
  next hvalid =>
    have hempty : ¬r.valid = true := fun hrow => hvalid (h.valid.trans hrow)
    exact ⟨(Bool.eq_false_iff.mpr hempty).symm, fun hrow => absurd hrow hempty⟩

namespace StreamingCursor

/-- The cursors are at the same place of the same source, and their rows are read alike. -/
structure Alike (c : StreamingCursor σ fmt) (d : StreamingCursor σ other) : Prop where
  handle : d.handle = c.handle
  current : c.current.Alike d.current
  lookahead : c.lookahead.Alike d.lookahead
  lookaheadLoaded : d.lookaheadLoaded = c.lookaheadLoaded
  position : d.position = c.position
  exhausted : d.exhausted = c.exhausted

variable {c : StreamingCursor σ fmt} {d : StreamingCursor σ other}

namespace Alike

theorem refl (c : StreamingCursor σ fmt) : c.Alike c :=
  ⟨rfl, .refl c.current, .refl c.lookahead, rfl, rfl, rfl⟩

theorem withFormat (h : c.Alike d) (target : Format) (reEncode : Bool) :
    c.Alike (d.withFormat target reEncode) :=
  ⟨h.handle, h.current.retargetRow target reEncode, h.lookahead.retargetRow target reEncode,
    h.lookaheadLoaded, h.position, h.exhausted⟩

theorem advance (h : c.Alike d) : c.advance.Alike d.advance :=
  ⟨h.handle, h.lookahead, Row.alike_empty, rfl, congrArg (shift · 1) h.position, h.exhausted⟩

theorem finish (h : c.Alike d) : c.finish.Alike d.finish := by
  unfold StreamingCursor.finish
  rw [h.exhausted]
  split
  · exact h
  · exact ⟨h.handle, Row.alike_empty, h.lookahead, h.lookaheadLoaded,
      congrArg (shift · 1) h.position, rfl⟩

/-- Both ask for the next row, and get the same, or neither has to. -/
theorem hasNext (h : c.Alike d) (env : ε) :
    (d.hasNext env).1 = (c.hasNext env).1 ∧ (c.hasNext env).2.Alike (d.hasNext env).2 := by
  unfold StreamingCursor.hasNext
  rw [h.handle, h.lookaheadLoaded, h.exhausted, h.lookahead.valid]
  split
  · exact ⟨rfl, h⟩
  split
  · exact ⟨rfl, h⟩
  split
  · exact ⟨rfl, h⟩
  rcases hload : RowSource.load env c.handle.source with ⟨outcome, source⟩
  have hother : RowSource.load env d.handle.source = (outcome, source) := by rw [h.handle, hload]
  have hhandle : { d.handle with source } = { c.handle with source } := by rw [h.handle]
  rcases outcome with failure | _ | row
  · rw [lookAhead_of_failure hload, lookAhead_of_failure hother]
    exact ⟨rfl, hhandle, h.current, Row.alike_empty, h.lookaheadLoaded, h.position, h.exhausted⟩
  · rw [lookAhead_of_end hload, lookAhead_of_end hother]
    exact ⟨rfl, hhandle, h.current, Row.alike_empty, rfl, h.position, h.exhausted⟩
  · rw [lookAhead_of_row hload, lookAhead_of_row hother]
    exact ⟨rfl, hhandle, h.current, Row.alike_ofParts row, rfl, h.position, h.exhausted⟩

theorem move (h : c.Alike d) (env : ε) (m : Move) :
    (d.move env m).1 = (c.move env m).1 ∧ (c.move env m).2.Alike (d.move env m).2 := by
  obtain ⟨hresult, hafter⟩ := h.hasNext env
  rcases hnext : c.hasNext env with ⟨result, c'⟩
  rcases hother : d.hasNext env with ⟨result', d'⟩
  rw [hnext, hother] at hresult hafter
  obtain rfl : result' = result := hresult
  have hafter : c'.Alike d' := hafter
  rcases result' with e | _ | _
  · rw [move_of_error hnext, move_of_error hother]
    exact ⟨rfl, hafter⟩
  · rw [move_of_false hnext, move_of_false hother]
    cases m with
    | next => exact ⟨rfl, hafter.finish⟩
    | hasNext => exact ⟨rfl, hafter⟩
    | tryNext => exact ⟨rfl, hafter⟩
  · rw [move_of_true hnext, move_of_true hother]
    cases m with
    | hasNext => exact ⟨rfl, hafter⟩
    | next => exact ⟨rfl, hafter.advance⟩
    | tryNext => exact ⟨rfl, hafter.advance⟩

theorem withCurrent (h : c.Alike d) {row : Codec fmt} {row' : Codec other}
    (hrow : row.Alike row') : (c.withCurrent row).Alike (d.withCurrent row') :=
  ⟨h.handle, ⟨h.current.valid, fun _ => hrow⟩, h.lookahead, h.lookaheadLoaded, h.position,
    h.exhausted⟩

theorem readRow (h : c.Alike d) :
    (d.onCurrent Codec.readRow).1 = (c.onCurrent Codec.readRow).1 ∧
      (c.onCurrent Codec.readRow).2.Alike (d.onCurrent Codec.readRow).2 := by
  unfold StreamingCursor.onCurrent currentCodec
  rw [h.handle, h.current.valid, h.position]
  by_cases hreleased : c.handle.released = true
  · rw [if_pos hreleased, if_pos hreleased]
    exact ⟨rfl, h⟩
  by_cases hvalid : c.current.valid = true
  · rw [if_neg hreleased, if_neg hreleased, if_pos hvalid, if_pos hvalid]
    obtain ⟨hseen, hrow⟩ := (h.current.codec hvalid).readRow
    exact ⟨congrArg Except.ok hseen, h.withCurrent hrow⟩
  · rw [if_neg hreleased, if_neg hreleased, if_neg hvalid, if_neg hvalid]
    exact ⟨rfl, h⟩

end Alike

end StreamingCursor

/-! Lists that are related item by item have related items, and stay so if both get another
item at the same place. -/

section Items

variable {α β : Type} {R : α → β → Prop} {xs : List α} {ys : List β}

theorem rel_getElem? (h : List.Forall₂ R xs ys) (i : Nat) : Option.Rel R xs[i]? ys[i]? := by
  induction h generalizing i with
  | nil => exact .none
  | cons hhead _ ih =>
    cases i with
    | zero => exact .some hhead
    | succ i => exact ih i

theorem rel_set (h : List.Forall₂ R xs ys) (i : Nat) {x : α} {y : β} (hxy : R x y) :
    List.Forall₂ R (xs.set i x) (ys.set i y) := by
  induction h generalizing i with
  | nil => exact .nil
  | cons hhead hrest ih =>
    cases i with
    | zero => exact .cons hxy hrest
    | succ i => exact .cons hhead (ih i)

end Items

namespace HeapCursor

/-- The cursors are at the same place among rows that are read alike, and know the same order
    and the same origin of them. -/
structure Alike (c : HeapCursor σ fmt) (d : HeapCursor σ other) : Prop where
  codecs : List.Forall₂ Codec.Alike c.codecs d.codecs
  position : d.position = c.position
  inputOrder : d.inputOrder = c.inputOrder
  origin : d.origin = c.origin
  closed : d.closed = c.closed

variable {c : HeapCursor σ fmt} {d : HeapCursor σ other}

namespace Alike

theorem refl (c : HeapCursor σ fmt) : c.Alike c :=
  ⟨List.forall₂_same.mpr fun row _ => .refl row, rfl, rfl, rfl, rfl⟩

theorem withFormat (h : c.Alike d) (target : Format) (reEncode : Bool) :
    c.Alike (d.withFormat target reEncode) := by
  refine ⟨?_, h.position, h.inputOrder, h.origin, h.closed⟩
  rw [HeapCursor.withFormat, List.forall₂_map_right_iff]
  exact h.codecs.imp fun _ row hrow => hrow.trans (row.alike_retarget target reEncode)

theorem length_eq (h : c.Alike d) : d.length = c.length := h.codecs.length_eq.symm

theorem hasNext (h : c.Alike d) : d.hasNext = c.hasNext := by
  unfold HeapCursor.hasNext
  rw [h.closed, h.position, h.length_eq]

theorem next (h : c.Alike d) : d.next.1 = c.next.1 ∧ c.next.2.Alike d.next.2 := by
  unfold HeapCursor.next
  rw [h.hasNext]
  split
  · exact ⟨rfl, h.codecs, congrArg (· + 1) h.position, h.inputOrder, h.origin, h.closed⟩
  · exact ⟨rfl, h.codecs, congrArg _ h.length_eq, h.inputOrder, h.origin, h.closed⟩
  · exact ⟨rfl, h⟩

theorem tryNext (h : c.Alike d) : d.tryNext.1 = c.tryNext.1 ∧ c.tryNext.2.Alike d.tryNext.2 := by
  unfold HeapCursor.tryNext
  rw [h.hasNext]
  split
  · exact ⟨rfl, h.codecs, congrArg (· + 1) h.position, h.inputOrder, h.origin, h.closed⟩
  · exact ⟨rfl, h⟩
  · exact ⟨rfl, h⟩

theorem withRow (h : c.Alike d) (index : Nat) {row : Codec fmt} {row' : Codec other}
    (hrow : row.Alike row') : (c.withRow index row).Alike (d.withRow index row') :=
  ⟨rel_set h.codecs index hrow, h.position, h.inputOrder, h.origin, h.closed⟩

/-- On both cursors the place has no row, for the same reason, or it has rows that are read
    alike. -/
theorem row_cases (h : c.Alike d) (position : Int) :
    (∃ e, c.row position = .error e ∧ d.row position = .error e) ∨
    ∃ index row row', c.row position = .ok (index, row) ∧ d.row position = .ok (index, row') ∧
      row.Alike row' := by
  unfold HeapCursor.row
  rw [h.closed]
  by_cases hclosed : c.closed = true
  · exact .inl ⟨.closed, if_pos hclosed, if_pos hclosed⟩
  rw [if_neg hclosed, if_neg hclosed]
  by_cases hbefore : position < 0
  · exact .inl ⟨.outOfBounds position, if_pos hbefore, if_pos hbefore⟩
  rw [if_neg hbefore, if_neg hbefore]
  have hitem := rel_getElem? h.codecs position.toNat
  generalize c.codecs[position.toNat]? = found at hitem ⊢
  generalize d.codecs[position.toNat]? = found' at hitem ⊢
  cases hitem with
  | none => exact .inl ⟨.outOfBounds position, rfl, rfl⟩
  | some hrow => exact .inr ⟨position.toNat, _, _, rfl, rfl, hrow⟩

theorem readRow (h : c.Alike d) :
    (d.onCurrent Codec.readRow).1 = (c.onCurrent Codec.readRow).1 ∧
      (c.onCurrent Codec.readRow).2.Alike (d.onCurrent Codec.readRow).2 := by
  unfold HeapCursor.onCurrent
  rw [h.position]
  rcases h.row_cases c.position with ⟨e, hrow, hrow'⟩ | ⟨index, row, row', hrow, hrow', halike⟩
  · rw [hrow, hrow']
    exact ⟨rfl, h⟩
  · rw [hrow, hrow']
    obtain ⟨hseen, hafter⟩ := halike.readRow
    exact ⟨congrArg Except.ok hseen, h.withRow index hafter⟩

end Alike

end HeapCursor

/-! ## Readers -/

/-- A call of a reader of rows. -/
inductive ReaderCall (ε : Type)
  | move (env : ε) (m : Move)
  | read

/-- What a reader learns from a call: how a move has ended and where it has led, or what the
    current row shows. -/
inductive Glimpse
  | moved (result : Except CursorError Bool) (position : Int)
  | row (seen : Except CursorError SeenRow)

namespace Cursor

/-- Make a move. Yields whether there is or was a next row, or why it cannot be said. -/
def move (env : ε) (c : Cursor σ fmt) (m : Move) : Except CursorError Bool × Cursor σ fmt :=
  match m with
  | .hasNext => c.hasNext env
  | .next => ((c.next env).1.map (fun _ => true), (c.next env).2)
  | .tryNext => c.tryNext env

def answer (c : Cursor σ fmt) : ReaderCall ε → Glimpse × Cursor σ fmt
  | .move env m => (.moved (c.move env m).1 (c.move env m).2.position, (c.move env m).2)
  | .read => (.row (c.onCurrent Codec.readRow).1, (c.onCurrent Codec.readRow).2)

def answers (c : Cursor σ fmt) : List (ReaderCall ε) → List Glimpse × Cursor σ fmt
  | [] => ([], c)
  | call :: rest =>
    (((c.answer call).1 :: ((c.answer call).2.answers rest).1), ((c.answer call).2.answers rest).2)

/-- Put the cursor into one format after another. -/
def withFormats {fmt : Format} (c : Cursor σ fmt) :
    List (Format × Bool) → (target : Format) × Cursor σ target
  | [] => ⟨fmt, c⟩
  | (target, reEncode) :: rest => (c.withFormat target reEncode).withFormats rest

/-- The rows that the cursor has at hand. -/
def rows : Cursor σ fmt → List (Codec fmt)
  | .stream c => ([c.current, c.lookahead].filter Row.valid).map Row.codec
  | .heap c => c.codecs

def inputOrder? : Cursor σ fmt → Option (Keyed Nat)
  | .stream _ => none
  | .heap c => c.inputOrder

/-- Two cursors of the same kind that are read alike. -/
inductive Alike : Cursor σ fmt → Cursor σ other → Prop
  | stream {c : StreamingCursor σ fmt} {d : StreamingCursor σ other} (h : c.Alike d) :
      Alike (.stream c) (.stream d)
  | heap {c : HeapCursor σ fmt} {d : HeapCursor σ other} (h : c.Alike d) :
      Alike (.heap c) (.heap d)

variable {c : Cursor σ fmt} {d : Cursor σ other}

namespace Alike

theorem refl (c : Cursor σ fmt) : c.Alike c := by
  cases c with
  | stream c => exact .stream (.refl c)
  | heap c => exact .heap (.refl c)

theorem withFormat (h : c.Alike d) (target : Format) (reEncode : Bool) :
    c.Alike (d.withFormat target reEncode) := by
  cases h with
  | stream h => exact .stream (h.withFormat target reEncode)
  | heap h => exact .heap (h.withFormat target reEncode)

theorem withFormats (h : c.Alike d) (chain : List (Format × Bool)) :
    c.Alike (d.withFormats chain).2 := by
  induction chain generalizing other with
  | nil => exact h
  | cons change rest ih => exact ih (h.withFormat change.1 change.2)

theorem position_eq (h : c.Alike d) : d.position = c.position := by
  cases h with
  | stream h => exact h.position
  | heap h => exact h.position

theorem inputOrder?_eq (h : c.Alike d) : d.inputOrder? = c.inputOrder? := by
  cases h with
  | stream h => rfl
  | heap h => exact h.inputOrder

theorem handle?_eq (h : c.Alike d) : d.handle? = c.handle? := by
  cases h with
  | stream h => exact congrArg some h.handle
  | heap h => exact congrArg Option.join h.origin

theorem move (h : c.Alike d) (env : ε) (m : Move) :
    (d.move env m).1 = (c.move env m).1 ∧ (c.move env m).2.Alike (d.move env m).2 := by
  cases h with
  | @stream c d h =>
    have hmove := h.move env m
    cases m with
    | hasNext => exact ⟨hmove.1, .stream hmove.2⟩
    | next => exact ⟨hmove.1, .stream hmove.2⟩
    | tryNext => exact ⟨hmove.1, .stream hmove.2⟩
  | heap h =>
    cases m with
    | hasNext => exact ⟨h.hasNext, .heap h⟩
    | next => exact ⟨congrArg (Except.map (fun _ => true)) h.next.1, .heap h.next.2⟩
    | tryNext => exact ⟨h.tryNext.1, .heap h.tryNext.2⟩

/-- Each call of a reader is answered alike. -/
theorem answer (h : c.Alike d) (call : ReaderCall ε) :
    (d.answer call).1 = (c.answer call).1 ∧ (c.answer call).2.Alike (d.answer call).2 := by
  cases call with
  | move env m =>
    obtain ⟨hresult, hafter⟩ := h.move env m
    exact ⟨congrArg₂ Glimpse.moved hresult hafter.position_eq, hafter⟩
  | read =>
    cases h with
    | stream h => exact ⟨congrArg Glimpse.row h.readRow.1, .stream h.readRow.2⟩
    | heap h => exact ⟨congrArg Glimpse.row h.readRow.1, .heap h.readRow.2⟩

/-- And so is whatever a reader does. -/
theorem answers (h : c.Alike d) (calls : List (ReaderCall ε)) :
    (d.answers calls).1 = (c.answers calls).1 ∧
      (c.answers calls).2.Alike (d.answers calls).2 := by
  induction calls generalizing c d with
  | nil => exact ⟨rfl, h⟩
  | cons call rest ih =>
    obtain ⟨hfirst, hafter⟩ := h.answer call
    obtain ⟨hrest, hlast⟩ := ih hafter
    exact ⟨congrArg₂ List.cons hfirst hrest, hlast⟩

end Alike

/-! ### The rows at hand -/

theorem rows_withFormat (c : Cursor σ fmt) (target : Format) (reEncode : Bool) :
    (c.withFormat target reEncode).rows
      = c.rows.map (fun row => row.retarget target reEncode) := by
  cases c with
  | heap c => rfl
  | stream c =>
    have hslot (row : Row fmt) (rest : List (Row fmt)) (others : List (Row target))
        (h : (others.filter Row.valid).map Row.codec
          = ((rest.filter Row.valid).map Row.codec).map (·.retarget target reEncode)) :
        ((StreamingCursor.retargetRow row target reEncode :: others).filter Row.valid).map Row.codec
          = (((row :: rest).filter Row.valid).map Row.codec).map (·.retarget target reEncode) := by
      cases hvalid : row.valid with
      | true => simpa [StreamingCursor.retargetRow, hvalid] using h
      | false => simpa [StreamingCursor.retargetRow, hvalid] using h
    exact hslot c.current _ _ (hslot c.lookahead [] [] rfl)

/-- A relation that retargeting keeps holds between the rows before and after any changes of
    the format. -/
theorem rows_withFormats {R : {other : Format} → Codec fmt → Codec other → Prop}
    {xs : List (Codec fmt)}
    (hretarget : ∀ {other : Format} (row : Codec fmt) (row' : Codec other) (target : Format)
      (reEncode : Bool), R row row' → R row (row'.retarget target reEncode))
    (h : List.Forall₂ R xs d.rows) (chain : List (Format × Bool)) :
    List.Forall₂ R xs (d.withFormats chain).2.rows := by
  induction chain generalizing other with
  | nil => exact h
  | cons change rest ih =>
    refine ih ?_
    rw [rows_withFormat, List.forall₂_map_right_iff]
    exact h.imp fun row row' hrow => hretarget row row' change.1 change.2 hrow

end Cursor

/-- The codec has come from the other one by changes of its format: it is read alike, and if the
    parts have been there already, then so has been the error of a rejected write. -/
structure Codec.Follows (c : Codec fmt) (d : Codec other) : Prop where
  alike : c.Alike d
  rejection : c.decoded = true → d.decoded = true ∧ d.rejection = c.rejection

theorem Codec.Follows.retarget {c : Codec fmt} {d : Codec other} (h : c.Follows d)
    (target : Format) (reEncode : Bool) : c.Follows (d.retarget target reEncode) := by
  refine ⟨h.alike.trans (d.alike_retarget target reEncode), fun hdecoded => ?_⟩
  obtain ⟨hd, hsame⟩ := h.rejection hdecoded
  obtain ⟨hmoved, hrejection⟩ := Codec.rejection_retarget hd target reEncode
  exact ⟨hmoved, hrejection.trans hsame⟩

/-- A row with a body that cannot be put together in the other format is read as before when it
    is put together at once, and gains an error. -/
theorem Codec.Alike.retarget_of_fault {c : Codec fmt} {d : Codec other} (h : c.Alike d)
    {target : Format} {e : CodecError} (hjson : c.json.1.isSome = true)
    (hfault : target.rebuild c.sync.parts = .error e) :
    (d.retarget target true).seen.parts = c.seen.parts ∧
      (d.retarget target true).feature = none ∧
      (d.retarget target true).error = some (c.sync.rejection.getD e) := by
  have hbody : d.sync.parts.json.isSome = true :=
    (congrArg (fun parts => parts.json.isSome) h.parts_eq).trans hjson
  have hrebuild : target.rebuild d.sync.parts = .error e :=
    (Parts.rebuild_of_seen h.parts_eq target).trans hfault
  obtain ⟨hfeature, herror⟩ := Codec.move_of_fault hbody hrebuild
  refine ⟨(h.trans (d.alike_retarget target true)).seen, hfeature, ?_⟩
  rw [← h.rejection]
  exact herror

namespace Cursor

/-- Changes of the format are invisible to whoever reads the parts of rows, and whatever a cursor
    has been used for before. The cursor is where it was and knows the order that it knew. To
    all calls of a reader it answers as it would have done, and makes the same calls of its
    source for that. A row of a result, unless it has been edited, has the error of a rejected
    write that it had. And a row with a body that cannot be put together in the last format
    shows the parts that it showed, and gains an error if it has none of a rejected write. -/
theorem withFormats_invisible (c : Cursor (Watched σ) fmt) (chain : List (Format × Bool)) :
    (c.withFormats chain).2.position = c.position ∧
    (c.withFormats chain).2.inputOrder? = c.inputOrder? ∧
    (∀ calls : List (ReaderCall ε),
      ((c.withFormats chain).2.answers calls).1 = (c.answers calls).1 ∧
      ((c.withFormats chain).2.answers calls).2.handle? = (c.answers calls).2.handle?) ∧
    List.Forall₂ (fun row row' => row.OfResult → row'.rejection = row.rejection)
      c.rows (c.withFormats chain).2.rows ∧
    ∀ target : Format,
      List.Forall₂
        (fun row row' => ∀ e, row.json.1.isSome = true → target.rebuild row.sync.parts = .error e →
          row'.seen.parts = row.seen.parts ∧ row'.feature = none ∧
            row'.error = some (row.sync.rejection.getD e))
        c.rows ((c.withFormats chain).2.withFormat target true).rows := by
  have hcursor : c.Alike (c.withFormats chain).2 := (Alike.refl c).withFormats chain
  have hrows : List.Forall₂ Codec.Follows c.rows (c.withFormats chain).2.rows := by
    refine rows_withFormats (fun row row' target reEncode h => h.retarget target reEncode) ?_ chain
    exact List.forall₂_same.mpr fun row _ => ⟨.refl row, fun h => ⟨h, rfl⟩⟩
  refine ⟨hcursor.position_eq, hcursor.inputOrder?_eq, fun calls => ?_, ?_, fun target => ?_⟩
  · obtain ⟨hanswers, hafter⟩ := hcursor.answers calls
    exact ⟨hanswers, hafter.handle?_eq⟩
  · exact hrows.imp fun row row' h hresult => (h.rejection hresult.decoded).2
  · rw [rows_withFormat, List.forall₂_map_right_iff]
    refine hrows.imp fun row row' h => ?_
    intro e hjson hfault
    exact h.alike.retarget_of_fault hjson hfault

/-- A conflict with a feature whose body is no object, after a row without an error. -/
theorem withFormats_invisible_of_conflict :
    let created : ExecutedResult :=
      .executed .created { id := some "b", version := some "v2", json := some "\x7b\"id\":\"b\"\x7d" }
    let conflict : ExecutedResult :=
      .rejected .conflict (some "a") (some { id := some "a", version := some "v1", json := some "[]" })
    let c : Cursor (Watched RowQueue) .geo :=
      .heap (WriteOutcome.ofResults [created, conflict] none none).cursor
    let chain : List (Format × Bool) := [(.json, false), (.geo, true), (.geo, false)]
    (∀ calls, ((c.withFormats chain).2.answers calls).1 = (c.answers calls).1) ∧
      ∃ first second, ((c.withFormats chain).2.withFormat .json true).rows = [first, second] ∧
        second.feature = none ∧ second.error = some (.ofCause .conflict) := by
  intro created conflict c chain
  obtain ⟨-, -, hanswers, -, hrows⟩ := c.withFormats_invisible chain
  refine ⟨fun calls => (hanswers calls).1, ?_⟩
  have hfault : Format.json.rebuild
      { op := some .error, id := some "a", version := some "v1", json := some "[]" }
        = .error .unreadableBody := rfl
  have htwo : c.rows = [created.toCodec, conflict.toCodec] := rfl
  have hlast := hrows .json
  rw [htwo] at hlast
  obtain ⟨first, others, -, hothers, hfirst⟩ := List.forall₂_cons_left_iff.mp hlast
  obtain ⟨second, rest, hsecond, hrest, hothers'⟩ := List.forall₂_cons_left_iff.mp hothers
  obtain rfl := List.forall₂_nil_left_iff.mp hrest
  obtain ⟨-, hfeature, herror⟩ := hsecond _ rfl hfault
  exact ⟨first, second, hfirst.trans (congrArg _ hothers'), hfeature, herror⟩

end Cursor

end FeatureStore
