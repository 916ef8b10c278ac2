-- SUMMARY: A heap cursor made from a streaming cursor holds the rows that were ahead of it, and reads like it.
import FeatureStore.Proofs.Agreement
import FeatureStore.Proofs.Ahead
import FeatureStore.Proofs.Coherence

/-!
# Materializing

Taking the rows of a streaming cursor into memory gives a heap cursor of just the rows that
were ahead of it, in whatever way it had come to where it was. In its own format the heap
cursor is then read like the stream, and in the other format its rows have the same parts.
If the source fails before its end, there is no heap cursor, but that failure.
-/

namespace FeatureStore

variable {ε σ α : Type} [RowSource ε σ] {fmt : Format}

/-! ## Reading parts -/

def Codec.readParts (codec : Codec fmt) : SeenParts × Codec fmt :=
  let (id, codec) := codec.id
  let (version, codec) := codec.version
  let (featureType, codec) := codec.featureType
  let (propertiesType, codec) := codec.propertiesType
  let (json, codec) := codec.json
  let (binary, codec) := codec.binaryGeometry
  let (geometry, codec) := codec.geometry
  let op := codec.parts.op
  ({ op, id, version, featureType, propertiesType, json, geometry, binary }, codec)

/-- The parts of a row that has arrived are read alike in both formats. -/
theorem Codec.readParts_arrived (row : Parts) :
    (arrived row : Codec fmt).readParts.1 = row.seen := by
  have hsync : (arrived row : Codec fmt).sync = arrived row := sync_of_decoded rfl
  have hbinary : ((arrived row : Codec fmt).withGeometry row.geometry.withBinary).sync
      = (arrived row).withGeometry row.geometry.withBinary := sync_of_decoded rfl
  have hparts : (arrived row : Codec fmt).parts = row := rfl
  simp only [readParts, id, version, featureType, propertiesType, json, read, hsync, hparts,
    binaryGeometry, GeometryCache.readBinary, geometry, hbinary]
  simp only [withGeometry, hparts, GeometryCache.readParsed_withBinary]
  rfl

/-! ## Any point of a stream -/

namespace StreamingCursor

variable {env : ε} {c : StreamingCursor σ fmt}

def moveAll (c : StreamingCursor σ fmt) (moves : List (ε × Move)) : StreamingCursor σ fmt :=
  moves.foldl (fun c m => (c.move m.1 m.2).2) c

/-- A row that the cursor keeps is as it has arrived. -/
structure Fresh (c : StreamingCursor σ fmt) : Prop where
  sound : c.Sound
  kept : ∀ codec : Codec fmt, c.outlook = .kept codec → ∃ row, codec = .arrived row

/-- A cursor that keeps no row is fresh. -/
theorem fresh_of_outlook (h : c.Sound) (hnone : ∀ codec, c.outlook ≠ .kept codec) : c.Fresh :=
  ⟨h, fun codec hkept => absurd hkept (hnone codec)⟩

theorem fresh_ofSource (source : σ) : (ofSource source : StreamingCursor σ fmt).Fresh := by
  refine fresh_of_outlook (sound_ofSource source) fun codec => ?_
  rw [outlook_ofSource]
  nofun

theorem Fresh.move (h : c.Fresh) (env : ε) (m : Move) : (c.move env m).2.Fresh := by
  refine preserved_by_move h.sound.isOpen h ?keeping ?ending ?missing ?advance ?finish env m
  case keeping =>
    intro source row hunread
    refine ⟨h.sound.keeping hunread source row, fun codec hkept => ⟨row, ?_⟩⟩
    rw [outlook_keeping] at hkept
    exact (Outlook.kept.inj hkept).symm
  case ending =>
    intro source hunread
    refine fresh_of_outlook (h.sound.ending source) fun codec => ?_
    rw [outlook_ending]
    nofun
  case missing =>
    intro source hunread
    refine fresh_of_outlook (h.sound.missing hunread source) fun codec => ?_
    rw [outlook_missing hunread]
    nofun
  case advance =>
    intro d kept hd hkept
    refine fresh_of_outlook (hd.sound.advance hkept) fun codec => ?_
    rw [outlook_advance (hd.sound.exhausted_eq_false (hkept ▸ nofun))]
    nofun
  case finish =>
    intro d hd hended
    refine fresh_of_outlook (hd.sound.finish hended) fun codec => ?_
    rw [outlook_finish hended]
    nofun

theorem Fresh.moveAll (h : c.Fresh) (moves : List (ε × Move)) : (c.moveAll moves).Fresh := by
  induction moves generalizing c with
  | nil => exact h
  | cons m rest ih => exact ih (h.move m.1 m.2)

/-- The rows ahead are then as they arrive. -/
theorem Fresh.ahead_eq (h : c.Fresh) (env : ε) :
    ∃ rows : Except StoreError (List Parts), c.ahead env = rows.map (List.map .arrived) := by
  cases houtlook : c.outlook with
  | ended =>
    refine ⟨.ok [], ?_⟩
    rw [ahead, houtlook]
    rfl
  | unread =>
    refine ⟨supply env c.handle.source, ?_⟩
    rw [ahead, houtlook]
  | kept codec =>
    obtain ⟨row, rfl⟩ := h.kept codec houtlook
    refine ⟨(supply env c.handle.source).map (row :: ·), ?_⟩
    rw [ahead, houtlook]
    cases supply env c.handle.source <;> rfl

/-- Wherever moves have brought a streaming cursor, taking its rows into memory fails if its
    source fails before the end, and for that reason. Otherwise it gives a cursor before the
    first of the rows that reading the stream to its end would have visited. The parts of the
    rows are then read as they would have been from the stream, in the format of the stream or
    in the other one; and in that of the stream so is whatever else can be read of a row. -/
theorem materialize_agrees (source : σ) (fmt target : Format) (moves : List (ε × Move)) (env : ε) :
    let c : StreamingCursor σ fmt := (ofSource source).moveAll moves
    match c.ahead env with
    | .error failure => ∃ handle, c.materialize env target = .error (.store failure, some handle)
    | .ok codecs => ∃ rows : List Parts, codecs = rows.map .arrived ∧
      (∀ {α : Type} (visit : Codec fmt → α × Codec fmt),
        (c.forEach env visit).1 = .ok (rows.map (fun row => (visit (.arrived row)).1))) ∧
      (∃ heap, c.materialize env target = .ok heap ∧ heap.position = -1 ∧ heap.closed = false ∧
        heap.codecs = rows.map .arrived ∧
        (heap.forEach Codec.readParts).1 = (c.forEach env Codec.readParts).1) ∧
      ∃ heap, c.materialize env fmt = .ok heap ∧
        ∀ {α : Type} (visit : Codec fmt → α × Codec fmt),
          (heap.forEach visit).1 = (c.forEach env visit).1 := by
  intro c
  have hfresh : c.Fresh := (fresh_ofSource source).moveAll moves
  obtain ⟨supplied, hahead⟩ := hfresh.ahead_eq env
  rw [hahead]
  -- What is ahead decides for both: the failure of the source, or the rows that it supplies.
  cases supplied with
  | error failure => exact materialize_of_failure hfresh.sound hahead target
  | ok rows =>
    have hstream {α : Type} (visit : Codec fmt → α × Codec fmt) : (c.forEach env visit).1
        = .ok (rows.map (fun row => (visit (.arrived row)).1)) := by
      rw [forEach_of_ahead hfresh.sound hahead, List.map_map]
      rfl
    have htaken (target : Format) : ∃ handle, c.materialize env target
        = .ok (.ofTaken (rows.map .arrived) (some handle)) := by
      obtain ⟨handle, hheap⟩ := materialize_of_ahead hfresh.sound hahead target
      rw [List.map_map] at hheap
      simp only [Function.comp_def, Codec.retarget_arrived] at hheap
      exact ⟨handle, hheap⟩
    refine ⟨rows, rfl, hstream, ?target, ?same⟩
    case target =>
      obtain ⟨handle, hheap⟩ := htaken target
      refine ⟨_, hheap, rfl, rfl, rfl, ?_⟩
      rw [hstream, HeapCursor.forEach_ofTaken, List.map_map]
      simp only [Function.comp_def, Codec.readParts_arrived]
    case same =>
      obtain ⟨handle, hheap⟩ := htaken fmt
      refine ⟨_, hheap, fun visit => ?_⟩
      rw [hstream, HeapCursor.forEach_ofTaken, List.map_map]
      rfl

end StreamingCursor

end FeatureStore
