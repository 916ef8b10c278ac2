-- SUMMARY: What a reader takes from the rows of a read, and the one row that a stored feature has among them.
import FeatureStore.Cursor.Heap
import FeatureStore.Proofs.Deeds
import FeatureStore.Proofs.Paging
import FeatureStore.Proofs.RoundTrip

/-!
# Rows of features

A reader takes three things from a row: its id, its feature, and the error that reading the
feature has left. The row of a stored feature gives the feature under the version that it
was stored with, whether the table has kept both forms of the geometry or the binary form
alone. No other row has its id, because a collection has one record for each id.
-/

namespace FeatureStore

variable {fmt : Format}

/-! ## One row -/

/-- What a reader takes from a row. -/
structure FeatureRow (fmt : Format) where
  id : Option String
  feature : Option fmt.Assembled
  error : Option CodecError

/-- The row of a feature that could be read. -/
def FeatureRow.ofFeature (id : String) (v : fmt.Assembled) : FeatureRow fmt :=
  { id := some id, feature := some v, error := none }

/-- Read the id and the feature of a row, and the error that is then there. -/
def Codec.featureRow (codec : Codec fmt) : FeatureRow fmt × Codec fmt :=
  let (id, codec) := codec.id
  let (feature, codec) := codec.assembled
  ({ id, feature, error := codec.error }, codec)

/-- The parts are those of a feature under a version, with a geometry from which the binary
    and the parsed form can both be had. -/
structure Parts.Shows (row : Parts) (p : Parts) (version : String) : Prop where
  same : row = { p with op := row.op, version := some version, geometry := row.geometry }
  geometry : row.geometry.withParsed = .ok p.geometry.withBinary

/-- A row that shows the parts of a feature gives the feature under the version. -/
theorem featureRow_of_shows {v : fmt.Assembled} (hv : fmt.Readable v) {p row : Parts}
    (hp : fmt.disassemble v = .ok p) {id version : String} (hid : p.id = some id)
    (hrow : row.Shows p version) :
    (Codec.arrived row : Codec fmt).featureRow.1
      = .ofFeature id (fmt.withVersion version v) := by
  obtain ⟨hsame, hgeometry⟩ := hrow
  have hassemble : fmt.assemble { row with geometry := p.geometry.withBinary }
      = .ok (fmt.withVersion version v) := by
    rw [hsame]
    exact Format.assemble_disassemble hv hp row.op version (GeometryCache.peekParsed_withBinary _)
  have hjson : row.json.isNone = false := by
    rw [hsame]
    simpa using Format.isSome_json hp
  have hencode : (Codec.arrived row : Codec fmt).encode false
      = { parts := { row with geometry := p.geometry.withBinary }
          feature := some (fmt.withVersion version v), decoded := true, encoded := true } := by
    simp [Codec.encode, Codec.arrived, Codec.ofLoad, hjson, hgeometry, Codec.withGeometry,
      Codec.assemble, hassemble]
  have hrowId : row.id = some id := by
    rw [hsame]
    exact hid
  have hread : (Codec.arrived row : Codec fmt).id = (some id, .arrived row) := by
    simp [Codec.id, Codec.read, Codec.sync, Codec.arrived, Codec.ofLoad, hrowId]
  simp only [Codec.featureRow, hread, Codec.assembled, hencode, FeatureRow.ofFeature]

namespace Parts

variable {p : Parts} {geometry : Option Geometry}

/-- The row of stored parts, as the store in memory shows it. -/
theorem shows_row (hgeometry : p.geometry = .ofParsed geometry)
    (hsized : ∀ g, geometry = some g → g.Sized) (version : String) :
    (StoredRecord.row ((StoredRecord.mk (p.stored version) false).keeping
      (RecordTable.keep MemoryStore))).Shows p version := by
  refine ⟨rfl, ?_⟩
  have hparsed := (GeometryCache.withParsed_kept hsized).1
  rw [← hgeometry] at hparsed
  exact hparsed

/-- The row of stored parts, as a read of a database shows it. -/
theorem shows_rowOf (hgeometry : p.geometry = .ofParsed geometry)
    (hsized : ∀ g, geometry = some g → g.Sized) {id : String} (hid : p.id = some id)
    (version : String) :
    (PagedRows.rowOf (id, (StoredRecord.mk (p.stored version) false).keeping
      (RecordTable.keep BatchTable))).Shows p version := by
  refine ⟨?_, ?_⟩
  · rw [PagedRows.rowOf, ← hid]
    rfl
  · have hparsed := (GeometryCache.withParsed_kept hsized).2
    rw [← hgeometry] at hparsed
    exact hparsed

end Parts

/-- The row of a stored feature, as the store in memory shows it. -/
theorem shows_row {v : fmt.Assembled} (hv : fmt.Readable v) {p : Parts}
    (hp : fmt.disassemble v = .ok p) (version : String) :
    (StoredRecord.row ((StoredRecord.mk (p.stored version) false).keeping
      (RecordTable.keep MemoryStore))).Shows p version := by
  obtain ⟨geometry, hgeometry, hsized⟩ := Format.exists_geometry hv hp
  exact Parts.shows_row hgeometry hsized version

/-- The row of a stored feature, as a read of a database shows it. -/
theorem shows_rowOf {v : fmt.Assembled} (hv : fmt.Readable v) {p : Parts}
    (hp : fmt.disassemble v = .ok p) {id : String} (hid : p.id = some id) (version : String) :
    (PagedRows.rowOf (id, (StoredRecord.mk (p.stored version) false).keeping
      (RecordTable.keep BatchTable))).Shows p version := by
  obtain ⟨geometry, hgeometry, hsized⟩ := Format.exists_geometry hv hp
  exact Parts.shows_rowOf hgeometry hsized hid version

/-! ## One row among all -/

/-- Among the rows there is exactly one with the id, and it is this one. -/
def FeatureRow.Sole (rows : List (FeatureRow fmt)) (id : String) (row : FeatureRow fmt) : Prop :=
  rows.filter (fun row => row.id = some id) = [row]

/-- The one row with the id gives the feature without an error. -/
def FeatureRow.Once (rows : List (FeatureRow fmt)) (id : String) (v : fmt.Assembled) : Prop :=
  FeatureRow.Sole rows id (.ofFeature id v)

/-- Rows that have the keys of ascending entries as their ids have one row for each. -/
theorem sole_of_entries {entries : List (String × StoredRecord)} (h : Keyed.Ascending entries)
    {row : String × StoredRecord → FeatureRow fmt} (hid : ∀ entry ∈ entries, (row entry).id = some entry.1)
    {id : String} {record : StoredRecord} (hmem : (id, record) ∈ entries) :
    FeatureRow.Sole (entries.map row) id (row (id, record)) := by
  have hfilter : entries.filter (fun entry => decide ((row entry).id = some id))
      = entries.filter (fun entry => decide (entry.1 = id)) := by
    refine List.filter_congr fun entry hentry => ?_
    simp [hid entry hentry]
  calc (entries.map row).filter (fun row => row.id = some id)
      = (entries.filter (fun entry => decide ((row entry).id = some id))).map row := by
        rw [List.filter_map]
        rfl
    _ = (entries.filter (fun entry => decide (entry.1 = id))).map row := by rw [hfilter]
    _ = [row (id, record)] := by rw [Keyed.filter_key h hmem, List.map_singleton]

theorem Records.mem_live {records : Records} {id : String} {record : StoredRecord} :
    (id, record) ∈ records.live ↔ records.find? id = some record ∧ record.deleted = false := by
  rw [Records.live, List.mem_filter, Dictionary.find?, Keyed.find?_eq_some_iff records.ascending]
  simp

/-! ## Reading to the end -/

variable {ε σ : Type} [RowSource ε σ]

/-- A cursor held in memory has the rows that the source supplies. -/
theorem StreamingCursor.Awaits.materialize {α : Type} {env : ε} {c : StreamingCursor σ fmt}
    {codecs : List (Codec fmt)} (h : c.Awaits env codecs) (visit : Codec fmt → α × Codec fmt) :
    ∃ heap, c.materialize env fmt = .ok heap ∧
      (heap.forEach visit).1 = .ok (codecs.map (fun codec => (visit codec).1)) := by
  obtain ⟨handle, hheap⟩ := materialize_of_ahead h.sound h.ahead_eq fmt
  simp only [Codec.retarget_self, List.map_id'] at hheap
  exact ⟨_, hheap, HeapCursor.forEach_ofTaken codecs (some handle) visit⟩

/-- The rows of a source, read to the end in a format, have exactly one with the id, and it is
    this one; whether they are read from the source or from a cursor that holds them all in
    memory. -/
def ReadsSole (env : ε) (source : σ) (id : String) (row : FeatureRow fmt) : Prop :=
  let cursor : StreamingCursor σ fmt := .ofSource source
  (∃ rows, (cursor.forEach env Codec.featureRow).1 = .ok rows ∧ FeatureRow.Sole rows id row) ∧
    ∃ heap, cursor.materialize env fmt = .ok heap ∧
      ∃ rows, (heap.forEach Codec.featureRow).1 = .ok rows ∧ FeatureRow.Sole rows id row

def ReadsOnce (env : ε) (source : σ) (id : String) (v : fmt.Assembled) : Prop :=
  ReadsSole env source id (.ofFeature id v : FeatureRow fmt)

/-- A source reads as the rows that it supplies. -/
theorem readsSole_of_supplies {env : ε} {source : σ} {rows : List Parts}
    (h : Supplies env rows source) {id : String} {row : FeatureRow fmt}
    (hsole : FeatureRow.Sole
      (rows.map (fun row => (Codec.arrived row : Codec fmt).featureRow.1)) id row) :
    ReadsSole env source id row := by
  have hawaits : (StreamingCursor.ofSource source : StreamingCursor σ fmt).Awaits env
      (rows.map .arrived) := StreamingCursor.awaits_ofSource h
  obtain ⟨heap, hheap, hrows⟩ := hawaits.materialize Codec.featureRow
  have hall : (rows.map Codec.arrived).map (fun codec : Codec fmt => codec.featureRow.1)
      = rows.map (fun row => (Codec.arrived row : Codec fmt).featureRow.1) := List.map_map
  rw [← hall] at hsole
  exact ⟨⟨_, hawaits.forEach Codec.featureRow, hsole⟩, heap, hheap, _, hrows, hsole⟩

end FeatureStore
