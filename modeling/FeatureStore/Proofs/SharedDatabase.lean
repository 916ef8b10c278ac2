-- SUMMARY: Stores on one database answer like one store in memory for each collection.
import FeatureStore.Proofs.Agreement
import FeatureStore.Proofs.Building
import FeatureStore.Proofs.Lookups
import FeatureStore.Proofs.Paging
import FeatureStore.Proofs.Sorting

/-!
# Stores on one database

Any number of stores work on one database, several of them on the same collection. They
are opened, closed and opened again while others are at work. For each collection a store
in memory is given the calls that were made on it, in their order; it answers as they
were answered.

A database `Reflects` a store in memory in one of its collections if its records reflect
those of the store and its counter of batches is that of the store. A call on the
collection keeps that up with the same call on the store in memory, and a call on another
collection keeps it up by itself.
-/

namespace FeatureStore

/-! ## Calls and answers -/

/-- What a client asks of an open store. A read is read to its end. -/
inductive StoreAction
  | execute {fmt : Format} (request : WriteRequest fmt)
  | get (id : String)
  | readAll (fmt : Format)

def StoreAction.Coherent : StoreAction → Prop
  | .execute request => CoherentRequest request
  | .get _ | .readAll _ => True

theorem GeometryCache.Agrees.coherent {cache : GeometryCache} (h : cache.Agrees)
    (hsized : ∀ g, cache.peekParsed = some g → g.Sized) : cache.Coherent := by
  cases cache with
  | neither => trivial
  | binary bytes => trivial
  | parsed g => exact hsized g rfl
  | both bytes g => exact h (hsized g rfl)

/-- Whatever has been done with the codecs of the intents, their geometries are coherent if the
    layout can count the elements of their lists. -/
theorem CoherentRequest.of_built {fmt : Format} {request : WriteRequest fmt}
    (hbuilt : ∀ intent ∈ request, intent.codec.Built)
    (hsized : ∀ intent ∈ request, ∀ g,
      intent.sync.codec.parts.geometry.peekParsed = some g → g.Sized) :
    CoherentRequest request := by
  intro intent hmem
  have hgeometry : intent.sync.codec.parts.geometry.Built :=
    (hbuilt intent hmem).sync.whole.geometry
  exact hgeometry.agrees.coherent (hsized intent hmem)

/-- What a reader sees of a record: whether it is deleted, and its parts. -/
def StoredRecord.seen (record : StoredRecord) : Bool × SeenParts :=
  (record.deleted, record.parts.seen)

/-- What a client sees of the answer of a store. -/
inductive StoreAnswer
  | outcome (outcome : SeenOutcome)
  | record (result : Except StoreError (Option (Bool × SeenParts)))
  | rows (result : Except CursorError (List SeenRow))

def StoreAnswer.failure? : StoreAnswer → Option StoreError
  | .outcome seen => seen.failure
  | .record (.error failure) => some failure
  | .rows (.error (.store failure)) => some failure
  | .record (.ok _) | .rows _ => none

/-- Look at a row without changing it. -/
def Codec.look {fmt : Format} (codec : Codec fmt) : SeenRow × Codec fmt := (codec.seen, codec)

def MemoryStore.act (s : MemoryStore) : StoreAction → StoreAnswer × MemoryStore
  | .execute request =>
    let done : WriteOutcome StoreRows _ × MemoryStore := s.execute request
    (.outcome done.1.seen, done.2)
  | .get id => (.record (.ok ((s.get id).map StoredRecord.seen)), s)
  | .readAll fmt =>
    match s.readAll with
    | .error failure => (.rows (.error (.store failure)), s)
    | .ok rows =>
      let cursor : StreamingCursor RowQueue fmt := .ofSource rows
      (.rows (cursor.forEach () Codec.look).1, s)

/-- The answers of a store in memory. Each call says whether batches are sorted. -/
def MemoryStore.answers (s : MemoryStore) : List (Bool × StoreAction) → List StoreAnswer
  | [] => []
  | (sorted, action) :: rest =>
    let (answer, s) := (s.sorting sorted).act action
    answer :: s.answers rest

/-- A call on one of the stores of a session, or the opening or closing of a store in the
    shared database. -/
inductive SharedCall
  | openStore (name : String) (config : StoreConfig)
  | close (name : String)
  | act (name : String) (action : StoreAction)

def SharedCall.Coherent : SharedCall → Prop
  | .act _ action => action.Coherent
  | .openStore _ _ | .close _ => True

/-- A call that an open store has answered. -/
structure Exchange where
  config : StoreConfig
  action : StoreAction
  answer : StoreAnswer

/-- The call with the sort setting of the store that answered it. -/
def Exchange.call (exchange : Exchange) : Bool × StoreAction :=
  (exchange.config.sortWritesById, exchange.action)

/-- The exchanges of one collection. -/
def Exchange.ofCollection (collection : String) (exchanges : List Exchange) :
    List Exchange :=
  exchanges.filter (fun exchange => exchange.config.collection = collection)

namespace Session

def act (session : Session) (name : String) (number : Nat) (s : DatabaseStore) :
    StoreAction → StoreAnswer × Session
  | .execute request =>
    let (outcome, session) := session.execute name (.database number s) request
    (.outcome outcome.seen, session)
  | .get id =>
    let (result, session) := session.get (.database number s) id
    (.record (result.map (fun record => record.map StoredRecord.seen)), session)
  | .readAll fmt =>
    match readAll (.database number s) with
    | .error failure => (.rows (.error (.store failure)), session)
    | .ok rows =>
      let cursor : StreamingCursor StoreRows fmt := .ofSource rows
      let (result, cursor) := cursor.forEach (session.view number) Codec.look
      (.rows result, session.afterRead number cursor.handle.source)

def closeStore (session : Session) (name : String) : Session :=
  match session.stores.find? name with
  | some store => session.setStore name store.close
  | none => session

/-- What the open stores of the shared database answer to calls, one after the other. A call
    on a store that is not open is not answered. -/
def play (session : Session) : List SharedCall → List Exchange
  | [] => []
  | .openStore name config :: rest => (session.connect name config shared).play rest
  | .close name :: rest => (session.closeStore name).play rest
  | .act name action :: rest =>
    match session.stores.find? name with
    | some (.database number s) =>
      if s.closed then session.play rest
      else
        let (answer, session) := session.act name number s action
        { config := s.config, action, answer } :: session.play rest
    | _ => session.play rest

end Session

/-! ## A database and a store in memory -/

namespace Database

def batchesOf (db : Database) (collection : String) : Nat :=
  ((db.batches.getD []).find? collection).getD 0

/-- The tables are there, and no id is refused. -/
structure Ready (db : Database) : Prop where
  features : db.features.isSome
  batches : db.batches.isSome
  saves : db.rejectedSaves = []
  purges : db.rejectedPurges = []

/-- A collection of the database reflects a store in memory. -/
structure Reflects (db : Database) (collection : String) (s : MemoryStore) : Prop where
  records : ∀ id, Option.Rel StoredRecord.Reflects (s.get id) ((db.records collection).find? id)
  batch : s.batch = db.batchesOf collection
  own : s.config.collection = collection
  opened : s.closed = false
  identified : Identified s.get

end Database

/-! ## One batch -/

namespace BatchTable

theorem find?_eq (table : BatchTable) (id : String) :
    table.find? id = (table.database.records table.collection).find? id := by
  unfold find? Database.records
  cases table.database.features <;> rfl

/-- What a batch on one collection leaves alone. -/
structure Aside (collection : String) (db : Database) (table : BatchTable) : Prop where
  own : table.collection = collection
  batches : table.database.batches = db.batches
  others : ∀ other, other ≠ collection → table.database.records other = db.records other

theorem records_insert {db : Database} {features : Keyed Records} {collection other : String}
    (h : other ≠ collection) (hfeatures : db.features = some features) (records : Records) :
    { db with features := some (features.insert collection records) }.records other
      = db.records other := by
  simp [Database.records, Database.recordsOf, hfeatures, Keyed.find?_insert, Ne.symm h]

theorem Aside.afterStatement {collection : String} {db : Database} {table : BatchTable}
    (h : table.Aside collection db) {result : Except StoreError Database}
    (hresult : ∀ changed, result = .ok changed →
      ∃ features records, table.database.features = some features ∧
        changed = { table.database with features := some (features.insert collection records) }) :
    (table.afterStatement result).2.Aside collection db := by
  cases result with
  | error failure => exact h
  | ok changed =>
    obtain ⟨features, records, hfeatures, rfl⟩ := hresult changed rfl
    refine ⟨h.own, h.batches, fun other hother => ?_⟩
    rw [← h.others other hother]
    exact records_insert hother hfeatures records

/-- A batch changes nothing but the records of its collection. -/
theorem preserved_aside (collection : String) (db : Database) :
    Batch.Preserved (Aside collection db) where
  load _ h := h
  save {table} record h := by
    refine h.afterStatement fun changed hsave => ?_
    rw [h.own, Database.save] at hsave
    split at hsave
    · cases hsave
    · next features hfeatures =>
      split at hsave
      · cases hsave
      · cases hsave
        exact ⟨features, _, hfeatures, rfl⟩
  purge {table} id h := by
    refine h.afterStatement fun changed hpurge => ?_
    rw [h.own, Database.purge] at hpurge
    split at hpurge
    · cases hpurge
    · next features hfeatures =>
      dsimp only at hpurge
      split at hpurge
      · cases hpurge
      · cases hpurge
        exact ⟨features, _, hfeatures, rfl⟩
  nextVersion h := ⟨h.own, h.batches, h.others⟩

/-- A batch on a steady table leaves it in order. -/
theorem preserved_sound {τ : Type} [FeatureTable τ] [SteadyTable τ] :
    Batch.Preserved (SteadyTable.sound : τ → Prop) where
  load id h := by
    obtain ⟨t', hload, hsound, -⟩ := SteadyTable.load_sound id h
    rw [hload]
    exact hsound
  save record h := by
    obtain ⟨t', hsave, hsound, -⟩ := SteadyTable.save_sound record h
    rw [hsave]
    exact hsound
  purge id h := by
    obtain ⟨t', hpurge, hsound, -⟩ := SteadyTable.purge_sound id h
    rw [hpurge]
    exact hsound
  nextVersion h := by
    obtain ⟨t', hversion, hsound, -⟩ := SteadyTable.nextVersion_sound h
    rw [hversion]
    exact hsound

end BatchTable

namespace Database

variable {fmt : Format} {σ τ : Type}

/-- A batch is given the next number of its collection, unless the numbers are used up. -/
theorem beginBatch_ok {db begun : Database} {collection : String} {batch : Nat}
    (h : db.beginBatch collection = .ok (batch, begun)) :
    batch = db.batchesOf collection + 1 ∧ batch ≤ batchLimit ∧
      ∃ batches, db.batches = some batches ∧
        begun = { db with batches := some (batches.insert collection batch) } := by
  unfold beginBatch at h
  split at h
  · cases h
  · next batches hbatches =>
    dsimp only at h
    split at h
    · cases h
    · next hlimit =>
      cases h
      refine ⟨?_, Nat.not_lt.mp hlimit, batches, hbatches, rfl⟩
      simp [batchesOf, hbatches]

/-- A batch that is given no number fails in its first statement. -/
theorem beginBatch_error {db : Database} {collection : String} {failure : StoreError}
    (h : db.beginBatch collection = .error failure) : ∃ operation, failure = .statement operation := by
  unfold beginBatch at h
  split at h
  · cases h
    exact ⟨_, rfl⟩
  · dsimp only at h
    split at h
    · cases h
      exact ⟨_, rfl⟩
    · cases h

theorem batchesOf_insert {db : Database} {batches : Keyed Nat} (h : db.batches = some batches)
    (collection other : String) (batch : Nat) :
    { db with batches := some (batches.insert collection batch) }.batchesOf other
      = if collection = other then batch else db.batchesOf other := by
  simp only [batchesOf, h, Option.getD_some, Keyed.find?_insert]
  split <;> rfl

/-- The database and the number that a batch starts with, and the table that it leaves, if
    the batch is given a number. -/
theorem execute_of_begun {db begun : Database} {s : DatabaseStore} {batch : Nat}
    (hopen : s.closed = false) (hbegin : db.beginBatch s.config.collection = .ok (batch, begun))
    (request : WriteRequest fmt) :
    let table : BatchTable := { database := begun, collection := s.config.collection, batch }
    let done : WriteOutcome σ fmt × BatchTable := executeRequest s.config request table
    s.execute request db = (done.1, done.2.database) ∧
      done.2.Aside s.config.collection begun := by
  intro table done
  constructor
  · simp only [DatabaseStore.execute, hopen, hbegin]
    rfl
  · have haside : table.Aside s.config.collection begun := ⟨rfl, rfl, fun _ _ => rfl⟩
    exact (BatchTable.preserved_aside s.config.collection begun).executeFrom 0 _ haside

/-- A batch starts on a table in order. -/
theorem Ready.healthy {db begun : Database} (h : db.Ready) {collection : String} {batch : Nat}
    (hbegin : db.beginBatch collection = .ok (batch, begun)) :
    SteadyTable.sound ({ database := begun, collection, batch } : BatchTable) := by
  obtain ⟨-, -, batches, -, rfl⟩ := beginBatch_ok hbegin
  exact ⟨h.features, h.saves, h.purges⟩

/-- A batch leaves the database ready for the next one. -/
theorem execute_ready {db : Database} (h : db.Ready) (s : DatabaseStore)
    (request : WriteRequest fmt) : (s.execute request db : WriteOutcome σ fmt × Database).2.Ready := by
  cases hclosed : s.closed with
  | true => simpa [DatabaseStore.execute, hclosed] using h
  | false =>
    cases hbegin : db.beginBatch s.config.collection with
    | error failure => simpa [DatabaseStore.execute, hclosed, hbegin] using h
    | ok begin =>
      obtain ⟨batch, begun⟩ := begin
      obtain ⟨hdone, haside⟩ := execute_of_begun (σ := σ) hclosed hbegin request
      have hsound := BatchTable.preserved_sound.executeFrom 0 (s.config.arrange request).1
        (h.healthy hbegin)
      rw [hdone]
      obtain ⟨-, -, batches, hbatches, rfl⟩ := beginBatch_ok hbegin
      refine ⟨hsound.1, ?_, hsound.2.1, hsound.2.2⟩
      rw [haside.batches]
      rfl

/-- A batch leaves the records and the counters of all other collections alone. -/
theorem execute_aside (db : Database) (s : DatabaseStore) (request : WriteRequest fmt)
    {other : String} (hother : other ≠ s.config.collection) :
    let done : WriteOutcome σ fmt × Database := s.execute request db
    done.2.records other = db.records other ∧ done.2.batchesOf other = db.batchesOf other := by
  intro done
  cases hclosed : s.closed with
  | true => simp [done, DatabaseStore.execute, hclosed]
  | false =>
    cases hbegin : db.beginBatch s.config.collection with
    | error failure => simp [done, DatabaseStore.execute, hclosed, hbegin]
    | ok begin =>
      obtain ⟨batch, begun⟩ := begin
      obtain ⟨hdone, haside⟩ := execute_of_begun (σ := σ) hclosed hbegin request
      obtain ⟨-, -, batches, hbatches, rfl⟩ := beginBatch_ok hbegin
      simp only [done, hdone]
      refine ⟨haside.others other hother, ?_⟩
      rw [batchesOf, haside.batches]
      exact (batchesOf_insert hbatches _ other batch).trans (if_neg (Ne.symm hother))

/-- Creating missing tables changes no record. -/
theorem records_createTables (db : Database) (collection : String) :
    db.createTables.records collection = db.records collection := by
  unfold Database.createTables Database.records
  cases db.features <;> rfl

theorem Reflects.createTables {db : Database} {collection : String} {m : MemoryStore}
    (h : db.Reflects collection m) : db.createTables.Reflects collection m := by
  refine ⟨?_, h.batch, h.own, h.opened, h.identified⟩
  rw [records_createTables]
  exact h.records

/-- A batch begins with the records of its collection. -/
theorem records_begun {db begun : Database} {collection : String} {batch : Nat}
    (hbegin : db.beginBatch collection = .ok (batch, begun)) :
    RecordTable.records ({ database := begun, collection, batch } : BatchTable)
      = (db.records collection).find? := by
  obtain ⟨-, -, batches, -, rfl⟩ := beginBatch_ok hbegin
  funext id
  exact BatchTable.find?_eq _ id

/-- The table of a batch looks like the store in memory that begins the same batch. -/
theorem Reflects.ledger {db begun : Database} {collection : String} {m : MemoryStore}
    (h : db.Reflects collection m) {batch : Nat}
    (hbegin : db.beginBatch collection = .ok (batch, begun)) (sorted : Bool) :
    nextCount m.batch = batch ∧
      (SteadyTable.ledger (m.sorting sorted).begun).Reflects
        (SteadyTable.ledger ({ database := begun, collection, batch } : BatchTable)) := by
  obtain ⟨hbatch, hlimit, -⟩ := beginBatch_ok hbegin
  have hnext : nextCount m.batch = batch := by
    have hbound : batchLimit < 2 ^ 64 := by decide
    rw [nextCount_eq (by rw [h.batch]; omega), h.batch, hbatch]
  refine ⟨hnext, ?_, ?_⟩
  · intro id
    have hfind := congrFun (records_begun hbegin) id
    have hget : RecordTable.records (m.sorting sorted).begun id = m.get id := rfl
    simp only [SteadyTable.ledger, hget]
    rw [hfind]
    exact h.records id
  · have hversions : SteadyTable.versions (m.sorting sorted).begun
        = counterVersions m.config.collection (nextCount m.batch) 0 := rfl
    simp only [SteadyTable.ledger, hversions, hnext, h.own]
    rfl

/-- A batch on a collection answers like the store in memory and keeps reflecting it. -/
theorem Reflects.execute {db : Database} {s : DatabaseStore} {m : MemoryStore}
    (h : db.Reflects s.config.collection m) (hready : db.Ready) (hopen : s.closed = false)
    {request : WriteRequest fmt} (hrequest : CoherentRequest request)
    (hfailure : ∀ operation, (s.execute request db : WriteOutcome σ fmt × Database).1.failure
      ≠ some (.statement operation)) :
    let done : WriteOutcome σ fmt × Database := s.execute request db
    let answer : WriteOutcome τ fmt × MemoryStore :=
      (m.sorting s.config.sortWritesById).execute request
    done.1.seen = answer.1.seen ∧ done.2.Reflects s.config.collection answer.2 := by
  intro done answer
  let begun := (m.sorting s.config.sortWritesById).begun
  have hanswer : answer = executeRequest s.config request begun := by
    have hstay : ¬ (m.sorting s.config.sortWritesById).closed = true := by
      simp [MemoryStore.sorting, h.opened]
    simp only [answer, MemoryStore.execute, if_neg hstay]
    rfl
  cases hbegin : db.beginBatch s.config.collection with
  | error failure =>
    obtain ⟨operation, rfl⟩ := beginBatch_error hbegin
    refine absurd ?_ (hfailure operation)
    simp only [DatabaseStore.execute, hopen, hbegin]
    rfl
  | ok begin =>
    obtain ⟨batch, started⟩ := begin
    obtain ⟨hdone, haside⟩ := execute_of_begun (σ := σ) hopen hbegin request
    -- The batch begins with the same number on both sides, so it allocates the same tokens.
    obtain ⟨hnext, hledger⟩ := h.ledger hbegin s.config.sortWritesById
    have hhealthy := hready.healthy hbegin
    obtain ⟨-, -, batches, hbatches, rfl⟩ := beginBatch_ok hbegin
    obtain ⟨hseen, hreflects, hidentified⟩ :=
      hledger.executeRequest (σ := τ) (τ := σ) h.identified hhealthy s.config hrequest
    obtain ⟨hconfig, hbatch, hclosed⟩ : answer.2.config = begun.config ∧
        answer.2.batch = nextCount m.batch ∧ answer.2.closed = m.closed := by
      rw [hanswer]
      exact (MemoryStore.preserved_frame _ _ _).executeFrom 0 _ ⟨rfl, rfl, rfl⟩
    simp only [done, hdone]
    rw [hanswer] at hbatch hconfig hclosed ⊢
    refine ⟨hseen.symm, ?_, ?_, ?_, ?_, hidentified⟩
    · intro id
      have hrel := hreflects.records id
      have hfind := haside.own ▸ BatchTable.find?_eq _ id
      rw [← hfind]
      exact hrel
    · rw [hbatch, hnext, batchesOf, haside.batches]
      exact ((batchesOf_insert hbatches _ _ batch).trans (if_pos rfl)).symm
    · rw [hconfig]
      exact h.own
    · rw [hclosed]
      exact h.opened

/-! ## Reads -/

end Database

theorem StoreRows.supplies_paged {view : DatabaseView} {rows : List Parts} {p : PagedRows}
    (h : Supplies view rows p) : Supplies view rows (StoreRows.paged p) := by
  induction rows generalizing p with
  | nil => exact h
  | cons row rest ih => exact ⟨h.1, ih h.2⟩

namespace Database

variable {fmt : Format}

/-- A reader sees the same in the record of an id. -/
theorem Reflects.get {db : Database} {s : DatabaseStore} {m : MemoryStore}
    (h : db.Reflects s.config.collection m) (hready : db.Ready) (hopen : s.closed = false)
    (id : String) :
    (s.get db id).map (fun record => record.map StoredRecord.seen)
      = .ok ((m.get id).map StoredRecord.seen) := by
  obtain ⟨features, hfeatures⟩ := Option.isSome_iff_exists.mp hready.features
  have hload : s.get db id = .ok ((db.records s.config.collection).find? id) := by
    simp [DatabaseStore.get, hopen, load, Database.records, hfeatures]
  have hseen : (m.get id).map StoredRecord.seen
      = ((db.records s.config.collection).find? id).map StoredRecord.seen := by
    refine map_eq_of_rel (h.records id) fun record kept hreflects => ?_
    simp only [StoredRecord.seen, hreflects.deleted, hreflects.seen]
  rw [hload, hseen]
  rfl

/-- A reader sees the same in the row of an entry. In a database its id is the key. -/
theorem seen_rowOf {r s : StoredRecord} (h : r.Reflects s) {id : String}
    (hid : r.parts.id = some id) :
    (Codec.arrived r.row : Codec fmt).seen
      = (Codec.arrived (PagedRows.rowOf (id, s)) : Codec fmt).seen := by
  have hseen := h.seen
  simp only [Parts.seen, SeenParts.mk.injEq] at hseen
  obtain ⟨-, -, hversion, htype, hproperties, hjson, hparsed, hbinary⟩ := hseen
  rw [Codec.seen_of_decoded rfl, Codec.seen_of_decoded rfl]
  simp only [Codec.arrived, Codec.ofLoad, PagedRows.rowOf, StoredRecord.row, Parts.seen, hid,
    hversion, htype, hproperties, hjson, hparsed, hbinary]

/-- The live rows of a collection look like those in memory. -/
theorem Reflects.rows {db : Database} {collection : String} {m : MemoryStore}
    (h : db.Reflects collection m) :
    m.records.live.map (fun entry => (Codec.arrived entry.2.row : Codec fmt).seen)
      = (db.records collection).live.map
          (fun entry => (Codec.arrived (PagedRows.rowOf entry) : Codec fmt).seen) := by
  have hrecords : ∀ id, Option.Rel
      (fun record kept => record.Reflects kept ∧ record.parts.id = some id)
      (m.records.entries.find? id) ((db.records collection).entries.find? id) :=
    fun id => rel_imp (h.records id) fun record _ hrecord hreflects =>
      ⟨hreflects, h.identified id record hrecord⟩
  have hentries := Keyed.forall₂_of_find? m.records.ascending (db.records collection).ascending
    hrecords
  have hlive := List.rel_filter (p := fun entry : String × StoredRecord => !entry.2.deleted)
    (q := fun entry : String × StoredRecord => !entry.2.deleted)
    (fun entry other hrel => by simp [hrel.2.1.deleted]) hentries
  rw [← List.forall₂_eq_eq_eq, List.forall₂_map_left_iff, List.forall₂_map_right_iff]
  refine hlive.imp fun entry other hrel => ?_
  obtain ⟨hkey, hreflects, hid⟩ := hrel
  rw [← Prod.eta other, ← hkey]
  exact seen_rowOf hreflects hid

/-- Reading all rows to the end finds the same as in memory. -/
theorem Reflects.readAll {db : Database} {collection : String} {m : MemoryStore}
    (h : db.Reflects collection m) {view : DatabaseView} (hview : view.database = db)
    (hfeatures : db.features.isSome) (fmt : Format) (fetchSize : Nat) :
    let rows : PagedRows := .ofCollection collection fetchSize
    let cursor : StreamingCursor StoreRows fmt := .ofSource (.paged rows)
    let queue : RowQueue := ⟨m.records.live.map (fun entry => entry.2.row)⟩
    let memory : StreamingCursor RowQueue fmt := .ofSource queue
    (cursor.forEach view Codec.look).1 = (memory.forEach () Codec.look).1 := by
  intro rows cursor queue memory
  subst hview
  have hsupplies := StoreRows.supplies_paged
    (PagedRows.supplies_ofCollection hfeatures collection fetchSize)
  have hcursor : cursor.Awaits view _ := StreamingCursor.awaits_ofSource hsupplies
  have hmemory : memory.Awaits () _ := StreamingCursor.awaits_ofSource (RowQueue.supplies queue.rows)
  rw [hcursor.forEach Codec.look, hmemory.forEach Codec.look]
  simp only [queue, List.map_map]
  exact congrArg Except.ok h.rows.symm

end Database

/-! ## One call -/

namespace Session

/-- All stores of a session are in the shared database, which is in order. -/
structure Sharing (session : Session) : Prop where
  present : session.databases ≠ []
  connected : ∀ connection ∈ session.connections, connection.database = shared
  saves : (session.database shared).rejectedSaves = []
  purges : (session.database shared).rejectedPurges = []
  ready : ∀ name store, session.stores.find? name = some store → (session.database shared).Ready

theorem database_setDatabase {session : Session} (h : session.databases ≠ []) (db : Database) :
    (session.setDatabase shared db).database shared = db := by
  obtain ⟨first, others, hdatabases⟩ := List.exists_cons_of_ne_nil h
  simp [setDatabase, database, shared, hdatabases]

theorem database_closeStore (session : Session) (name : String) :
    (session.closeStore name).database = session.database := by
  unfold closeStore
  split <;> rfl

theorem ready_createTables {db : Database} (hsaves : db.rejectedSaves = [])
    (hpurges : db.rejectedPurges = []) : db.createTables.Ready :=
  ⟨rfl, rfl, hsaves, hpurges⟩

namespace Sharing

variable {session : Session}

theorem fresh : Sharing {} where
  present := by simp
  connected _ hmem := by cases hmem
  saves := rfl
  purges := rfl
  ready _ _ hstore := by cases hstore

theorem connection (h : session.Sharing) (number : Nat) :
    (session.connection number).database = shared := by
  unfold Session.connection
  rw [List.getD_eq_getElem?_getD]
  cases hfound : session.connections[number]? with
  | none => rfl
  | some connection => exact h.connected connection (List.mem_of_getElem? hfound)

theorem setDatabase (h : session.Sharing) {db : Database} (hready : db.Ready) :
    (session.setDatabase shared db).Sharing := by
  have hdatabase := database_setDatabase h.present db
  refine ⟨?_, h.connected, ?_, ?_, ?_⟩
  · simpa [Session.setDatabase] using h.present
  · rw [hdatabase]
    exact hready.saves
  · rw [hdatabase]
    exact hready.purges
  · intro name store hstore
    rw [hdatabase]
    exact hready

theorem learn (h : session.Sharing) (number : Nat) (update : Database → PageQuery → PageQuery) :
    (session.learn number update).Sharing :=
  { h with
    connected := by
      intro connection hmem
      rcases List.mem_or_eq_of_mem_set hmem with hmem | rfl
      · exact h.connected connection hmem
      · exact h.connection number }

theorem setStore (h : session.Sharing) (hready : (session.database shared).Ready) (name : String)
    (store : OpenStore) : (session.setStore name store).Sharing :=
  { h with ready := fun _ _ _ => hready }

theorem connect (h : session.Sharing) (name : String) (config : StoreConfig) :
    (session.connect name config shared).Sharing := by
  have hready := ready_createTables h.saves h.purges
  have htables := h.setDatabase hready
  have hconnected : Sharing
      { session.setDatabase shared (session.database shared).createTables with
        connections := session.connections ++ [{ database := shared }] } :=
    { htables with
      connected := by
        intro connection hmem
        rcases List.mem_append.mp hmem with hmem | hmem
        · exact h.connected connection hmem
        · rw [List.mem_singleton.mp hmem] }
  have htarget : ((session.setDatabase shared (session.database shared).createTables).database
      shared).Ready := by
    rw [database_setDatabase h.present]
    exact hready
  exact hconnected.setStore htarget name _

theorem closeStore (h : session.Sharing) (name : String) : (session.closeStore name).Sharing := by
  unfold Session.closeStore
  cases hstore : session.stores.find? name with
  | none => exact h
  | some store => exact h.setStore (h.ready name store hstore) name store.close

end Sharing

/-- The shared database after a store has done what it was asked. -/
def databaseAfter (db : Database) (s : DatabaseStore) : StoreAction → Database
  | .execute request => (s.execute request db : WriteOutcome StoreRows _ × Database).2
  | .get _ | .readAll _ => db

/-- A call on a store changes the shared database as the store does, and no other store. -/
theorem Sharing.act {session : Session} (h : session.Sharing) {name : String} {number : Nat}
    {s : DatabaseStore} (hstore : session.stores.find? name = some (.database number s))
    (action : StoreAction) :
    let after := (session.act name number s action).2
    after.Sharing ∧ after.database shared = databaseAfter (session.database shared) s action := by
  intro after
  have hready := h.ready name _ hstore
  cases action with
  | get id =>
    simp only [after, Session.act, Session.get]
    split
    · exact ⟨h, rfl⟩
    · exact ⟨h.learn _ _, rfl⟩
  | readAll fmt =>
    simp only [after, Session.act]
    split
    · exact ⟨h, rfl⟩
    · unfold Session.afterRead
      split
      · exact ⟨h.learn _ _, rfl⟩
      · exact ⟨h, rfl⟩
  | execute request =>
    have hafter := h.setDatabase (Database.execute_ready (σ := StoreRows) hready s request)
    simp only [after, Session.act, Session.execute, h.connection]
    split
    · exact ⟨hafter, database_setDatabase h.present _⟩
    · exact ⟨hafter.learn _ _, database_setDatabase h.present _⟩

/-- A call on one collection is not seen in another. -/
theorem reflects_databaseAfter {db : Database} {collection : String} {m : MemoryStore}
    (h : db.Reflects collection m) {s : DatabaseStore} (hother : s.config.collection ≠ collection)
    (action : StoreAction) : (databaseAfter db s action).Reflects collection m := by
  cases action with
  | get id => exact h
  | readAll fmt => exact h
  | execute request =>
    obtain ⟨hrecords, hbatches⟩ :=
      Database.execute_aside (σ := StoreRows) db s request (Ne.symm hother)
    refine ⟨?_, ?_, h.own, h.opened, h.identified⟩
    · intro id
      rw [databaseAfter, hrecords]
      exact h.records id
    · rw [databaseAfter, hbatches]
      exact h.batch

/-- A call on a collection is answered as in memory, and changes the collection as it
    changes the store in memory. -/
theorem act_reflects {session : Session} (h : session.Sharing) {name : String} {number : Nat}
    {s : DatabaseStore} (hstore : session.stores.find? name = some (.database number s))
    (hopen : s.closed = false) {m : MemoryStore}
    (hm : (session.database shared).Reflects s.config.collection m) {action : StoreAction}
    (hcoherent : action.Coherent)
    (hfailure : ∀ operation, (session.act name number s action).1.failure?
      ≠ some (.statement operation)) :
    let answer := (m.sorting s.config.sortWritesById).act action
    (session.act name number s action).1 = answer.1 ∧
      (databaseAfter (session.database shared) s action).Reflects s.config.collection answer.2 := by
  intro answer
  have hready := h.ready name _ hstore
  have hview : (session.view number).database = session.database shared :=
    congrArg session.database (h.connection number)
  have hsorting : (session.database shared).Reflects s.config.collection
      (m.sorting s.config.sortWritesById) :=
    ⟨hm.records, hm.batch, hm.own, hm.opened, hm.identified⟩
  cases action with
  | execute request =>
    have houtcome : (session.act name number s (.execute request)).1
        = .outcome (s.execute request (session.database shared) :
            WriteOutcome StoreRows _ × Database).1.seen := by
      simp only [act, Session.execute, h.connection]
    rw [houtcome] at hfailure ⊢
    obtain ⟨hseen, hreflects⟩ :=
      hm.execute (σ := StoreRows) (τ := StoreRows) hready hopen hcoherent hfailure
    exact ⟨congrArg StoreAnswer.outcome hseen, hreflects⟩
  | get id =>
    have hrecord : (session.act name number s (.get id)).1
        = .record ((s.get (session.database shared) id).map
            (fun record => record.map StoredRecord.seen)) := by
      simp only [act, Session.get, hview]
    rw [hrecord, hm.get hready hopen id]
    exact ⟨rfl, hsorting⟩
  | readAll fmt =>
    have hrows : Session.readAll (.database number s)
        = .ok (.paged (.ofCollection s.config.collection s.config.fetchSize)) := by
      simp [Session.readAll, DatabaseStore.readAll, hopen, Except.map]
    have hmemory : (m.sorting s.config.sortWritesById).readAll
        = .ok ⟨m.records.live.map (fun entry => entry.2.row)⟩ := by
      simp [MemoryStore.readAll, MemoryStore.sorting, hm.opened]
    have hread := hm.readAll hview hready.features fmt s.config.fetchSize
    simp only [answer, act, MemoryStore.act, hrows, hmemory]
    exact ⟨congrArg StoreAnswer.rows hread, hsorting⟩

/-! ## All calls -/

/-- From a store in memory that the collection reflects on, its calls are answered as in
    memory. -/
theorem play_reflects {session : Session} (h : session.Sharing) {collection : String}
    {m : MemoryStore} (hm : (session.database shared).Reflects collection m)
    {calls : List SharedCall} (hcoherent : ∀ call ∈ calls, call.Coherent)
    (hfailure : ∀ exchange ∈ session.play calls, ∀ operation,
      exchange.answer.failure? ≠ some (.statement operation)) :
    let exchanges := Exchange.ofCollection collection (session.play calls)
    exchanges.map Exchange.answer = m.answers (exchanges.map Exchange.call) := by
  induction calls generalizing session m with
  | nil => rfl
  | cons call rest ih =>
    have hrest : ∀ call ∈ rest, call.Coherent :=
      fun call hmem => hcoherent call (List.mem_cons_of_mem _ hmem)
    cases call with
    | openStore name config =>
      refine ih (h.connect name config) ?_ hrest hfailure
      have hconnected : (session.connect name config shared).database shared
          = (session.database shared).createTables := database_setDatabase h.present _
      rw [hconnected]
      exact hm.createTables
    | close name =>
      refine ih (h.closeStore name) ?_ hrest hfailure
      rw [database_closeStore]
      exact hm
    | act name action =>
      cases hstore : session.stores.find? name with
      | none =>
        simp only [play, hstore] at hfailure ⊢
        exact ih h hm hrest hfailure
      | some store =>
        cases store with
        | memory s =>
          simp only [play, hstore] at hfailure ⊢
          exact ih h hm hrest hfailure
        | database number s =>
          cases hclosed : s.closed with
          | true =>
            simp only [play, hstore, hclosed, if_true] at hfailure ⊢
            exact ih h hm hrest hfailure
          | false =>
            simp only [play, hstore, hclosed, Bool.false_eq_true, if_false] at hfailure ⊢
            obtain ⟨hafter, hdatabase⟩ := h.act hstore action
            have hlater := fun exchange hmem => hfailure exchange (List.mem_cons_of_mem _ hmem)
            -- A store on another collection changes nothing here, and its answer is left out.
            by_cases hown : s.config.collection = collection
            · subst hown
              obtain ⟨hanswer, hreflects⟩ := act_reflects h hstore hclosed hm
                (hcoherent (.act name action) List.mem_cons_self) (hfailure _ List.mem_cons_self)
              rw [← hdatabase] at hreflects
              have hothers := ih hafter hreflects hrest hlater
              simp only [Exchange.ofCollection, List.filter_cons, decide_true, if_true,
                List.map_cons, Exchange.call, MemoryStore.answers]
              exact congrArg₂ List.cons hanswer hothers
            · have hreflects := reflects_databaseAfter hm hown action
              rw [← hdatabase] at hreflects
              have hothers := ih hafter hreflects hrest hlater
              simpa only [Exchange.ofCollection, List.filter_cons, hown, decide_false,
                Bool.false_eq_true, if_false] using hothers

/-- Any number of stores are opened on a fresh database, several of them on one collection,
    closed, and opened again. For each collection, one store in memory that is given the
    calls that were made on the collection, in their order and with the sort settings of
    the stores, gives the answers that were given. No answer tells of a failed statement,
    and the geometries in the requests are coherent: where both forms are held they agree,
    and no list of a geometry has more elements than the layout can count. -/
theorem shared_answers_like_memory (calls : List SharedCall) (collection : String)
    (hcoherent : ∀ call ∈ calls, call.Coherent)
    (hfailure : ∀ exchange ∈ ({} : Session).play calls, ∀ operation,
      exchange.answer.failure? ≠ some (.statement operation)) :
    let exchanges := Exchange.ofCollection collection (({} : Session).play calls)
    exchanges.map Exchange.answer
      = (MemoryStore.ofConfig (.ofCollection collection)).answers (exchanges.map Exchange.call) := by
  have hempty : Database.Reflects {} collection (.ofConfig (.ofCollection collection)) :=
    ⟨fun _ => .none, rfl, rfl, rfl, fun _ _ h => by cases h⟩
  exact play_reflects .fresh hempty hcoherent hfailure

/-- Two stores work on the roads and one on the towns. One of those on the roads is closed
    and opened again, and then sees what the other has written in between. -/
theorem shared_answers_like_memory_of_two_collections :
    let put (id : String) : WriteIntent .geo := .ofCodec .put
      (.ofParts { id := some id, json := some "", geometry := .parsed (.point ⟨⟨0⟩, ⟨0⟩⟩) })
    let roads : StoreConfig := { collection := "roads", fetchSize := 1, sortWritesById := false }
    let towns : StoreConfig := { collection := "towns", sortWritesById := false }
    let calls : List SharedCall :=
      [.openStore "a" roads, .openStore "b" roads, .openStore "c" towns,
        .act "a" (.execute [put "y", put "x"]), .act "c" (.execute [put "x"]), .close "a",
        .act "b" (.execute [put "x"]), .openStore "a" roads, .act "a" (.get "x"),
        .act "b" (.readAll .json)]
    let exchanges := Exchange.ofCollection "roads" (({} : Session).play calls)
    exchanges.length = 4 ∧
      exchanges.map Exchange.answer
        = (MemoryStore.ofConfig (.ofCollection "roads")).answers (exchanges.map Exchange.call) := by
  intro put roads towns calls exchanges
  have hput (ids : List String) : CoherentRequest (ids.map put) := by
    refine .of_built (List.forall_mem_map.mpr fun _ _ => ?_) (List.forall_mem_map.mpr fun _ _ => ?_)
    · exact .ofParts (.ofParsed (some _))
    · rintro g ⟨⟩
      trivial
  have hcoherent : ∀ call ∈ calls, call.Coherent := by
    simpa [calls, SharedCall.Coherent, StoreAction.Coherent] using ⟨hput ["y", "x"], hput ["x"]⟩
  have hsound : (({} : Session).play calls).all (fun exchange => exchange.answer.failure?.isNone) = true := by
    decide +kernel
  have hlength : exchanges.length = 4 := by decide +kernel
  refine ⟨hlength, shared_answers_like_memory calls "roads" hcoherent ?_⟩
  intro exchange hmem operation
  have hnone := List.all_eq_true.mp hsound exchange hmem
  rw [Option.isNone_iff_eq_none.mp hnone]
  simp

end Session

end FeatureStore
