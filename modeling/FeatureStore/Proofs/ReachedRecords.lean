-- SUMMARY: The records of a store after any calls, under tokens of which no two are the same.
import FeatureStore.Proofs.ReadBack
import FeatureStore.Proofs.StoredRecords

/-!
# Records that calls lead to

From the empty store on, calls lead to records that are all as they are stored, whatever
batches they execute. The tokens of the records are among those that the batches have
allocated. A store in memory numbers its batches, a database those of each collection, and
within a batch the writes are numbered; so no token is allocated twice, and every record has
a token of its own.

A batch in a database may be stopped by a failure at any point. The versions that it has
allocated until then are the first ones of its number all the same.
-/

namespace FeatureStore

variable {fmt : Format}

/-- Each record is as it is stored, and it has a token that was allocated and that no other
    record has. -/
def Settled (tokens : List String) (records : String → Option StoredRecord) : Prop :=
  ∀ id r, records id = some r → r.Kept id ∧
    ∃ token ∈ tokens, r.parts.version = some token ∧
      ∀ other s, records other = some s → s.parts.version = some token → other = id

theorem Keeping.settled {tokens : List String} {records : String → Option StoredRecord}
    (h : Keeping tokens records) (hnodup : tokens.Nodup) : Settled tokens records := by
  intro id r hr
  obtain ⟨token, hmem, hversion⟩ := h.token hr
  exact ⟨h.kept hr, token, hmem, hversion,
    fun _ _ hs hsame => h.apart hnodup hs hr (hsame.trans hversion.symm)⟩

/-! ## The store in memory -/

/-- The intents of the call have codecs that came about by their operations. -/
def StoreCall.Built : StoreCall → Prop
  | .close => True
  | .execute request => ∀ intent ∈ request, intent.codec.Built

namespace MemoryStore

theorem keeping_afterBatch {s : MemoryStore} {tokens : List String} (h : Keeping tokens s.get)
    {request : WriteRequest fmt} (hbuilt : ∀ intent ∈ request, intent.codec.Built)
    (hopen : ¬ s.closed) :
    Keeping (tokens ++ s.allocated request) (s.afterBatch request).get := by
  have hbegun : Keeping tokens (RecordTable.records s.begun) := h
  have hdone := Batch.keeping_request keepsBodies hbegun s.config hbuilt
  rw [Batch.applyBatch_arrange] at hdone
  rw [allocated, if_neg hopen, afterBatch_open request hopen]
  exact hdone

theorem keeping_run (calls : List StoreCall) {s : MemoryStore} {tokens : List String}
    (h : Keeping tokens s.get) (hbuilt : ∀ call ∈ calls, call.Built) :
    Keeping (tokens ++ (s.run calls).1.flatMap Chapter.allocated) (s.run calls).2.get := by
  induction calls generalizing s tokens with
  | nil =>
    simp only [run, List.flatMap_nil, List.append_nil]
    exact h
  | cons call rest ih =>
    have hrest : ∀ call ∈ rest, call.Built :=
      fun call hmem => hbuilt call (List.mem_cons_of_mem _ hmem)
    cases call with
    | close => exact ih (s := s.close) h hrest
    | execute request =>
      simp only [run]
      by_cases hclosed : s.closed = true
      · rw [afterBatch_closed request hclosed, if_pos hclosed]
        exact ih h hrest
      · have hbatch := keeping_afterBatch h (hbuilt _ List.mem_cons_self) hclosed
        rw [if_neg hclosed, List.flatMap_cons, ← List.append_assoc]
        exact ih hbatch hrest

end MemoryStore

/-! ## Stores in a database -/

section Counting

open Stream'

namespace BatchTable

/-- What a batch has allocated are the first versions of its number. -/
structure Counts (collection : String) (batch : Nat) (t : Tallied BatchTable) : Prop where
  own : t.table.collection = collection
  number : t.table.batch = batch
  allocated : t.allocated ++ₛ counterVersions collection batch t.table.writes
    = counterVersions collection batch 0

theorem Counts.afterStatement {collection : String} {batch : Nat} {t : Tallied BatchTable}
    (h : Counts collection batch t) (result : Except StoreError Database) :
    Counts collection batch { t with table := (t.table.afterStatement result).2 } := by
  cases result with
  | ok database => exact ⟨h.own, h.number, h.allocated⟩
  | error failure => exact ⟨h.own, h.number, h.allocated⟩

theorem preserved_counts (collection : String) (batch : Nat) :
    Batch.Preserved (Counts collection batch) where
  load _ h := ⟨h.own, h.number, h.allocated⟩
  save _ h := h.afterStatement _
  purge _ h := h.afterStatement _
  nextVersion {t} h := by
    refine ⟨h.own, h.number, ?_⟩
    have hnext : counterVersions collection batch t.table.writes
        = versionToken t.table.collection t.table.batch (nextCount t.table.writes)
          :: counterVersions collection batch (nextCount t.table.writes) := by
      rw [h.own, h.number, ← counterVersions_tail]
      exact (Stream'.eta _).symm
    rw [← h.allocated, hnext]
    exact append_append_stream _ _ _

end BatchTable

/-- A batch in a database counts its writes from one on. -/
theorem allocatedBy_counts (config : StoreConfig) (request : WriteRequest fmt) (database : Database)
    (collection : String) (batch : Nat)
    (hlength : (allocatedBy config request
      ({ database, collection, batch } : BatchTable)).length < 2 ^ 64) :
    let tokens := allocatedBy config request ({ database, collection, batch } : BatchTable)
    tokens = (List.range' 1 tokens.length).map (versionToken collection batch) := by
  intro tokens
  let t : Tallied BatchTable := { table := { database, collection, batch } }
  have hstart : BatchTable.Counts collection batch t := ⟨rfl, rfl, rfl⟩
  have hdone := (BatchTable.preserved_counts collection batch).executeFrom 0
    (config.arrange request).1 hstart
  exact eq_of_append_counterVersions hdone.allocated hlength

end Counting

/-- The intents of the call have codecs that came about by their operations. -/
def DatabaseCall.Built : DatabaseCall → Prop
  | .openStore => True
  | .execute _ request => ∀ intent ∈ request, intent.codec.Built

namespace Database

/-- The versions that a batch of a store allocates. -/
def batchTokens (db : Database) (s : DatabaseStore) (request : WriteRequest fmt) : List String :=
  if s.closed then []
  else
    match db.beginBatch s.config.collection with
    | .error _ => []
    | .ok (batch, database) =>
      let table : BatchTable := { database, collection := s.config.collection, batch }
      allocatedBy s.config request table

/-- The versions that each of the batches on a collection allocates. -/
def tokens (collection : String) (db : Database) : List DatabaseCall → List (List String)
  | [] => []
  | .openStore :: rest => db.createTables.tokens collection rest
  | .execute s request :: rest =>
    let others := (db.afterBatch s request).tokens collection rest
    if s.config.collection = collection then db.batchTokens s request :: others else others

/-- A batch begins in one of two ways. It is refused, and then nothing has happened; or it
    has been given the next number of its collection. -/
theorem afterBatch_cases (db : Database) (s : DatabaseStore) (request : WriteRequest fmt) :
    (db.afterBatch s request = db ∧ db.batchTokens s request = []) ∨
      ∃ begun, db.beginBatch s.config.collection
          = .ok (db.batchesOf s.config.collection + 1, begun) ∧
        let table : BatchTable := { database := begun, collection := s.config.collection,
                                    batch := db.batchesOf s.config.collection + 1 }
        let done := (applyBatch table (s.config.arrange request).1).2
        db.batchTokens s request = allocatedBy s.config request table ∧
          db.afterBatch s request = done.database ∧ done.Aside s.config.collection begun := by
  unfold afterBatch batchTokens
  cases hclosed : s.closed with
  | true => exact .inl ⟨by simp [DatabaseStore.execute, hclosed], rfl⟩
  | false =>
    cases hbegin : db.beginBatch s.config.collection with
    | error failure => exact .inl ⟨by simp [DatabaseStore.execute, hclosed, hbegin], rfl⟩
    | ok begin =>
      obtain ⟨batch, begun⟩ := begin
      obtain ⟨hdone, haside⟩ := execute_of_begun (σ := Unit) hclosed hbegin request
      obtain ⟨rfl, -⟩ := beginBatch_ok hbegin
      exact .inr ⟨begun, rfl, rfl, congrArg Prod.snd hdone, haside⟩

theorem keeping_afterBatch {db : Database} {s : DatabaseStore} {tokens : List String}
    (h : Keeping tokens (db.records s.config.collection).find?) {request : WriteRequest fmt}
    (hbuilt : ∀ intent ∈ request, intent.codec.Built) :
    Keeping (tokens ++ db.batchTokens s request)
      ((db.afterBatch s request).records s.config.collection).find? := by
  obtain ⟨hsame, hnone⟩ | ⟨begun, hbegin, htokens, hafter, haside⟩ := db.afterBatch_cases s request
  · rw [hsame, hnone, List.append_nil]
    exact h
  · rw [← records_begun hbegin] at h
    have hdone := Batch.keeping_request BatchTable.keepsBodies h s.config hbuilt
    have hrecords := funext (fun id => haside.own ▸ BatchTable.find?_eq _ id)
    rw [htokens, hafter, ← hrecords]
    exact hdone

theorem keeping_run (collection : String) (calls : List DatabaseCall) {db : Database}
    {tokens : List String} (h : Keeping tokens (db.records collection).find?)
    (hbuilt : ∀ call ∈ calls, call.Built) :
    Keeping (tokens ++ (db.tokens collection calls).flatten)
      ((db.run calls).records collection).find? := by
  induction calls generalizing db tokens with
  | nil =>
    simp only [Database.tokens, run, List.flatten_nil, List.append_nil]
    exact h
  | cons call rest ih =>
    have hrest : ∀ call ∈ rest, call.Built :=
      fun call hmem => hbuilt call (List.mem_cons_of_mem _ hmem)
    cases call with
    | openStore =>
      rw [← records_createTables] at h
      exact ih h hrest
    | execute s request =>
      simp only [Database.tokens, run]
      -- A batch on another collection allocates no token of this one.
      by_cases hown : s.config.collection = collection
      · subst hown
        have hbatch := keeping_afterBatch h (hbuilt _ List.mem_cons_self)
        rw [if_pos rfl, List.flatten_cons, ← List.append_assoc]
        exact ih hbatch hrest
      · have haside : (db.afterBatch s request).records collection = db.records collection :=
          (execute_aside db s request (Ne.symm hown)).1
        rw [if_neg hown]
        rw [← haside] at h
        exact ih h hrest

/-- The versions of a batch that begins have the next number of its collection. -/
theorem batchTokens_cases (db : Database) (s : DatabaseStore) (request : WriteRequest fmt)
    (hlength : (db.batchTokens s request).length < 2 ^ 64) :
    (db.afterBatch s request = db ∧ db.batchTokens s request = []) ∨
      ((db.afterBatch s request).batchesOf s.config.collection
          = db.batchesOf s.config.collection + 1 ∧
        db.batchTokens s request
          = (List.range' 1 (db.batchTokens s request).length).map
              (versionToken s.config.collection (db.batchesOf s.config.collection + 1))) := by
  obtain hidle | ⟨begun, hbegin, htokens, hafter, haside⟩ := db.afterBatch_cases s request
  · exact .inl hidle
  · obtain ⟨-, -, batches, hbatches, rfl⟩ := beginBatch_ok hbegin
    refine .inr ⟨?_, ?_⟩
    · rw [hafter, batchesOf, haside.batches]
      exact (batchesOf_insert hbatches _ _ _).trans (if_pos rfl)
    · rw [htokens] at hlength ⊢
      exact allocatedBy_counts _ _ _ _ _ hlength

/-- No token of a collection is allocated twice, and each has the number of a batch that began
    after the start. -/
theorem tokens_run (collection : String) (calls : List DatabaseCall) {db : Database}
    (hwrites : ∀ batch ∈ db.tokens collection calls, batch.length < 2 ^ 64) :
    (db.tokens collection calls).flatten.Nodup ∧
      ∀ token ∈ (db.tokens collection calls).flatten,
        ∃ batch write, db.batchesOf collection < batch ∧
          token = versionToken collection batch write := by
  induction calls generalizing db with
  | nil => exact ⟨List.nodup_nil, by simp [tokens]⟩
  | cons call rest ih =>
    cases call with
    | openStore => exact @ih db.createTables hwrites
    | execute s request =>
      simp only [tokens] at hwrites ⊢
      by_cases hown : s.config.collection = collection
      · subst hown
        rw [if_pos rfl] at hwrites ⊢
        obtain ⟨hnodup, hlater⟩ := ih (fun batch hmem => hwrites batch (List.mem_cons_of_mem _ hmem))
        -- A batch that has begun counts, and the tokens of later ones have later numbers.
        obtain ⟨hsame, hnone⟩ | ⟨hcount, hfirst⟩ :=
          db.batchTokens_cases s request (hwrites _ List.mem_cons_self)
        · rw [hnone, List.flatten_cons, List.nil_append]
          rw [hsame] at hnodup hlater ⊢
          exact ⟨hnodup, hlater⟩
        · rw [hcount] at hlater
          obtain ⟨hboth, hnumbers⟩ := nodup_append_later hfirst hnodup hlater
          exact ⟨hboth, hnumbers⟩
      · have haside : (db.afterBatch s request).batchesOf collection = db.batchesOf collection :=
          (execute_aside db s request (Ne.symm hown)).2
        rw [if_neg hown] at hwrites ⊢
        rw [← haside]
        exact ih hwrites

end Database

/-! ## Both stores -/

/-- Every record of a store is as it is stored, whatever has been asked of the store since it
    was empty. Its key is an id and its own one; its token was allocated by the store, which
    allocates none twice, and is that of no other record; it has a body and names no operation;
    and its geometry is in binary form if it has one, which is decoded to the parsed form if
    that is held as well. The intents may have codecs of any kind, as long as they came about
    by their operations. Of the store in memory it holds for fewer than 2^64 batches with fewer
    than 2^64 writes each; a database limits the batches itself. -/
theorem records_are_settled :
    (∀ (config : StoreConfig) (calls : List StoreCall), (∀ call ∈ calls, call.Built) →
      let done := (MemoryStore.ofConfig config).run calls
      done.1.length < 2 ^ 64 → (∀ chapter ∈ done.1, chapter.allocated.length < 2 ^ 64) →
      let tokens := done.1.flatMap Chapter.allocated
      tokens.Nodup ∧ Settled tokens done.2.get) ∧
    (∀ (collection : String) (calls : List DatabaseCall), (∀ call ∈ calls, call.Built) →
      let batches := Database.tokens collection {} calls
      (∀ batch ∈ batches, batch.length < 2 ^ 64) →
      let tokens := batches.flatten
      tokens.Nodup ∧
        Settled tokens ((Database.run {} calls).records collection).find?) := by
  constructor
  · intro config calls hbuilt done hbatches hwrites tokens
    have hempty : Keeping [] (MemoryStore.ofConfig config).get := .nil
    have hidentified : Identified (MemoryStore.ofConfig config).get := fun _ _ h => by cases h
    have hversioned : Versioned (MemoryStore.ofConfig config).get := fun _ _ h => by cases h
    have hzero : (MemoryStore.ofConfig config).batch = 0 := rfl
    obtain ⟨hnodup, -⟩ := MemoryStore.allocated_run calls hidentified hversioned
      (by rw [hzero, Nat.zero_add]; exact hbatches) hwrites
    exact ⟨hnodup, (MemoryStore.keeping_run calls hempty hbuilt).settled hnodup⟩
  · intro collection calls hbuilt batches hwrites tokens
    have hempty : Keeping [] (Database.records {} collection).find? := .nil
    obtain ⟨hnodup, -⟩ := Database.tokens_run collection calls hwrites
    exact ⟨hnodup, (Database.keeping_run collection calls hempty hbuilt).settled hnodup⟩

/-- A feature with a point is put under one id, and its codec, once edited, under another one;
    this one is deleted for a codec of the other format that has taken over the parts. Both
    stores keep two records. -/
theorem records_are_settled_of_edited_codec :
    let f : Format.Assembled .geo := { id := "a", geometry := some (.point ⟨.zero, .zero⟩) }
    let edited : Codec .geo := (Codec.ofFeature f).setId (some "b")
    let deleting : Codec .json := .withParts edited
    let config : StoreConfig := { collection := "c", sortWritesById := false }
    let writes : WriteRequest .geo := [.ofFeature .put f, .ofCodec .put edited]
    let calls : List StoreCall := [.execute writes, .execute [.ofCodec .delete deleting]]
    let others : List DatabaseCall :=
      [.openStore, .execute { config } writes, .execute { config } [.ofCodec .delete deleting]]
    let done := (MemoryStore.ofConfig config).run calls
    let tokens := done.1.flatMap Chapter.allocated
    let records := ((Database.run {} others).records "c").find?
    (tokens = ["c:1:1", "c:1:2", "c:2:1"] ∧ Settled tokens done.2.get ∧
      (done.2.get "a").isSome ∧ (done.2.get "b").isSome) ∧
    ∃ tokens, tokens = ["c:1:1", "c:1:2", "c:2:1"] ∧ Settled tokens records ∧
      (records "a").isSome ∧ (records "b").isSome := by
  intro f edited deleting config writes calls others done tokens records
  have hedited : edited.Built :=
    (Codec.Built.ofFeature f).perform (.setId (some "b")) (fun _ h => by cases h)
      (fun _ h => by cases h) (fun _ _ h => by cases h)
  have hdeleting : deleting.Built := hedited.withParts
  have hwrites : ∀ intent ∈ writes, intent.codec.Built :=
    List.forall_mem_cons.mpr ⟨.ofFeature f, List.forall_mem_singleton.mpr hedited⟩
  have hdelete : ∀ intent ∈ [WriteIntent.ofCodec .delete deleting], intent.codec.Built :=
    List.forall_mem_singleton.mpr hdeleting
  have hcalls : ∀ call ∈ calls, call.Built :=
    List.forall_mem_cons.mpr ⟨hwrites, List.forall_mem_singleton.mpr hdelete⟩
  have hothers : ∀ call ∈ others, call.Built :=
    List.forall_mem_cons.mpr ⟨trivial,
      List.forall_mem_cons.mpr ⟨hwrites, List.forall_mem_singleton.mpr hdelete⟩⟩
  have hbatches : done.1.length < 2 ^ 64 := by decide +kernel
  have hallocated : ∀ chapter ∈ done.1, chapter.allocated.length < 2 ^ 64 := by decide +kernel
  have hcounted : ∀ batch ∈ Database.tokens "c" {} others, batch.length < 2 ^ 64 := by
    decide +kernel
  have htokens : tokens = ["c:1:1", "c:1:2", "c:2:1"] := by decide +kernel
  have htokens' : (Database.tokens "c" {} others).flatten = ["c:1:1", "c:1:2", "c:2:1"] := by
    decide +kernel
  have hmemory := (records_are_settled.1 config calls hcalls hbatches hallocated).2
  have hdatabase := (records_are_settled.2 "c" others hothers hcounted).2
  exact ⟨⟨htokens, hmemory, by decide +kernel, by decide +kernel⟩, _, htokens', hdatabase,
    by decide +kernel, by decide +kernel⟩

end FeatureStore
