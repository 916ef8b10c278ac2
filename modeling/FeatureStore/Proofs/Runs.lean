-- SUMMARY: Runs of the store in memory: no token is given out twice, and no update is lost.
import FeatureStore.Proofs.History

/-!
# Runs of the store in memory

A run is a list of calls, executed one after the other from an empty store. Each batch of
a run is a chapter: its events in the order of execution, and the tokens it allocated.

Two invariants are carried from call to call. The records hold the tokens that replaying
the events gives, and every token allocated later has the number of a later batch.
-/

namespace FeatureStore

/-- What a client asks of a store. -/
inductive StoreCall
  | execute {fmt : Format} (request : WriteRequest fmt)
  | close

/-- What a batch has come to. -/
structure Chapter where
  events : List Event
  allocated : List String

namespace MemoryStore

variable {fmt : Format}

def chapter (s : MemoryStore) (request : WriteRequest fmt) : Chapter :=
  { events := (Batch.requestAttempts s.config request s.begun).map Batch.Attempt.event
    allocated := s.allocated request }

def afterBatch (s : MemoryStore) (request : WriteRequest fmt) : MemoryStore :=
  let done : WriteOutcome Unit fmt × MemoryStore := s.execute request
  done.2

/-- The chapters of a run and the store after it. A closed store executes nothing. -/
def run (s : MemoryStore) : List StoreCall → List Chapter × MemoryStore
  | [] => ([], s)
  | .close :: rest => s.close.run rest
  | .execute request :: rest =>
    let (chapters, final) := (s.afterBatch request).run rest
    (if s.closed then chapters else s.chapter request :: chapters, final)

/-! ## One batch -/

theorem afterBatch_closed {s : MemoryStore} (request : WriteRequest fmt) (h : s.closed) :
    s.afterBatch request = s := by
  simp [afterBatch, execute, h]

theorem afterBatch_open {s : MemoryStore} (request : WriteRequest fmt) (h : ¬ s.closed) :
    s.afterBatch request
      = (Batch.executeFrom 0 s.begun ((s.config.agenda request).map Prod.snd)).2 := by
  rw [← Batch.applyBatch_arrange]
  unfold afterBatch execute
  rw [if_neg h]
  rfl

/-- A batch keeps the settings and the number of the batch. -/
theorem preserved_frame (config : StoreConfig) (batch : Nat) (closed : Bool) :
    Batch.Preserved (fun s : MemoryStore =>
      s.config = config ∧ s.batch = batch ∧ s.closed = closed) where
  load _ h := h
  save _ h := h
  purge _ h := h
  nextVersion h := h

theorem frame_afterBatch {s : MemoryStore} (request : WriteRequest fmt) (h : ¬ s.closed) :
    (s.afterBatch request).config = s.config ∧
      (s.afterBatch request).batch = nextCount s.batch ∧
      (s.afterBatch request).closed = s.closed := by
  rw [afterBatch_open request h]
  exact (preserved_frame s.config (nextCount s.batch) s.closed).executeFrom 0 _ ⟨rfl, rfl, rfl⟩

/-- The events of a chapter respect the tokens of the records before it, replaying them
    gives the tokens of the records after it, and what they wrote has the tokens that the
    batch allocated. -/
theorem history_afterBatch {s : MemoryStore} (request : WriteRequest fmt) (h : ¬ s.closed)
    (hid : Identified s.get) (hversion : Versioned s.get) :
    let events := (s.chapter request).events
    Event.AllRespect (heldBy s.get) events ∧
      heldBy (s.afterBatch request).get
        = Change.replay (heldBy s.get) (events.flatMap Event.changes) ∧
      (events.flatMap Event.changes).filterMap Change.token = (s.chapter request).allocated ∧
      Identified (s.afterBatch request).get ∧ Versioned (s.afterBatch request).get := by
  intro events
  obtain ⟨hall, hheld, htokens, hid', hversion'⟩ :=
    Batch.history_attempts 0 s.begun (s.config.agenda request) trivial hid hversion
  have hbegun : SteadyTable.sound s.begun := trivial
  have hreport : s.allocated request
      = ((Batch.requestAttempts s.config request s.begun).flatMap
          Batch.Attempt.results).filterMap ExecutedResult.token := by
    rw [allocated, if_neg h, allocatedBy_attempts s.config request hbegun hid]
  rw [afterBatch_open request h]
  exact ⟨hall, hheld, htokens.trans hreport.symm, hid', hversion'⟩

/-! ## Histories of runs -/

theorem history_run (calls : List StoreCall) {s : MemoryStore} (hid : Identified s.get)
    (hversion : Versioned s.get) :
    let done := s.run calls
    let events := done.1.flatMap Chapter.events
    Event.AllRespect (heldBy s.get) events ∧
      heldBy done.2.get = Change.replay (heldBy s.get) (events.flatMap Event.changes) ∧
      (events.flatMap Event.changes).filterMap Change.token
        = done.1.flatMap Chapter.allocated ∧
      Identified done.2.get ∧ Versioned done.2.get := by
  induction calls generalizing s with
  | nil => exact ⟨trivial, rfl, rfl, hid, hversion⟩
  | cons call rest ih =>
    cases call with
    | close => exact ih (s := s.close) hid hversion
    | execute request =>
      simp only [run]
      by_cases hclosed : s.closed = true
      · rw [afterBatch_closed request hclosed]
        simpa only [hclosed, if_true] using ih hid hversion
      · obtain ⟨hall, hheld, htokens, hid₁, hversion₁⟩ :=
          history_afterBatch request hclosed hid hversion
        obtain ⟨hrest, hreplay, hothers, hid₂, hversion₂⟩ := ih hid₁ hversion₁
        rw [hheld] at hrest hreplay
        simp only [hclosed, Bool.false_eq_true, if_false, List.flatMap_cons, List.flatMap_append,
          List.filterMap_append, Event.allRespect_append, Change.replay_append]
        exact ⟨⟨hall, hrest⟩, hreplay, by rw [htokens, hothers], hid₂, hversion₂⟩

/-! ## Tokens of runs -/

/-- No token of a run is allocated twice, and each has the number of a batch that began
    after the start. -/
theorem allocated_run (calls : List StoreCall) {s : MemoryStore} (hid : Identified s.get)
    (hversion : Versioned s.get) (hbatches : s.batch + (s.run calls).1.length < 2 ^ 64)
    (hwrites : ∀ chapter ∈ (s.run calls).1, chapter.allocated.length < 2 ^ 64) :
    ((s.run calls).1.flatMap Chapter.allocated).Nodup ∧
      ∀ token ∈ (s.run calls).1.flatMap Chapter.allocated,
        ∃ batch write, s.batch < batch ∧ token = versionToken s.config.collection batch write := by
  induction calls generalizing s with
  | nil => exact ⟨List.nodup_nil, by simp [run]⟩
  | cons call rest ih =>
    cases call with
    | close => exact ih (s := s.close) hid hversion hbatches hwrites
    | execute request =>
      simp only [run] at hbatches hwrites ⊢
      by_cases hclosed : s.closed = true
      · rw [afterBatch_closed request hclosed] at hbatches hwrites ⊢
        simp only [hclosed, if_true] at hbatches hwrites ⊢
        exact ih hid hversion hbatches hwrites
      · obtain ⟨-, -, -, hid₁, hversion₁⟩ := history_afterBatch request hclosed hid hversion
        obtain ⟨hconfig, hbatch, -⟩ := frame_afterBatch request hclosed
        simp only [hclosed, Bool.false_eq_true, if_false, List.length_cons] at hbatches hwrites ⊢
        -- The count of batches has not come to its end, so the later tokens have later numbers.
        have hnext : nextCount s.batch = s.batch + 1 := nextCount_eq (by omega)
        obtain ⟨hnodup, hlater⟩ := ih hid₁ hversion₁ (by rw [hbatch, hnext]; omega)
          (fun chapter hchapter => hwrites chapter (List.mem_cons_of_mem _ hchapter))
        have hfirst := allocated_eq request hid (hwrites _ List.mem_cons_self)
        rw [hbatch, hconfig] at hlater
        obtain ⟨hboth, hnumbers⟩ := nodup_append_later hfirst hnodup hlater
        refine ⟨hboth, fun token htoken => ?_⟩
        obtain ⟨batch, write, hle, rfl⟩ := hnumbers token htoken
        exact ⟨batch, write, by omega, rfl⟩

/-! ## No update is lost -/

/-- An update is never lost. In a run of fewer than 2^64 batches, each with fewer than 2^64
    writes, no token is allocated twice, what was written has the tokens that were
    allocated, and a record holds the token of the last change of its id. If an intent that
    fails on conflicts has changed or removed the state of an id, then the token it carries
    was allocated by one earlier write, to that id, which nothing has changed since. -/
theorem no_lost_update (config : StoreConfig) (calls : List StoreCall)
    (hbatches : ((ofConfig config).run calls).1.length < 2 ^ 64)
    (hwrites : ∀ chapter ∈ ((ofConfig config).run calls).1, chapter.allocated.length < 2 ^ 64) :
    let done := (ofConfig config).run calls
    let events := done.1.flatMap Chapter.events
    let allocated := done.1.flatMap Chapter.allocated
    allocated.Nodup ∧
      (events.flatMap Event.changes).filterMap Change.token = allocated ∧
      (∀ id record, done.2.get id = some record →
        ∃ token, record.parts.version = some token ∧
          Change.LastWrote (events.flatMap Event.changes) id token) ∧
      ∀ before event after, events = before ++ event :: after →
        event.view.ifConflict = .fail → ∀ token, event.view.version = some token →
          ∀ result ∈ event.results, result.op.supersedes →
            ∃ id, result.id = some id ∧
              Change.OnlyWrite (before.flatMap Event.changes) id token := by
  intro done events allocated
  have hempty : ∀ id, (ofConfig config).get id = none := fun _ => rfl
  have hid : Identified (ofConfig config).get := fun id record h => by simp [hempty] at h
  have hversion : Versioned (ofConfig config).get := fun id record h => by simp [hempty] at h
  have hheld : heldBy (ofConfig config).get = fun _ => none := rfl
  obtain ⟨hall, hreplay, htokens, -, hversion'⟩ := history_run calls hid hversion
  have hzero : (ofConfig config).batch = 0 := rfl
  obtain ⟨hnodup, -⟩ := allocated_run calls hid hversion (by omega) hwrites
  rw [hheld] at hall hreplay
  refine ⟨hnodup, htokens, ?_, ?_⟩
  · intro id record hrecord
    obtain ⟨token, htoken⟩ := Option.isSome_iff_exists.mp (hversion' id record hrecord)
    have hrecordHeld : heldBy done.2.get id = some token := by simp [heldBy, hrecord, htoken]
    exact ⟨token, htoken,
      Change.lastWrote_of_replay ((congrFun hreplay id).symm.trans hrecordHeld)⟩
  · -- The token is that of the last change before the event, and no other change has it,
    -- since no token is allocated twice.
    intro before event after hevents hfail token htoken result hresult hop
    have hsplit : Event.AllRespect (fun _ => none) (before ++ event :: after) := hevents ▸ hall
    obtain ⟨id, hresultId, hid⟩ :=
      (Event.allRespect_append.mp hsplit).2.1 hfail token htoken result hresult hop
    refine ⟨id, hresultId, (Change.lastWrote_of_replay hid).onlyWrite ?_⟩
    have hsub : (before.flatMap Event.changes).Sublist (events.flatMap Event.changes) := by
      rw [hevents, List.flatMap_append]
      exact List.sublist_append_left _ _
    exact (htokens ▸ hnodup).sublist (hsub.filterMap Change.token)

/-- Two writers have seen the same state. The first to update it replaces it under its
    token, and the second is rejected. -/
theorem no_lost_update_of_two_writers :
    let update : WriteIntent .geo :=
      .ofCodec .update (.ofParts { id := some "a", version := some "c:1:1", json := some "" })
    let create : WriteIntent .geo := .ofCodec .create (.ofParts { id := some "a", json := some "" })
    let calls : List StoreCall := [.execute [create], .execute [update], .execute [update]]
    let done := (ofConfig { collection := "c", sortWritesById := false }).run calls
    let events := done.1.flatMap Chapter.events
    (done.1.length < 2 ^ 64 ∧ ∀ chapter ∈ done.1, chapter.allocated.length < 2 ^ 64) ∧
      events.map (fun event => event.results.map ExecutedResult.op)
        = [[.created], [.updated], [.error]] ∧
      (done.1.flatMap Chapter.allocated).Nodup ∧
      Change.OnlyWrite ((events.take 1).flatMap Event.changes) "a" "c:1:1" := by
  intro update create calls done events
  have hbatches : done.1.length < 2 ^ 64 := by decide
  have hwrites : ∀ chapter ∈ done.1, chapter.allocated.length < 2 ^ 64 := by decide
  have hops : events.map (fun event => event.results.map ExecutedResult.op)
      = [[.created], [.updated], [.error]] := by decide
  obtain ⟨hnodup, -, -, hguarded⟩ := no_lost_update _ calls hbatches hwrites
  refine ⟨⟨hbatches, hwrites⟩, hops, hnodup, ?_⟩
  obtain ⟨id, hid, honly⟩ := hguarded (events.take 1) _ (events.drop 2) rfl rfl "c:1:1" rfl _
    List.mem_cons_self rfl
  cases hid
  exact honly

end MemoryStore

end FeatureStore
