-- SUMMARY: Executing an intent as a plan, made from one stored record, and its performance on a table.
import FeatureStore.Store.Batch

/-!
# Plans

An intent touches a table in two places: the record of its id is loaded, and what is
to be done for it is done. Between the two stands a plan, which depends on the intent
and on the loaded record alone. `execute_eq` splits the execution of an intent there.
Facts about batches are proved for plans and for their performance, and never for
the resolution and the table at once.
-/

namespace FeatureStore

variable {τ : Type} [FeatureTable τ] {fmt : Format}

/-! ## Reading an intent

Reading an intent derives its parts. That happens once, so an intent that has been
read is executed like one that has not. -/

namespace Codec

theorem sync_of_decoded {c : Codec fmt} (h : c.decoded = true) : c.sync = c := by
  simp [sync, h]

@[simp] theorem feature_sync (c : Codec fmt) : c.sync.feature = c.feature := by
  unfold sync decode
  split
  · split
    · rfl
    · split
      · rfl
      · split <;> simp_all
  · rfl

@[simp] theorem sync_sync (c : Codec fmt) : c.sync.sync = c.sync := by
  by_cases hsync : (!c.decoded && c.feature.isSome) = true
  · obtain ⟨hdecoded, hfeature⟩ : c.decoded = false ∧ c.feature.isSome = true := by
      simpa using hsync
    obtain ⟨f, hf⟩ := Option.isSome_iff_exists.mp hfeature
    have hc : c.sync = c.decode false := if_pos hsync
    cases hparts : fmt.disassemble f with
    | ok parts =>
      rw [hc]
      exact sync_of_decoded (by simp [decode, hdecoded, hf, hparts])
    | error e =>
      have hfail : c.decode false = { c with decoded := false, error := some e } := by
        simp [decode, hdecoded, hf, hparts]
      rw [hc, hfail]
      simp [sync, decode, hf, hparts]
  · have hc : c.sync = c := if_neg hsync
    rw [hc, hc]

end Codec

namespace WriteIntent

@[simp] theorem sync_sync (intent : WriteIntent fmt) : intent.sync.sync = intent.sync := by
  simp [sync]

@[simp] theorem noResult_sync (intent : WriteIntent fmt) :
    intent.sync.noResult = intent.noResult := rfl

@[simp] theorem hasFeature_sync (intent : WriteIntent fmt) :
    intent.sync.hasFeature = intent.hasFeature := by
  cases hfeature : intent.codec.feature with
  | some f => simp [hasFeature, sync, hfeature]
  | none =>
    have hsync : intent.codec.sync = intent.codec := by simp [Codec.sync, hfeature]
    simp [hasFeature, sync, hsync]

@[simp] theorem view_sync (intent : WriteIntent fmt) : intent.sync.view = intent.view := by
  simp only [view, sync_sync, hasFeature_sync]
  rfl

@[simp] theorem parts_sync (intent : WriteIntent fmt) : intent.sync.parts = intent.parts := by
  simp only [parts, sync_sync]

/-- The id that the intent is executed for. An empty id is no id. -/
def target (intent : WriteIntent fmt) : Option String :=
  intent.sync.codec.parts.id.filter (fun id => !id.isEmpty)

@[simp] theorem target_sync (intent : WriteIntent fmt) : intent.sync.target = intent.target := by
  simp only [target, sync_sync]

end WriteIntent

/-! ## Plans -/

namespace Batch

/-- What to do for an intent once the record of its id is known. -/
inductive Plan
  /-- Change nothing. -/
  | answer (result : ExecutedResult)
  /-- Write a record under a new version, and purge it at once if `thenPurge`. -/
  | write (op : ExecutedOp) (record : StoredRecord) (thenPurge : Bool)
  /-- Purge the stored record, which has the given parts. -/
  | purge (parts : Parts)

namespace Plan

def store (op : ExecutedOp) (intent : WriteIntent fmt) (id : String) : Plan :=
  match incomingParts intent id with
  | .error cause => answer (.rejected cause (some id) none)
  | .ok parts => write op { parts, deleted := false } false

/-- The plan for a decision on a stored record. -/
def ofDecision (intent : WriteIntent fmt) (id : String) (stored : Option StoredRecord) :
    Decision → Plan :=
  let current := stored.map StoredRecord.parts
  let reported (withCurrent : Bool) := if withCurrent then current else none
  let affected := current.getD (.ofId id)
  fun
  | .retain withCurrent => answer (.retained (some id) (reported withCurrent))
  | .fail cause withCurrent => answer (.rejected cause (some id) (reported withCurrent))
  | .create => store .created intent id
  | .update => store .updated intent id
  | .delete => write .deleted { parts := affected, deleted := true } (intent.op = .purge)
  | .restore => write .restored { parts := affected, deleted := false } false
  | .purge => purge affected

def make (intent : WriteIntent fmt) (id : String) (stored : Option StoredRecord) : Plan :=
  ofDecision intent id stored (Resolution.resolve intent.view.1 (.ofRecord? stored))

/-- Purge a record after the results of a first step. -/
def purgeAfter (results : List ExecutedResult) (id : String) (parts : Parts) (table : τ) :
    Step τ :=
  match FeatureTable.purge id table with
  | (.error failure, table) => { results, written := .error failure, table }
  | (.ok (), table) =>
    { results := results ++ [.executed .purged parts], written := .ok none, table }

def perform (id : String) (table : τ) : Plan → Step τ
  | answer result => report result table
  | write op record thenPurge =>
    let step := Batch.write op record table
    match step.written with
    | .ok (some written) =>
      if thenPurge then purgeAfter step.results id written.parts step.table else step
    | _ => step
  | purge parts => purgeAfter [] id parts table

end Plan

/-! ## Executing an intent is making a plan and performing it -/

@[simp] theorem incomingParts_sync (intent : WriteIntent fmt) (id : String) :
    incomingParts intent.sync id = incomingParts intent id := by
  simp [incomingParts]

/-- Performing a plan that ends with its write is the write. -/
theorem perform_write (op : ExecutedOp) (record : StoredRecord) (id : String) (table : τ) :
    (Plan.write op record false).perform id table = write op record table := by
  simp only [Plan.perform, Bool.false_eq_true, if_false]
  split <;> rfl

theorem store_eq (op : ExecutedOp) (intent : WriteIntent fmt) (id : String) (table : τ) :
    store op intent id table = (Plan.store op intent id).perform id table := by
  unfold store Plan.store
  cases incomingParts intent id with
  | error cause => rfl
  | ok parts => exact (perform_write op _ id table).symm

/-- A written record is stamped with its version and names no operation. -/
def stamp (record : StoredRecord) (version : String) : StoredRecord :=
  { record with parts := { record.parts with op := none, version := some version } }

theorem write_eq (op : ExecutedOp) (record : StoredRecord) (table : τ) :
    write op record table =
      match FeatureTable.nextVersion table with
      | (.error failure, table) => stop failure table
      | (.ok version, table) =>
        match FeatureTable.save (stamp record version) table with
        | (.error failure, table) => stop failure table
        | (.ok (), table) =>
          { results := [.executed op (stamp record version).parts]
            written := .ok (some (stamp record version)), table } := rfl

/-- What a write hands back is the record as it was stamped. -/
theorem exists_stamp_of_write {op : ExecutedOp} {record written : StoredRecord} {table : τ}
    (h : (write op record table).written = .ok (some written)) :
    ∃ version, written = stamp record version := by
  rw [write_eq] at h
  split at h
  · cases h
  · next version _ _ =>
    split at h
    · cases h
    · cases h
      exact ⟨version, rfl⟩

/-- The deleted state that a purge has written is always purged: the version of that
    state is the one that guards the second step. -/
theorem resolvePurge_stamp (view : IntentView) (version : String) (parts : Parts) :
    let deleted := stamp { parts, deleted := true } version
    Resolution.resolvePurge (view.version.bind (fun _ => deleted.parts.version)) deleted.state
      = .purge := by
  have hmatch : Resolution.mismatched (view.version.bind (fun _ => some version)) version
      = false := by
    cases view.version <;> simp [Resolution.mismatched]
  simp only [stamp, StoredRecord.state, if_true, Resolution.resolvePurge, Option.getD_some, hmatch,
    Bool.false_eq_true, if_false]

theorem purgeDeleted_stamp (view : IntentView) (intent : WriteIntent fmt) (id version : String)
    (parts : Parts) (table : τ) :
    let deleted := stamp { parts, deleted := true } version
    purgeDeleted view intent id deleted table = Plan.purgeAfter [] id deleted.parts table := by
  intro deleted
  have hpurge := resolvePurge_stamp view version parts
  simp only [purgeDeleted, deleted, hpurge]
  rfl

/-- The only plan that ends in a purge of what it has written is that of a purge. -/
theorem carryOut_eq (intent : WriteIntent fmt) (id : String) (stored : Option StoredRecord)
    (decision : Decision) (table : τ) (h : intent.op = .purge → decision ≠ .delete) :
    carryOut decision intent id stored table
      = (Plan.ofDecision intent id stored decision).perform id table := by
  cases decision with
  | retain withCurrent => rfl
  | fail cause withCurrent => rfl
  | create => exact store_eq .created intent id table
  | update => exact store_eq .updated intent id table
  | delete =>
    have hop : decide (intent.op = .purge) = false := by simpa using fun hop => h hop rfl
    simp only [Plan.ofDecision, hop]
    exact (perform_write .deleted _ id table).symm
  | restore => exact (perform_write .restored _ id table).symm
  | purge => rfl

/-- The two steps of a purge of a live feature. -/
theorem purgeLive_eq (view : IntentView) (intent : WriteIntent fmt) (id : String) (parts : Parts)
    (table : τ) :
    let step := write .deleted { parts, deleted := true } table
    (match step.written with
      | .ok (some deleted) =>
        let second := purgeDeleted view intent id deleted step.table
        { second with results := step.results ++ second.results }
      | _ => step)
      = (Plan.write .deleted { parts, deleted := true } true).perform id table := by
  simp only [Plan.perform, if_true]
  split
  · next deleted hwritten =>
    obtain ⟨version, rfl⟩ := exists_stamp_of_write hwritten
    rw [purgeDeleted_stamp]
    simp only [Plan.purgeAfter]
    split <;> simp
  · rfl

theorem executeFor_eq (intent : WriteIntent fmt) (id : String) (table : τ) :
    executeFor intent.view.1 intent id table =
      match FeatureTable.load id table with
      | (.error failure, table) => stop failure table
      | (.ok stored, table) => (Plan.make intent id stored).perform id table := by
  unfold executeFor
  obtain ⟨loaded, table'⟩ := FeatureTable.load id table
  cases loaded with
  | error failure => rfl
  | ok stored =>
    simp only
    by_cases hpurge : intent.op = .purge ∧
        Resolution.resolve intent.view.1 (.ofRecord? stored) = .delete
    · obtain ⟨hop, hdelete⟩ := hpurge
      have hview : intent.view.1.op = .purge := hop
      simp only [hdelete, hview, and_self, if_true, Plan.make, Plan.ofDecision, hop, decide_true,
        carryOut]
      exact purgeLive_eq intent.view.1 intent id _ table'
    · rw [Plan.make, ← carryOut_eq intent id stored _ table'
        (fun hop hdelete => hpurge ⟨hop, hdelete⟩)]
      split
      · exact if_neg hpurge
      · rfl

theorem Plan.store_sync (op : ExecutedOp) (intent : WriteIntent fmt) (id : String) :
    store op intent.sync id = store op intent id := by
  simp only [store, incomingParts_sync]

@[simp] theorem Plan.make_sync (intent : WriteIntent fmt) (id : String)
    (stored : Option StoredRecord) : Plan.make intent.sync id stored = Plan.make intent id stored := by
  simp only [make, WriteIntent.view_sync]
  cases Resolution.resolve intent.view.1 (.ofRecord? stored) with
  | create => exact store_sync .created intent id
  | update => exact store_sync .updated intent id
  | _ => rfl

/-- Execute an intent: load the record of its id, make a plan and carry it out. -/
theorem execute_eq (intent : WriteIntent fmt) (table : τ) :
    execute intent table =
      match intent.target with
      | none => report (.rejected .invalid none none) table
      | some id =>
        match FeatureTable.load id table with
        | (.error failure, table) => stop failure table
        | (.ok stored, table) => (Plan.make intent id stored).perform id table := by
  cases hid : intent.sync.codec.parts.id with
  | none => simp [execute, WriteIntent.view, WriteIntent.target, hid]
  | some id =>
    by_cases hempty : id.isEmpty = true
    · have htarget : intent.target = none := by
        simpa [WriteIntent.target, hid] using String.isEmpty_iff.mp hempty
      rw [htarget]
      simp [execute, WriteIntent.view, hid, hempty]
    · have hexecute : execute intent table
          = executeFor intent.sync.view.1 intent.sync id table := by
        rw [WriteIntent.view_sync]
        simp [execute, WriteIntent.view, hid, hempty]
      have htarget : intent.target = some id := by simp [WriteIntent.target, hid, hempty]
      rw [hexecute, htarget, executeFor_eq]
      simp only [Plan.make_sync]

@[simp] theorem execute_sync (intent : WriteIntent fmt) (table : τ) :
    execute intent.sync table = execute intent table := by
  simp only [execute_eq, WriteIntent.target_sync, Plan.make_sync]

/-! ## Invariants of tables

A batch uses nothing but the operations of its table. What each of them preserves is
preserved by the batch. -/

/-- Every operation of the table preserves a property. -/
structure Preserved (P : τ → Prop) : Prop where
  load : ∀ {t} id, P t → P (FeatureTable.load id t).2
  save : ∀ {t} record, P t → P (FeatureTable.save record t).2
  purge : ∀ {t} id, P t → P (FeatureTable.purge id t).2
  nextVersion : ∀ {t}, P t → P (FeatureTable.nextVersion t).2

namespace Preserved

variable {P : τ → Prop}

theorem write (h : Preserved P) (op : ExecutedOp) (record : StoredRecord) {t : τ} (ht : P t) :
    P (Batch.write op record t).table := by
  have hversion := h.nextVersion ht
  rw [write_eq]
  generalize FeatureTable.nextVersion t = result at hversion
  obtain ⟨version, t₁⟩ := result
  cases version with
  | error failure => exact hversion
  | ok version =>
    have hsave := h.save (stamp record version) hversion
    simp only
    generalize FeatureTable.save (stamp record version) t₁ = result at hsave
    obtain ⟨saved, t₂⟩ := result
    cases saved with
    | error failure => exact hsave
    | ok _ => exact hsave

theorem purgeAfter (h : Preserved P) (results : List ExecutedResult) (id : String) (parts : Parts)
    {t : τ} (ht : P t) : P (Plan.purgeAfter results id parts t).table := by
  have hpurge := h.purge id ht
  unfold Plan.purgeAfter
  generalize FeatureTable.purge id t = result at hpurge
  obtain ⟨purged, t₁⟩ := result
  cases purged with
  | error failure => exact hpurge
  | ok _ => exact hpurge

theorem perform (h : Preserved P) (id : String) (plan : Plan) {t : τ} (ht : P t) :
    P (plan.perform id t).table := by
  cases plan with
  | answer result => exact ht
  | purge parts => exact h.purgeAfter [] id parts ht
  | write op record thenPurge =>
    have hwrite := h.write op record ht
    simp only [Plan.perform]
    split
    · split
      · exact h.purgeAfter _ id _ hwrite
      · exact hwrite
    · exact hwrite

theorem execute (h : Preserved P) (intent : WriteIntent fmt) {t : τ} (ht : P t) :
    P (Batch.execute intent t).table := by
  rw [execute_eq]
  cases intent.target with
  | none => exact ht
  | some id =>
    have hload := h.load id ht
    simp only
    generalize FeatureTable.load id t = result at hload
    obtain ⟨loaded, t₁⟩ := result
    cases loaded with
    | error failure => exact hload
    | ok stored => exact h.perform id (Plan.make intent id stored) hload

theorem executeFrom (h : Preserved P) (place : Nat) (intents : List (WriteIntent fmt)) {t : τ}
    (ht : P t) : P (Batch.executeFrom place t intents).2 := by
  induction intents generalizing place t with
  | nil => exact ht
  | cons intent rest ih =>
    have hstep := h.execute intent ht
    simp only [Batch.executeFrom]
    split
    · exact hstep
    · exact ih (place + 1) hstep

end Preserved

end Batch

end FeatureStore
