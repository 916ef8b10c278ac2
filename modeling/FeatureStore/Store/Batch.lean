-- SUMMARY: Executing a batch of intents on a table.
import FeatureStore.Store.Record
import FeatureStore.Write.Request
import FeatureStore.Write.Result

/-!
# Batches

The intents of a batch are executed one after the other. Each is resolved against
the stored state of its feature, and the decision is carried out on the table. A
rejected intent has an error as its result and the batch goes on; a failure of the
table stops the batch, and the results up to there are reported.

The functions here return what was done in order, so that what a table has gone
through can be read off the results: a result is reported exactly when the step that
it describes has been done.
-/

namespace FeatureStore

/-- The results of a batch in the order of execution, and the failure that stopped it. -/
structure BatchReport where
  results : List ExecutedResult := []
  failure : Option StoreError := none

namespace Batch

variable {τ : Type} [FeatureTable τ] {fmt : Format}

/-- What carrying a decision out has come to: its results, and the record that it
    wrote or the failure that stopped it. -/
structure Step (τ : Type) where
  results : List ExecutedResult
  written : Except StoreError (Option StoredRecord)
  table : τ

/-- A step that changes nothing and has one result. -/
def report (result : ExecutedResult) (table : τ) : Step τ :=
  { results := [result], written := .ok none, table }

/-- A step that the table did not let happen. -/
def stop (failure : StoreError) (table : τ) : Step τ :=
  { results := [], written := .error failure, table }

/-- Write a record under a new version. -/
def write (op : ExecutedOp) (record : StoredRecord) (table : τ) : Step τ :=
  match FeatureTable.nextVersion table with
  | (.error failure, table) => stop failure table
  | (.ok version, table) =>
    let record := { record with
      parts := { record.parts with op := none, version := some version } }
    match FeatureTable.save record table with
    | (.error failure, table) => stop failure table
    | (.ok (), table) =>
      { results := [.executed op record.parts], written := .ok (some record), table }

/-- The parts of the feature of an intent as they are stored: the geometry in binary
    form, and the id that the intent was executed for. -/
def incomingParts (intent : WriteIntent fmt) (id : String) : Except ErrorCause Parts :=
  intent.parts.1.map (fun parts =>
    { parts with id := some id, geometry := parts.geometry.withBinary })

def store (op : ExecutedOp) (intent : WriteIntent fmt) (id : String) (table : τ) : Step τ :=
  match incomingParts intent id with
  | .error cause => report (.rejected cause (some id) none) table
  | .ok parts => write op { parts, deleted := false } table

/-- Carry a decision out. The feature that is deleted, restored or purged is the stored
    one. -/
def carryOut (decision : Decision) (intent : WriteIntent fmt) (id : String)
    (stored : Option StoredRecord) (table : τ) : Step τ :=
  let current := stored.map StoredRecord.parts
  let reported (withCurrent : Bool) := if withCurrent then current else none
  let affected := current.getD (.ofId id)
  match decision with
  | .retain withCurrent => report (.retained (some id) (reported withCurrent)) table
  | .fail cause withCurrent => report (.rejected cause (some id) (reported withCurrent)) table
  | .create => store .created intent id table
  | .update => store .updated intent id table
  | .delete => write .deleted { parts := affected, deleted := true } table
  | .restore => write .restored { parts := affected, deleted := false } table
  | .purge =>
    match FeatureTable.purge id table with
    | (.error failure, table) => stop failure table
    | (.ok (), table) => report (.executed .purged affected) table

/-- The second step of a purge, on the deleted state that the first step has left. A
    purge that was guarded by a version is guarded by that of this state. -/
def purgeDeleted (view : IntentView) (intent : WriteIntent fmt) (id : String)
    (deleted : StoredRecord) (table : τ) : Step τ :=
  let version := view.version.bind (fun _ => deleted.parts.version)
  carryOut (Resolution.resolvePurge version deleted.state) intent id (some deleted) table

def executeFor (view : IntentView) (intent : WriteIntent fmt) (id : String) (table : τ) :
    Step τ :=
  match FeatureTable.load id table with
  | (.error failure, table) => stop failure table
  | (.ok stored, table) =>
    let decision := Resolution.resolve view (.ofRecord? stored)
    let step := carryOut decision intent id stored table
    match step.written with
    | .ok (some deleted) =>
      if view.op = .purge ∧ decision = .delete then
        let second := purgeDeleted view intent id deleted step.table
        { second with results := step.results ++ second.results }
      else step
    | _ => step

/-- Execute an intent. One without an id is not valid. -/
def execute (intent : WriteIntent fmt) (table : τ) : Step τ :=
  let (view, intent) := intent.view
  match intent.codec.parts.id with
  | none => report (.rejected .invalid none none) table
  | some id =>
    if id.isEmpty then report (.rejected .invalid none none) table
    else executeFor view intent id table

/-- Execute intents from a place of execution on. Bodies are left out of the results of
    an intent that asks for that, once it has been executed. -/
def executeFrom (place : Nat) (table : τ) : List (WriteIntent fmt) → BatchReport × τ
  | [] => ({}, table)
  | intent :: rest =>
    let step := execute intent table
    let results := step.results.map (fun result => result.forIntent place)
    match step.written with
    | .error failure => ({ results, failure := some failure }, step.table)
    | .ok _ =>
      let results := if intent.noResult then results.map ExecutedResult.withoutBody else results
      let (report, table) := executeFrom (place + 1) step.table rest
      ({ report with results := results ++ report.results }, table)

end Batch

def applyBatch {τ : Type} [FeatureTable τ] {fmt : Format} (table : τ)
    (intents : List (WriteIntent fmt)) : BatchReport × τ :=
  Batch.executeFrom 0 table intents

end FeatureStore
