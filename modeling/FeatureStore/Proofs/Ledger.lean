-- SUMMARY: A batch on a steady table as a run of a ledger, which is a map of records and a supply of versions.
import FeatureStore.Proofs.Laws
import FeatureStore.Proofs.Plan

/-!
# Ledgers

On a table that never fails a batch is a run of a ledger: a map of records and the
versions that are still to be allocated. A plan has an effect on the record of one id,
and takes at most one version. `executeFrom_ledger` says that a batch on a steady table
reports what the run of its ledger reports, and leaves the ledger of that run behind.
-/

namespace FeatureStore

open Batch

variable {τ : Type} [FeatureTable τ] {fmt : Format}

namespace Batch

/-- What a plan comes to when nothing fails. -/
structure Effect where
  results : List ExecutedResult
  /-- The record that is stored afterwards. -/
  record : Option StoredRecord
  /-- Whether a version has been allocated. -/
  wrote : Bool

namespace Plan

/-- The effect of a plan on a stored record, under the version that a write would get. -/
def effect (keep : Body → Body) (stored : Option StoredRecord) (version : String) :
    Plan → Effect
  | answer result => { results := [result], record := stored, wrote := false }
  | write op record thenPurge =>
    let written := stamp record version
    if thenPurge then
      { results := [.executed op written.parts, .executed .purged written.parts]
        record := none, wrote := true }
    else
      { results := [.executed op written.parts]
        record := some (written.keeping keep), wrote := true }
  | purge parts => { results := [.executed .purged parts], record := none, wrote := false }

/-- What the plan writes or purges is a record of the given id. -/
def KeyedBy (id : String) : Plan → Prop
  | answer _ => True
  | write _ record _ => record.parts.id = some id
  | purge parts => parts.id = some id

/-- What is stored for an id carries this id. -/
theorem id_incomingParts {intent : WriteIntent fmt} {id : String} {parts : Parts}
    (h : incomingParts intent id = .ok parts) : parts.id = some id := by
  unfold incomingParts at h
  cases hintent : intent.parts.1 with
  | error cause => simp [hintent, Except.map] at h
  | ok p =>
    simp only [hintent, Except.map, Except.ok.injEq] at h
    rw [← h]

theorem keyedBy_store (op : ExecutedOp) (intent : WriteIntent fmt) (id : String) :
    (store op intent id).KeyedBy id := by
  unfold store
  cases hparts : incomingParts intent id with
  | error cause => trivial
  | ok parts => exact id_incomingParts hparts

theorem keyedBy_make (intent : WriteIntent fmt) {id : String} {stored : Option StoredRecord}
    (h : ∀ record, stored = some record → record.parts.id = some id) :
    (make intent id stored).KeyedBy id := by
  have haffected : ((stored.map StoredRecord.parts).getD (.ofId id)).id = some id := by
    cases stored with
    | none => rfl
    | some record => exact h record rfl
  unfold make
  cases Resolution.resolve intent.view.1 (.ofRecord? stored) with
  | retain withCurrent => trivial
  | fail cause withCurrent => trivial
  | create => exact keyedBy_store .created intent id
  | update => exact keyedBy_store .updated intent id
  | delete => exact haffected
  | restore => exact haffected
  | purge => exact haffected

end Plan

end Batch

/-! ## Runs of a ledger -/

/-- The records of a table and the versions that it will allocate. -/
structure Ledger where
  records : String → Option StoredRecord
  versions : Stream' String

namespace Ledger

variable (keep : Body → Body)

/-- The effect of an intent that is executed for an id. -/
def effect (intent : WriteIntent fmt) (id : String) (ledger : Ledger) : Effect :=
  (Plan.make intent id (ledger.records id)).effect keep (ledger.records id) ledger.versions.head

def after (ledger : Ledger) (id : String) (effect : Effect) : Ledger :=
  { records := Function.update ledger.records id effect.record
    versions := if effect.wrote then ledger.versions.tail else ledger.versions }

/-- The results of executing an intent, and the ledger after it. -/
def execute (intent : WriteIntent fmt) (ledger : Ledger) : List ExecutedResult × Ledger :=
  match intent.target with
  | none => ([.rejected .invalid none none], ledger)
  | some id => ((ledger.effect keep intent id).results, ledger.after id (ledger.effect keep intent id))

/-- The results of executing intents from a place of execution on, as they are reported,
    and the ledger after them. -/
def executeFrom (place : Nat) (ledger : Ledger) :
    List (WriteIntent fmt) → List ExecutedResult × Ledger
  | [] => ([], ledger)
  | intent :: rest =>
    let (results, ledger) := ledger.execute keep intent
    let results := results.map (fun result => result.forIntent place)
    let results := if intent.noResult then results.map ExecutedResult.withoutBody else results
    let (others, ledger) := executeFrom (place + 1) ledger rest
    (results ++ others, ledger)

theorem identified_after {ledger : Ledger} {intent : WriteIntent fmt} {id : String}
    (h : Identified ledger.records) :
    Identified (ledger.after id (ledger.effect keep intent id)).records := by
  have hkeyed := Plan.keyedBy_make intent (fun record => h id record)
  intro other record hrecord
  simp only [after, Function.update_apply] at hrecord
  split at hrecord
  · next heq =>
    subst heq
    simp only [effect] at hrecord
    generalize Plan.make intent other (ledger.records other) = plan at hkeyed hrecord
    cases plan with
    | answer result => exact h other record hrecord
    | write op written thenPurge =>
      cases thenPurge with
      | true => cases hrecord
      | false =>
        cases hrecord
        exact hkeyed
    | purge parts => cases hrecord
  · exact h other record hrecord

theorem identified_execute (ledger : Ledger) (intent : WriteIntent fmt)
    (h : Identified ledger.records) :
    Identified (ledger.execute keep intent).2.records := by
  unfold execute
  split
  · exact h
  · exact identified_after keep h

theorem identified_executeFrom (place : Nat) (ledger : Ledger) (intents : List (WriteIntent fmt))
    (h : Identified ledger.records) :
    Identified (ledger.executeFrom keep place intents).2.records := by
  induction intents generalizing ledger place with
  | nil => exact h
  | cons intent rest ih => exact ih (place + 1) _ (identified_execute keep ledger intent h)

end Ledger

/-! ## The ledger of a steady table -/

namespace SteadyTable

variable [SteadyTable τ]

/-- What a steady table looks like from outside. -/
def ledger (t : τ) : Ledger := { records := RecordTable.records t, versions := versions t }

theorem purgeAfter_ledger {t : τ} (results : List ExecutedResult) (id : String) (parts : Parts)
    (h : sound t) :
    ∃ t', Plan.purgeAfter results id parts t
        = { results := results ++ [.executed .purged parts], written := .ok none, table := t' } ∧
      sound t' ∧ RecordTable.records t' = Function.update (RecordTable.records t) id none ∧
      versions t' = versions t := by
  obtain ⟨t', hpurge, hsound, hversions⟩ := purge_sound id h
  refine ⟨t', ?_, hsound, RecordTable.purge_ok hpurge, hversions⟩
  simp [Plan.purgeAfter, hpurge]

theorem write_ledger {t : τ} (op : ExecutedOp) (record : StoredRecord) (h : sound t) :
    let written := stamp record (versions t).head
    ∃ t', Batch.write op record t
        = { results := [.executed op written.parts], written := .ok (some written), table := t' } ∧
      sound t' ∧
      RecordTable.records t' = Function.update (RecordTable.records t) record.key
        (some (written.keeping (RecordTable.keep τ))) ∧
      versions t' = (versions t).tail := by
  obtain ⟨t₁, hversion, hsound₁, hversions₁⟩ := nextVersion_sound h
  obtain ⟨t₂, hsave, hsound₂, hversions₂⟩ := save_sound (stamp record (versions t).head) hsound₁
  refine ⟨t₂, ?_, hsound₂, ?_, hversions₂.trans hversions₁⟩
  · simp [write_eq, hversion, hsave]
  · rw [RecordTable.save_ok hsave, RecordTable.nextVersion_records hversion]
    rfl

/-- A plan for an id has its effect on the record of that id. -/
theorem perform_ledger {t : τ} {id : String} {plan : Plan} (h : sound t) (hplan : plan.KeyedBy id) :
    let effect := plan.effect (RecordTable.keep τ) (RecordTable.records t id) (versions t).head
    ∃ written t', plan.perform id t
        = { results := effect.results, written := .ok written, table := t' } ∧
      sound t' ∧ ledger t' = (ledger t).after id effect := by
  cases plan with
  | answer result =>
    refine ⟨none, t, rfl, h, ?_⟩
    simp [ledger, Ledger.after, Plan.effect]
  | purge parts =>
    obtain ⟨t', hpurge, hsound, hrecords, hversions⟩ := purgeAfter_ledger [] id parts h
    refine ⟨none, t', hpurge, hsound, ?_⟩
    simp [ledger, Ledger.after, Plan.effect, hrecords, hversions]
  | write op record thenPurge =>
    have hkey : record.key = id := by simp [StoredRecord.key, show record.parts.id = some id from hplan]
    obtain ⟨t₁, hwrite, hsound₁, hrecords₁, hversions₁⟩ := write_ledger op record h
    cases thenPurge with
    | false =>
      refine ⟨some (stamp record (versions t).head), t₁, ?_, hsound₁, ?_⟩
      · simp [Plan.perform, hwrite, Plan.effect]
      · simp [ledger, Ledger.after, Plan.effect, hrecords₁, hversions₁, hkey]
    | true =>
      obtain ⟨t₂, hpurge, hsound₂, hrecords₂, hversions₂⟩ :=
        purgeAfter_ledger [.executed op (stamp record (versions t).head).parts] id
          (stamp record (versions t).head).parts hsound₁
      refine ⟨none, t₂, by simp [Plan.perform, hwrite, hpurge, Plan.effect], hsound₂, ?_⟩
      simp [ledger, Ledger.after, Plan.effect, hrecords₂, hrecords₁, hversions₂, hversions₁, hkey]

theorem execute_ledger {t : τ} (intent : WriteIntent fmt) (h : sound t)
    (hrecords : Identified (RecordTable.records t)) :
    ∃ written t', Batch.execute intent t
        = { results := ((ledger t).execute (RecordTable.keep τ) intent).1
            written := .ok written, table := t' } ∧
      sound t' ∧ ledger t' = ((ledger t).execute (RecordTable.keep τ) intent).2 := by
  rw [execute_eq]
  unfold Ledger.execute
  cases intent.target with
  | none => exact ⟨none, t, rfl, h, rfl⟩
  | some id =>
    obtain ⟨t₁, hload, hsound₁, hversions₁⟩ := load_sound id h
    have hledger₁ : ledger t₁ = ledger t := by
      simp [ledger, (RecordTable.load_ok hload).2, hversions₁]
    have hkeyed := Plan.keyedBy_make intent (fun record => hrecords id record)
    obtain ⟨written, t₂, hperform, hsound₂, hledger₂⟩ := perform_ledger hsound₁ hkeyed
    rw [(RecordTable.load_ok hload).2, hversions₁] at hperform hledger₂
    refine ⟨written, t₂, ?_, hsound₂, ?_⟩
    · simp only [hload, hperform]
      rfl
    · rw [hledger₂, hledger₁]
      rfl

/-- A batch on a steady table is a run of its ledger. -/
theorem executeFrom_ledger {t : τ} (place : Nat) (intents : List (WriteIntent fmt)) (h : sound t)
    (hrecords : Identified (RecordTable.records t)) :
    let run := (ledger t).executeFrom (RecordTable.keep τ) place intents
    ∃ t', Batch.executeFrom place t intents = ({ results := run.1, failure := none }, t') ∧
      sound t' ∧ ledger t' = run.2 := by
  induction intents generalizing t place with
  | nil => exact ⟨t, rfl, h, rfl⟩
  | cons intent rest ih =>
    obtain ⟨written, t₁, hexecute, hsound₁, hledger₁⟩ := execute_ledger intent h hrecords
    have hrecords₁ : Identified (RecordTable.records t₁) := by
      have := Ledger.identified_execute (RecordTable.keep τ) (ledger t) intent hrecords
      rwa [← hledger₁] at this
    obtain ⟨t₂, hrest, hsound₂, hledger₂⟩ := ih (place + 1) hsound₁ hrecords₁
    refine ⟨t₂, ?_, hsound₂, ?_⟩
    · simp only [Batch.executeFrom, hexecute, hrest, Ledger.executeFrom, hledger₁]
    · rw [hledger₂, hledger₁]
      rfl

end SteadyTable

end FeatureStore
