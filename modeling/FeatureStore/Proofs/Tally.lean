-- SUMMARY: A table that keeps a tally of the versions it allocates, and the results that report them.
import FeatureStore.Proofs.Plan
import FeatureStore.Store.Execution

/-!
# Tallies

A tallied table is a table together with the versions that it has allocated so far. The
tally is only kept, and never read: whatever is executed on a tallied table is executed
in the same way on the table alone. It makes precise what a batch allocates.

A batch that is not stopped reports every version that it has allocated, in that order.
-/

namespace FeatureStore

/-- A table with the versions that it has allocated, the first one first. -/
structure Tallied (τ : Type) where
  table : τ
  allocated : List String := []

instance {τ : Type} [FeatureTable τ] : FeatureTable (Tallied τ) where
  load id t :=
    let (result, table) := FeatureTable.load id t.table
    (result, { t with table })
  save record t :=
    let (result, table) := FeatureTable.save record t.table
    (result, { t with table })
  purge id t :=
    let (result, table) := FeatureTable.purge id t.table
    (result, { t with table })
  nextVersion t :=
    match FeatureTable.nextVersion t.table with
    | (.error failure, table) => (.error failure, { t with table })
    | (.ok version, table) => (.ok version, { table, allocated := t.allocated ++ [version] })

/-! ## Tokens -/

/-- Whether the operation puts a state under a new version. -/
def ExecutedOp.writes : ExecutedOp → Bool
  | .created | .updated | .deleted | .restored => true
  | .read | .retained | .purged | .error => false

namespace ExecutedResult

/-- The version that was allocated for the state that the result shows. -/
def token (result : ExecutedResult) : Option String :=
  if result.op.writes then result.feature.bind Parts.version else none

@[simp] theorem token_forIntent (result : ExecutedResult) (place : Nat) :
    (result.forIntent place).token = result.token := rfl

@[simp] theorem token_withoutBody (result : ExecutedResult) :
    result.withoutBody.token = result.token := by
  unfold token withoutBody
  cases result.feature <;> rfl

/-- Where nothing was done there is no token. -/
theorem token_eq_none {result : ExecutedResult} (h : result.op = .retained ∨ result.op = .error) :
    result.token = none := by
  rcases h with h | h <;> simp [token, h, ExecutedOp.writes]

theorem token_executed (op : ExecutedOp) (parts : Parts) :
    (executed op parts).token = if op.writes then parts.version else none := rfl

end ExecutedResult

namespace Batch

variable {τ : Type} [FeatureTable τ] {fmt : Format}

/-! ## Steps -/

/-- The step on a tallied table is that on the table alone, and unless it was stopped its
    results report what it has allocated. -/
structure Tallies (t : Tallied τ) (step : Step (Tallied τ)) (plain : Step τ) : Prop where
  results : step.results = plain.results
  written : step.written = plain.written
  table : step.table.table = plain.table
  allocated : ∀ written, plain.written = .ok written →
    step.table.allocated = t.allocated ++ plain.results.filterMap ExecutedResult.token

omit [FeatureTable τ] in
theorem tallies_report (result : ExecutedResult) (t : Tallied τ) (h : result.token = none) :
    Tallies t (report result t) (report result t.table) := by
  refine ⟨rfl, rfl, rfl, ?_⟩
  intro written _
  simp [report, h]

theorem tallies_write {op : ExecutedOp} (hop : op.writes) (record : StoredRecord) (t : Tallied τ) :
    Tallies t (write op record t) (write op record t.table) := by
  simp only [write_eq, FeatureTable.nextVersion]
  obtain ⟨result, table₁⟩ := FeatureTable.nextVersion t.table
  cases result with
  | error failure => exact ⟨rfl, rfl, rfl, fun _ h => by cases h⟩
  | ok version =>
    simp only [FeatureTable.save]
    obtain ⟨saved, table₂⟩ := FeatureTable.save (stamp record version) table₁
    cases saved with
    | error failure => exact ⟨rfl, rfl, rfl, fun _ h => by cases h⟩
    | ok _ =>
      refine ⟨rfl, rfl, rfl, ?_⟩
      intro written _
      simp [ExecutedResult.token_executed, hop, stamp]

/-- The purge that ends a step allocates nothing. -/
theorem tallies_purgeAfter (results : List ExecutedResult) (id : String) (parts : Parts)
    {t t' : Tallied τ} (h : t'.allocated = t.allocated ++ results.filterMap ExecutedResult.token) :
    Tallies t (Plan.purgeAfter results id parts t') (Plan.purgeAfter results id parts t'.table) := by
  simp only [Plan.purgeAfter, FeatureTable.purge]
  obtain ⟨purged, table⟩ := FeatureTable.purge id t'.table
  cases purged with
  | error failure => exact ⟨rfl, rfl, rfl, fun _ h => by cases h⟩
  | ok _ =>
    refine ⟨rfl, rfl, rfl, ?_⟩
    intro written _
    rw [List.filterMap_append, ← List.append_assoc, ← h]
    simp [ExecutedResult.token_executed, ExecutedOp.writes]

/-- The plan names what it does: an answer that nothing is done, a write that it writes. -/
def Plan.Labelled : Plan → Prop
  | .answer result => result.op = .retained ∨ result.op = .error
  | .write op _ _ => op.writes
  | .purge _ => True

theorem Plan.labelled_store {op : ExecutedOp} (hop : op.writes) (intent : WriteIntent fmt)
    (id : String) : (Plan.store op intent id).Labelled := by
  unfold Plan.store
  split
  · exact .inr rfl
  · exact hop

theorem Plan.labelled_make (intent : WriteIntent fmt) (id : String) (stored : Option StoredRecord) :
    (Plan.make intent id stored).Labelled := by
  unfold Plan.make
  cases Resolution.resolve intent.view.1 (.ofRecord? stored) with
  | retain withCurrent => exact .inl rfl
  | fail cause withCurrent => exact .inr rfl
  | create => exact Plan.labelled_store rfl intent id
  | update => exact Plan.labelled_store rfl intent id
  | delete => exact rfl
  | restore => exact rfl
  | purge => trivial

theorem tallies_perform {plan : Plan} (hplan : plan.Labelled) (id : String) (t : Tallied τ) :
    Tallies t (plan.perform id t) (plan.perform id t.table) := by
  cases plan with
  | answer result => exact tallies_report result t (ExecutedResult.token_eq_none hplan)
  | purge parts => exact tallies_purgeAfter [] id parts (by simp)
  | write op record thenPurge =>
    have hwrite := tallies_write hplan record t
    simp only [Plan.perform, hwrite.written]
    cases hwritten : (write op record t.table).written with
    | error failure => exact hwrite
    | ok written =>
      cases written with
      | none => exact hwrite
      | some record' =>
        cases thenPurge with
        | false => exact hwrite
        | true =>
          simp only [if_true, hwrite.results, ← hwrite.table]
          exact tallies_purgeAfter _ id _ (hwrite.allocated _ hwritten)

theorem tallies_execute (intent : WriteIntent fmt) (t : Tallied τ) :
    Tallies t (execute intent t) (execute intent t.table) := by
  simp only [execute_eq, FeatureTable.load]
  cases intent.target with
  | none => exact tallies_report _ t (ExecutedResult.token_eq_none (.inr rfl))
  | some id =>
    simp only
    obtain ⟨loaded, table⟩ := FeatureTable.load id t.table
    cases loaded with
    | error failure => exact ⟨rfl, rfl, rfl, fun _ h => by cases h⟩
    | ok stored =>
      have hperform := tallies_perform (Plan.labelled_make intent id stored) id
        { t with table := table }
      exact ⟨hperform.results, hperform.written, hperform.table, hperform.allocated⟩

/-! ## Batches -/

/-- Neither the place of execution nor a missing body changes the tokens of results. -/
theorem filterMap_token_reported (place : Nat) (noResult : Bool) (results : List ExecutedResult) :
    (if noResult then
        (results.map (fun result => result.forIntent place)).map ExecutedResult.withoutBody
      else results.map (fun result => result.forIntent place)).filterMap ExecutedResult.token
      = results.filterMap ExecutedResult.token := by
  split <;> simp [List.filterMap_map, Function.comp_def]

/-- A batch on a tallied table is the batch on the table alone. -/
theorem executeFrom_tallied (place : Nat) (t : Tallied τ) (intents : List (WriteIntent fmt)) :
    (executeFrom place t intents).1 = (executeFrom place t.table intents).1 ∧
      (executeFrom place t intents).2.table = (executeFrom place t.table intents).2 := by
  induction intents generalizing place t with
  | nil => exact ⟨rfl, rfl⟩
  | cons intent rest ih =>
    have hstep := tallies_execute intent t
    simp only [executeFrom, hstep.results, hstep.written]
    cases (execute intent t.table).written with
    | error failure => exact ⟨rfl, hstep.table⟩
    | ok written =>
      obtain ⟨hreport, htable⟩ := ih (place + 1) (execute intent t).table
      rw [hstep.table] at hreport htable
      exact ⟨by simp only [hreport], htable⟩

/-- A batch that is not stopped reports what it has allocated. -/
theorem allocated_executeFrom {place : Nat} {t : Tallied τ} {intents : List (WriteIntent fmt)}
    (h : (executeFrom place t.table intents).1.failure = none) :
    (executeFrom place t intents).2.allocated
      = t.allocated
        ++ (executeFrom place t.table intents).1.results.filterMap ExecutedResult.token := by
  induction intents generalizing place t with
  | nil => simp [executeFrom]
  | cons intent rest ih =>
    have hstep := tallies_execute intent t
    simp only [executeFrom, hstep.written] at h ⊢
    cases hwritten : (execute intent t.table).written with
    | error failure => simp [hwritten] at h
    | ok written =>
      simp only [hwritten] at h
      rw [← hstep.table] at h ⊢
      simp only [ih h, hstep.allocated written hwritten, List.filterMap_append,
        filterMap_token_reported, List.append_assoc]

end Batch

/-- The versions that a table allocates while a request is executed on it. -/
def allocatedBy {τ : Type} [FeatureTable τ] {fmt : Format} (config : StoreConfig)
    (request : WriteRequest fmt) (table : τ) : List String :=
  (applyBatch ({ table } : Tallied τ) (config.arrange request).1).2.allocated

end FeatureStore
