-- SUMMARY: What a batch attempts, intent by intent, and how many results each attempt has.
import FeatureStore.Proofs.Plan

/-!
# Attempts

A batch attempts its intents one after the other, up to the first that the table does
not let happen. Its report is put together from these attempts: the results are theirs
in the order of execution, and the failure is that of the last one.

Nothing here asks for a law of tables. An attempt that was not stopped has one result,
or the two of a purge; one that was stopped has none, or the deletion of a purge whose
second step was stopped.
-/

namespace FeatureStore

variable {τ : Type} [FeatureTable τ] {fmt : Format}

namespace Batch

/-- An intent of a batch with the table that it meets. -/
structure Attempt (fmt : Format) (τ : Type) where
  /-- The place of submission. -/
  submitted : Nat
  /-- The place of execution. -/
  place : Nat
  intent : WriteIntent fmt
  before : τ

namespace Attempt

def step (attempt : Attempt fmt τ) : Step τ := execute attempt.intent attempt.before

/-- The failure of the table that stopped the attempt. -/
def failure (attempt : Attempt fmt τ) : Option StoreError :=
  match attempt.step.written with
  | .error failure => some failure
  | .ok _ => none

def results (attempt : Attempt fmt τ) : List ExecutedResult :=
  let results := attempt.step.results.map (fun result => result.forIntent attempt.place)
  if attempt.failure.isNone && attempt.intent.noResult then
    results.map ExecutedResult.withoutBody
  else results

end Attempt

/-- The attempts at intents, given with their places of submission, from a place of
    execution on. -/
def attempts (place : Nat) (table : τ) : List (Nat × WriteIntent fmt) → List (Attempt fmt τ)
  | [] => []
  | (submitted, intent) :: rest =>
    let attempt : Attempt fmt τ := { submitted, place, intent, before := table }
    attempt ::
      if attempt.failure.isNone then attempts (place + 1) attempt.step.table rest else []

section Cons

variable {place : Nat} {table : τ} {entry : Nat × WriteIntent fmt}
  {rest : List (Nat × WriteIntent fmt)}

theorem attempts_cons_of_ok {written : Option StoredRecord}
    (h : (execute entry.2 table).written = .ok written) :
    attempts place table (entry :: rest)
      = { submitted := entry.1, place, intent := entry.2, before := table }
        :: attempts (place + 1) (execute entry.2 table).table rest := by
  simp [attempts, Attempt.failure, Attempt.step, h]

theorem attempts_cons_of_error {failure : StoreError}
    (h : (execute entry.2 table).written = .error failure) :
    attempts place table (entry :: rest)
      = [{ submitted := entry.1, place, intent := entry.2, before := table }] := by
  simp [attempts, Attempt.failure, Attempt.step, h]

end Cons

/-! ## The report of a batch -/

theorem executeFrom_attempts (place : Nat) (table : τ) (agenda : List (Nat × WriteIntent fmt)) :
    (executeFrom place table (agenda.map Prod.snd)).1
      = { results := (attempts place table agenda).flatMap Attempt.results
          failure := (attempts place table agenda).findSome? Attempt.failure } := by
  induction agenda generalizing place table with
  | nil => rfl
  | cons entry rest ih =>
    simp only [List.map_cons, executeFrom]
    cases hwritten : (execute entry.2 table).written with
    | error failure =>
      simp [attempts_cons_of_error hwritten, Attempt.results, Attempt.failure, Attempt.step, hwritten]
    | ok written =>
      simp [attempts_cons_of_ok hwritten, Attempt.results, Attempt.failure, Attempt.step, hwritten,
        ih]

/-- A batch leaves behind the table of its last attempt. -/
theorem executeFrom_table (place : Nat) (table : τ) (agenda : List (Nat × WriteIntent fmt)) :
    (executeFrom place table (agenda.map Prod.snd)).2
      = ((attempts place table agenda).getLast?.map (fun attempt => attempt.step.table)).getD
          table := by
  induction agenda generalizing place table with
  | nil => rfl
  | cons entry rest ih =>
    simp only [List.map_cons, executeFrom]
    cases hwritten : (execute entry.2 table).written with
    | error failure => simp [attempts_cons_of_error hwritten, Attempt.step]
    | ok written =>
      simp only [attempts_cons_of_ok hwritten, ih, List.getLast?_cons, Option.map_some,
        Option.getD_some]
      cases (attempts (place + 1) (execute entry.2 table).table rest).getLast? <;> rfl

/-- The attempts are made in the order of the agenda. -/
theorem attempts_getElem? {place k : Nat} {table : τ} {agenda : List (Nat × WriteIntent fmt)}
    {attempt : Attempt fmt τ} (h : (attempts place table agenda)[k]? = some attempt) :
    attempt.place = place + k ∧ agenda[k]? = some (attempt.submitted, attempt.intent) := by
  induction agenda generalizing place k table with
  | nil => simp [attempts] at h
  | cons entry rest ih =>
    rw [attempts] at h
    cases k with
    | zero =>
      cases h
      exact ⟨rfl, rfl⟩
    | succ k =>
      rw [List.getElem?_cons_succ] at h
      split at h
      · obtain ⟨hplace, hagenda⟩ := ih h
        exact ⟨by omega, hagenda⟩
      · simp at h

theorem attempts_agenda (place : Nat) (table : τ) (agenda : List (Nat × WriteIntent fmt)) :
    ((attempts place table agenda).map fun attempt => (attempt.submitted, attempt.intent))
      <+: agenda := by
  induction agenda generalizing place table with
  | nil => exact List.nil_prefix
  | cons entry rest ih =>
    simp only [attempts, List.map_cons]
    split
    · exact List.prefix_cons_inj _ |>.mpr (ih _ _)
    · exact ⟨rest, rfl⟩

/-- Without a failure every intent is attempted. -/
theorem attempts_complete {place : Nat} {table : τ} {agenda : List (Nat × WriteIntent fmt)}
    (h : (attempts place table agenda).findSome? Attempt.failure = none) :
    (attempts place table agenda).map (fun attempt => (attempt.submitted, attempt.intent))
      = agenda := by
  induction agenda generalizing place table with
  | nil => rfl
  | cons entry rest ih =>
    rw [attempts] at h ⊢
    rw [List.findSome?_cons] at h
    split at h
    · cases h
    · next hnone =>
      simp only [hnone, Option.isNone_none, if_true] at h
      simp [hnone, ih h]

/-- Only the last attempt can be stopped. -/
theorem attempts_stopped {place : Nat} {table : τ} {agenda : List (Nat × WriteIntent fmt)}
    {failure : StoreError}
    (h : (attempts place table agenda).findSome? Attempt.failure = some failure) :
    ∃ done last, attempts place table agenda = done ++ [last] ∧
      (∀ attempt ∈ done, attempt.failure = none) ∧ last.failure = some failure := by
  induction agenda generalizing place table with
  | nil => simp [attempts] at h
  | cons entry rest ih =>
    rw [attempts] at h ⊢
    rw [List.findSome?_cons] at h
    split at h
    · next hfailure =>
      cases h
      refine ⟨[], _, ?_, by simp, hfailure⟩
      simp [hfailure]
    · next hnone =>
      simp only [hnone, Option.isNone_none, if_true] at h
      obtain ⟨done, last, hattempts, hdone, hlast⟩ := ih h
      rw [hnone, Option.isNone_none, if_pos rfl, hattempts, ← List.cons_append]
      refine ⟨_, last, rfl, ?_, hlast⟩
      intro attempt hattempt
      rcases List.mem_cons.mp hattempt with rfl | hattempt
      · exact hnone
      · exact hdone attempt hattempt

/-! ## The results of one attempt -/

/-- One result, or the two of a purge of a live feature. -/
def Answered (op : WriteOp) (results : List ExecutedResult) : Prop :=
  (∃ result, results = [result]) ∨
    (op = .purge ∧ ∃ deleted purged, results = [deleted, purged] ∧
      deleted.op = .deleted ∧ purged.op = .purged)

/-- No result, or the deletion of a purge whose second step the table refused. -/
def Interrupted (op : WriteOp) (failure : StoreError) (after : τ)
    (results : List ExecutedResult) : Prop :=
  results = [] ∨
    (op = .purge ∧ (∃ deleted, results = [deleted] ∧ deleted.op = .deleted) ∧
      ∃ id before, FeatureTable.purge id before = (.error failure, after))

theorem Answered.map {op : WriteOp} {results : List ExecutedResult} (h : Answered op results)
    {f : ExecutedResult → ExecutedResult} (hf : ∀ result, (f result).op = result.op) :
    Answered op (results.map f) := by
  rcases h with ⟨result, rfl⟩ | ⟨hop, deleted, purged, rfl, hdeleted, hpurged⟩
  · exact .inl ⟨f result, rfl⟩
  · exact .inr ⟨hop, f deleted, f purged, rfl, (hf deleted).trans hdeleted,
      (hf purged).trans hpurged⟩

theorem Interrupted.map {op : WriteOp} {failure : StoreError} {after : τ}
    {results : List ExecutedResult} (h : Interrupted op failure after results)
    {f : ExecutedResult → ExecutedResult} (hf : ∀ result, (f result).op = result.op) :
    Interrupted op failure after (results.map f) := by
  rcases h with rfl | ⟨hop, ⟨deleted, rfl, hdeleted⟩, hpurge⟩
  · exact .inl rfl
  · exact .inr ⟨hop, ⟨f deleted, rfl, (hf deleted).trans hdeleted⟩, hpurge⟩

/-- A step has the results that it should have by how it ended. -/
def Step.Accounted (op : WriteOp) (step : Step τ) : Prop :=
  match step.written with
  | .ok _ => Answered op step.results
  | .error failure => Interrupted op failure step.table step.results

/-- A plan purges what it has written only if that is a deletion for a purge. -/
theorem Plan.make_thenPurge {intent : WriteIntent fmt} {id : String}
    {stored : Option StoredRecord} {op : ExecutedOp} {record : StoredRecord}
    (h : Plan.make intent id stored = .write op record true) : op = .deleted ∧ intent.op = .purge := by
  have hstore : ∀ op', Plan.store op' intent id ≠ .write op record true := by
    intro op' hstore
    unfold Plan.store at hstore
    split at hstore <;> simp at hstore
  unfold Plan.make Plan.ofDecision at h
  cases hdecision : Resolution.resolve intent.view.1 (.ofRecord? stored) with
  | retain withCurrent => simp [hdecision] at h
  | fail cause withCurrent => simp [hdecision] at h
  | create => exact absurd (by simpa [hdecision] using h) (hstore .created)
  | update => exact absurd (by simpa [hdecision] using h) (hstore .updated)
  | delete =>
    simp only [hdecision, Plan.write.injEq, decide_eq_true_eq] at h
    exact ⟨h.1.symm, h.2.2⟩
  | restore => simp [hdecision] at h
  | purge => simp [hdecision] at h

theorem accounted_perform (op : WriteOp) (id : String) (table : τ) {plan : Plan}
    (h : ∀ executed record, plan = .write executed record true → executed = .deleted ∧ op = .purge) :
    (plan.perform id table).Accounted op := by
  cases plan with
  | answer result => exact .inl ⟨result, rfl⟩
  | purge parts =>
    simp only [Plan.perform, Plan.purgeAfter]
    split
    · exact .inl rfl
    · exact .inl ⟨_, rfl⟩
  | write executed record thenPurge =>
    have hwrite : (Batch.write executed record table).Accounted op ∧
        ∀ written, (Batch.write executed record table).written = .ok (some written) →
          (Batch.write executed record table).results = [.executed executed written.parts] := by
      rw [write_eq]
      split
      · exact ⟨.inl rfl, by simp [stop]⟩
      · split
        · exact ⟨.inl rfl, by simp [stop]⟩
        · refine ⟨.inl ⟨_, rfl⟩, ?_⟩
          intro written hwritten
          cases hwritten
          rfl
    -- Only a purge continues after its write, and it may be stopped in between.
    simp only [Plan.perform]
    split
    · next written hwritten =>
      split
      · next hthen =>
        obtain ⟨rfl, rfl⟩ := h executed record (by rw [hthen])
        simp only [Plan.purgeAfter, hwrite.2 written hwritten]
        split
        · next hpurge => exact .inr ⟨rfl, ⟨_, rfl, rfl⟩, id, _, hpurge⟩
        · exact .inr ⟨rfl, _, _, rfl, rfl, rfl⟩
      · exact hwrite.1
    · exact hwrite.1

theorem accounted_execute (intent : WriteIntent fmt) (table : τ) :
    (execute intent table).Accounted intent.op := by
  rw [execute_eq]
  split
  · exact .inl ⟨_, rfl⟩
  · split
    · exact .inl rfl
    · exact accounted_perform intent.op _ _ (fun _ _ => Plan.make_thenPurge)

/-- Reporting changes neither the operation nor the id. -/
theorem Attempt.results_eq_map (attempt : Attempt fmt τ) :
    ∃ f : ExecutedResult → ExecutedResult, attempt.results = attempt.step.results.map f ∧
      ∀ result, (f result).op = result.op ∧ (f result).id = result.id ∧
        (f result).intent = attempt.place := by
  unfold Attempt.results
  split
  · exact ⟨fun result => (result.forIntent attempt.place).withoutBody, by simp,
      fun result => ⟨rfl, rfl, rfl⟩⟩
  · exact ⟨fun result => result.forIntent attempt.place, rfl, fun result => ⟨rfl, rfl, rfl⟩⟩

/-- Every attempt is answered or interrupted. -/
theorem Attempt.accounted (attempt : Attempt fmt τ) :
    (attempt.failure = none → Answered attempt.intent.op attempt.results) ∧
      ∀ failure, attempt.failure = some failure →
        Interrupted attempt.intent.op failure attempt.step.table attempt.results := by
  obtain ⟨f, hresults, hf⟩ := attempt.results_eq_map
  have haccounted : attempt.step.Accounted attempt.intent.op :=
    accounted_execute attempt.intent attempt.before
  unfold Step.Accounted at haccounted
  rw [hresults]
  unfold Attempt.failure
  cases hwritten : attempt.step.written with
  | ok written =>
    rw [hwritten] at haccounted
    exact ⟨fun _ => haccounted.map (fun result => (hf result).1), by simp⟩
  | error failure =>
    rw [hwritten] at haccounted
    refine ⟨by simp, ?_⟩
    intro failure' heq
    cases heq
    exact haccounted.map (fun result => (hf result).1)

end Batch

end FeatureStore
