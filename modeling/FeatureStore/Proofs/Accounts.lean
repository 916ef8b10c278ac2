-- SUMMARY: Accounts of the records, kept by replaying the results of a batch, also of one that was stopped midway.
import FeatureStore.Proofs.Attempts
import FeatureStore.Proofs.Ledger
import FeatureStore.Proofs.Tally

/-!
# Accounts

An account is what is known of a record. Whoever has the accounts of a table and is
given the results of a batch can keep them up to date: a result that reports a state
replaces the account of its id, and one that reports a purge removes it. A body that was
left out of a result is missing from the account.

`Tells` says that accounts are those of a map of records. Every way in which the
execution of an intent can end keeps it, those ways included in which the table stops
the batch, between the two steps of a purge for example. So the replayed accounts are
right after any batch, wherever it has stopped.
-/

namespace FeatureStore

variable {fmt : Format}

/-- A load changes no record, whether it succeeds or not. -/
theorem RecordTable.records_load {τ : Type} [FeatureTable τ] [RecordTable τ] (id : String) (t : τ) :
    RecordTable.records (FeatureTable.load id t).2 = RecordTable.records t := by
  cases hload : FeatureTable.load id t with
  | mk loaded t' =>
    cases loaded with
    | ok stored => exact (RecordTable.load_ok hload).2
    | error failure => exact RecordTable.load_error hload

/-! ## Keeping accounts -/

/-- What is known of a record. -/
structure Account where
  deleted : Bool
  id : Option String
  version : Option String
  /-- Missing if it was left out of the result that told of the record. -/
  body : Option Body

namespace Account

def ofRecord (record : StoredRecord) : Account :=
  { deleted := record.deleted, id := record.parts.id, version := record.parts.version
    body := some record.parts.body }

/-- The record is as the account says. -/
structure Describes (account : Account) (record : StoredRecord) : Prop where
  deleted : record.deleted = account.deleted
  id : record.parts.id = account.id
  version : record.parts.version = account.version
  body : ∀ body, account.body = some body → record.parts.body = body

theorem describes_ofRecord (record : StoredRecord) : (ofRecord record).Describes record :=
  ⟨rfl, rfl, rfl, fun _ h => Option.some.inj h⟩

end Account

namespace ExecutedResult

/-- The account of the state that a result reports, of which the table keeps what it
    keeps of any body. -/
def account (keep : Body → Body) (bare : Bool) (result : ExecutedResult) : Account where
  deleted := decide (result.op = .deleted)
  id := result.id
  version := result.feature.bind Parts.version
  body := if bare then none else result.feature.map (fun parts => keep parts.body)

/-- The accounts after a result. Its body was left out if it is `bare`. -/
def tell (keep : Body → Body) (bare : Bool) (accounts : String → Option Account)
    (result : ExecutedResult) : String → Option Account :=
  match result.op, result.id with
  | .created, some id | .updated, some id | .restored, some id | .deleted, some id =>
    Function.update accounts id (some (result.account keep bare))
  | .purged, some id => Function.update accounts id none
  | _, _ => accounts

/-- The result as it is reported for the intent executed at a place. -/
def reported (place : Nat) (bare : Bool) (result : ExecutedResult) : ExecutedResult :=
  if bare then (result.forIntent place).withoutBody else result.forIntent place

@[simp] theorem op_reported (place : Nat) (bare : Bool) (result : ExecutedResult) :
    (result.reported place bare).op = result.op := by
  cases bare <;> rfl

@[simp] theorem id_reported (place : Nat) (bare : Bool) (result : ExecutedResult) :
    (result.reported place bare).id = result.id := by
  cases bare <;> rfl

@[simp] theorem intent_reported (place : Nat) (bare : Bool) (result : ExecutedResult) :
    (result.reported place bare).intent = place := by
  cases bare <;> rfl

theorem map_reported (place : Nat) (bare : Bool) (results : List ExecutedResult) :
    results.map (reported place bare)
      = if bare then (results.map (fun result => result.forIntent place)).map withoutBody
        else results.map (fun result => result.forIntent place) := by
  cases bare <;> simp [reported]

end ExecutedResult

/-- The accounts after results. `bare` tells by their places which intents had the bodies
    left out of their results. -/
def replay (keep : Body → Body) (bare : Nat → Bool) (accounts : String → Option Account)
    (results : List ExecutedResult) : String → Option Account :=
  results.foldl (fun accounts result => result.tell keep (bare result.intent) accounts) accounts

@[simp] theorem replay_append (keep : Body → Body) (bare : Nat → Bool)
    (accounts : String → Option Account) (xs ys : List ExecutedResult) :
    replay keep bare accounts (xs ++ ys) = replay keep bare (replay keep bare accounts xs) ys := by
  simp [replay]

/-! ## Accounts of records -/

theorem Identified.update {records : String → Option StoredRecord} (h : Identified records)
    {id : String} {record : Option StoredRecord}
    (hid : ∀ r, record = some r → r.parts.id = some id) :
    Identified (Function.update records id record) := by
  intro other r hr
  by_cases heq : other = id
  · subst heq
    rw [Function.update_self] at hr
    exact hid r hr
  · rw [Function.update_of_ne heq] at hr
    exact h other r hr

/-- The accounts are those of the records, which carry their keys as ids. -/
structure Tells (accounts : String → Option Account) (records : String → Option StoredRecord) :
    Prop where
  describes : ∀ id, Option.Rel Account.Describes (accounts id) (records id)
  identified : Identified records

namespace Tells

variable {accounts : String → Option Account} {records : String → Option StoredRecord}

theorem refl (h : Identified records) :
    Tells (fun id => (records id).map Account.ofRecord) records := by
  refine ⟨fun id => ?_, h⟩
  cases records id with
  | none => exact .none
  | some record => exact .some (Account.describes_ofRecord record)

theorem update (h : Tells accounts records) {id : String} {account : Option Account}
    {record : Option StoredRecord} (hdescribes : Option.Rel Account.Describes account record)
    (hid : ∀ r, record = some r → r.parts.id = some id) :
    Tells (Function.update accounts id account) (Function.update records id record) := by
  refine ⟨fun other => ?_, h.identified.update hid⟩
  by_cases heq : other = id
  · subst heq
    simpa only [Function.update_self] using hdescribes
  · simpa only [Function.update_of_ne heq] using h.describes other

variable {keep : Body → Body} {place : Nat} {bare : Nat → Bool}

/-- A result that reports what was stored gives the account of it. -/
theorem written (h : Tells accounts records) {op : ExecutedOp} {record : StoredRecord}
    {id : String} (hop : op.writes) (hdeleted : record.deleted = decide (op = .deleted))
    (hid : record.parts.id = some id) :
    Tells
      (replay keep bare accounts
        [(ExecutedResult.executed op record.parts).reported place (bare place)])
      (Function.update records id (some (record.keeping keep))) := by
  let result := (ExecutedResult.executed op record.parts).reported place (bare place)
  have hresultId : result.id = some id := by
    rw [ExecutedResult.id_reported]
    exact hid
  have hdescribes : (result.account keep (bare place)).Describes (record.keeping keep) := by
    cases hbare : bare place with
    | false =>
      simp only [result, hbare]
      exact ⟨hdeleted, rfl, rfl, fun _ h => Option.some.inj h⟩
    | true =>
      simp only [result, hbare]
      exact ⟨hdeleted, rfl, rfl, fun _ h => by cases h⟩
  -- An operation that writes is none of those that leave the accounts alone or end one.
  have htell : result.tell keep (bare place) accounts
      = Function.update accounts id (some (result.account keep (bare place))) := by
    have hresultOp : result.op = op := ExecutedResult.op_reported place (bare place) _
    unfold ExecutedResult.tell
    rw [hresultOp, hresultId]
    cases op <;> simp [ExecutedOp.writes] at hop ⊢
  have hreplay : replay keep bare accounts [result] = result.tell keep (bare place) accounts := by
    simp [replay, result]
  rw [hreplay, htell]
  refine h.update (.some hdescribes) ?_
  intro r hr
  cases hr
  exact hid

/-- A result that reports a purge ends the account. -/
theorem purged (h : Tells accounts records) {parts : Parts} {id : String}
    (hid : parts.id = some id) :
    Tells
      (replay keep bare accounts
        [(ExecutedResult.executed .purged parts).reported place (bare place)])
      (Function.update records id none) := by
  have hreplay : replay keep bare accounts
      [(ExecutedResult.executed .purged parts).reported place (bare place)]
      = Function.update accounts id none := by
    simp [replay, ExecutedResult.tell, ExecutedResult.executed, hid]
  rw [hreplay]
  exact h.update .none (fun r hr => by cases hr)

/-- Where nothing was done there is nothing to tell. -/
theorem idle (h : Tells accounts records) {result : ExecutedResult}
    (hop : result.op = .retained ∨ result.op = .error) :
    Tells (replay keep bare accounts [result.reported place (bare place)]) records := by
  have hreplay : replay keep bare accounts [result.reported place (bare place)] = accounts := by
    rcases hop with hop | hop <;> simp [replay, ExecutedResult.tell, hop]
  rw [hreplay]
  exact h

end Tells

/-! ## One intent -/

namespace Batch

/-- The plan says what it does: an answer that nothing is done, and a write whether the
    state it writes is the deleted one. -/
def Plan.Honest : Plan → Prop
  | .answer result => result.op = .retained ∨ result.op = .error
  | .write op record _ => op.writes ∧ record.deleted = decide (op = .deleted)
  | .purge _ => True

theorem Plan.honest_store {op : ExecutedOp} (hop : op.writes) (hlive : op ≠ .deleted)
    (intent : WriteIntent fmt) (id : String) : (Plan.store op intent id).Honest := by
  unfold Plan.store
  split
  · exact .inr rfl
  · exact ⟨hop, (decide_eq_false hlive).symm⟩

theorem Plan.honest_make (intent : WriteIntent fmt) (id : String) (stored : Option StoredRecord) :
    (Plan.make intent id stored).Honest := by
  unfold Plan.make
  cases Resolution.resolve intent.view.1 (.ofRecord? stored) with
  | retain withCurrent => exact .inl rfl
  | fail cause withCurrent => exact .inr rfl
  | create => exact Plan.honest_store rfl (by decide) intent id
  | update => exact Plan.honest_store rfl (by decide) intent id
  | delete => exact ⟨rfl, rfl⟩
  | restore => exact ⟨rfl, rfl⟩
  | purge => trivial

variable {τ : Type} [FeatureTable τ] [RecordTable τ] {accounts : String → Option Account}
  {place : Nat} {bare : Nat → Bool}

/-- The reported results of a step tell what it has done to the table. -/
def Step.Told (accounts : String → Option Account) (place : Nat) (bare : Nat → Bool)
    (step : Step τ) : Prop :=
  Tells
    (replay (RecordTable.keep τ) bare accounts
      (step.results.map (ExecutedResult.reported place (bare place))))
    (RecordTable.records step.table)

/-- A step that was stopped before it did anything has nothing to tell. -/
theorem told_stop {t t' : τ} (h : Tells accounts (RecordTable.records t))
    (hrecords : RecordTable.records t' = RecordTable.records t) (failure : StoreError) :
    (stop failure t').Told accounts place bare := by
  simp only [Step.Told, stop, hrecords]
  exact h

theorem told_write {t : τ} (h : Tells accounts (RecordTable.records t)) {op : ExecutedOp}
    {record : StoredRecord} {id : String} (hop : op.writes)
    (hdeleted : record.deleted = decide (op = .deleted)) (hid : record.parts.id = some id) :
    (write op record t).Told accounts place bare := by
  have hkey : ∀ version, (stamp record version).key = id := by
    intro version
    simp [StoredRecord.key, stamp, hid]
  -- A write is stopped at its version or at its saving, and either way no record has changed.
  rw [write_eq]
  split
  · next failure t₁ hversion =>
    exact told_stop h (RecordTable.nextVersion_records hversion) failure
  · next version t₁ hversion =>
    have hrecords₁ : RecordTable.records t₁ = RecordTable.records t :=
      RecordTable.nextVersion_records hversion
    split
    · next failure t₂ hsave =>
      exact told_stop h ((RecordTable.save_error hsave).trans hrecords₁) failure
    · next t₂ hsave =>
      have hrecords₂ := RecordTable.save_ok hsave
      rw [hrecords₁, hkey] at hrecords₂
      have hwritten : Tells
          (replay (RecordTable.keep τ) bare accounts
            [(ExecutedResult.executed op (stamp record version).parts).reported place (bare place)])
          (Function.update (RecordTable.records t) id
            (some ((stamp record version).keeping (RecordTable.keep τ)))) :=
        h.written hop hdeleted hid
      simp only [Step.Told, hrecords₂]
      exact hwritten

/-- The purge that ends a step is told if it has happened. -/
theorem told_purgeAfter {results : List ExecutedResult} {t : τ} {id : String} {parts : Parts}
    (h : Tells
      (replay (RecordTable.keep τ) bare accounts
        (results.map (ExecutedResult.reported place (bare place))))
      (RecordTable.records t))
    (hid : parts.id = some id) : (Plan.purgeAfter results id parts t).Told accounts place bare := by
  unfold Plan.purgeAfter
  split
  · next failure t₁ hpurge =>
    simp only [Step.Told, RecordTable.purge_error hpurge]
    exact h
  · next t₁ hpurge =>
    have hrecords := RecordTable.purge_ok hpurge
    simp only [Step.Told, hrecords, List.map_append, replay_append]
    exact h.purged hid

theorem told_perform {t : τ} (h : Tells accounts (RecordTable.records t)) {id : String} {plan : Plan}
    (hhonest : plan.Honest) (hkeyed : plan.KeyedBy id) :
    (plan.perform id t).Told accounts place bare := by
  cases plan with
  | answer result => exact h.idle hhonest
  | purge parts => exact told_purgeAfter h hkeyed
  | write op record thenPurge =>
    obtain ⟨hop, hdeleted⟩ := hhonest
    have hwrite : (write op record t).Told accounts place bare :=
      told_write h hop hdeleted hkeyed
    simp only [Plan.perform]
    split
    · next written hwritten =>
      split
      · obtain ⟨version, rfl⟩ := exists_stamp_of_write hwritten
        exact told_purgeAfter hwrite hkeyed
      · exact hwrite
    · exact hwrite

theorem told_execute {t : τ} (h : Tells accounts (RecordTable.records t))
    (intent : WriteIntent fmt) : (execute intent t).Told accounts place bare := by
  rw [execute_eq]
  cases intent.target with
  | none => exact h.idle (.inr rfl)
  | some id =>
    simp only
    split
    · next failure t₁ hload => exact told_stop h (RecordTable.load_error hload) failure
    · next stored t₁ hload =>
      obtain ⟨rfl, hrecords⟩ := RecordTable.load_ok hload
      exact told_perform (hrecords ▸ h) (Plan.honest_make intent id _)
        (Plan.keyedBy_make intent (fun record => h.identified id record))

end Batch

/-! ## A batch, wherever it stops -/

namespace Batch

section Stop

variable {τ : Type} [FeatureTable τ]

/-- How many intents are executed before the table stops the batch. -/
def completed (table : τ) : List (WriteIntent fmt) → Nat
  | [] => 0
  | intent :: rest =>
    match (execute intent table).written with
    | .error _ => 0
    | .ok _ => completed (execute intent table).table rest + 1

/-- Whether the results for the intent at a place were left without their bodies. The
    results of the intent that was stopped never are. -/
def leftBare (completed : Nat) (intents : List (WriteIntent fmt)) (place : Nat) : Bool :=
  decide (place < completed) && (intents[place]?).any WriteIntent.noResult

theorem executeFrom_cons_of_error {place : Nat} {table : τ} {intent : WriteIntent fmt}
    {rest : List (WriteIntent fmt)} {failure : StoreError}
    (h : (execute intent table).written = .error failure) :
    executeFrom place table (intent :: rest)
      = ({ results := (execute intent table).results.map (ExecutedResult.reported place false)
           failure := some failure }, (execute intent table).table) := by
  simp only [executeFrom, h, ExecutedResult.map_reported, Bool.false_eq_true, if_false]

theorem executeFrom_cons_of_ok {place : Nat} {table : τ} {intent : WriteIntent fmt}
    {rest : List (WriteIntent fmt)} {written : Option StoredRecord}
    (h : (execute intent table).written = .ok written) :
    let others := executeFrom (place + 1) (execute intent table).table rest
    executeFrom place table (intent :: rest)
      = ({ others.1 with
            results := (execute intent table).results.map
              (ExecutedResult.reported place intent.noResult) ++ others.1.results }, others.2) := by
  simp only [executeFrom, h, ExecutedResult.map_reported]

/-- The batch reports a failure exactly when it has not executed every intent. -/
theorem failure_eq_none_iff (place : Nat) (table : τ) (intents : List (WriteIntent fmt)) :
    (executeFrom place table intents).1.failure = none
      ↔ completed table intents = intents.length := by
  induction intents generalizing place table with
  | nil => simp [executeFrom, completed]
  | cons intent rest ih =>
    cases hwritten : (execute intent table).written with
    | error failure => simp [executeFrom_cons_of_error hwritten, completed, hwritten]
    | ok written => simp [executeFrom_cons_of_ok hwritten, completed, hwritten, ih]

/-- What follows the intent that was stopped plays no part. -/
theorem executeFrom_take_append {place : Nat} {table : τ} {intents : List (WriteIntent fmt)}
    (h : completed table intents < intents.length) (others : List (WriteIntent fmt)) :
    executeFrom place table (intents.take (completed table intents + 1) ++ others)
      = executeFrom place table intents := by
  induction intents generalizing place table with
  | nil => exact absurd h (Nat.not_lt_zero _)
  | cons intent rest ih =>
    cases hwritten : (execute intent table).written with
    | error failure =>
      rw [executeFrom_cons_of_error hwritten, completed, hwritten, List.take_succ_cons,
        List.cons_append, executeFrom_cons_of_error hwritten]
    | ok written =>
      simp only [completed, hwritten, List.length_cons, Nat.add_lt_add_iff_right] at h ⊢
      rw [executeFrom_cons_of_ok hwritten, List.take_succ_cons, List.cons_append,
        executeFrom_cons_of_ok hwritten, ih h]

/-- A result comes from the execution of its intent on the table that the intents before
    it have left, and the batch of the intents up to it leaves the table of that
    execution. -/
theorem exists_execute_of_mem_results {place : Nat} {table : τ}
    {intents : List (WriteIntent fmt)} {result : ExecutedResult}
    (h : result ∈ (executeFrom place table intents).1.results) :
    ∃ (k : Nat) (intent : WriteIntent fmt), result.intent = place + k ∧
      (executeFrom place table (intents.take (k + 1))).2
        = (execute intent (executeFrom place table (intents.take k)).2).table ∧
      ∃ original ∈ (execute intent (executeFrom place table (intents.take k)).2).results,
        original.op = result.op := by
  induction intents generalizing place table with
  | nil => simp [executeFrom] at h
  | cons intent rest ih =>
    -- Whatever is reported of the first intent comes under its place, bare or not.
    have hfirst : ∀ bare, result ∈ (execute intent table).results.map
        (ExecutedResult.reported place bare) →
        result.intent = place ∧
          ∃ original ∈ (execute intent table).results, original.op = result.op := by
      intro bare hmem
      obtain ⟨original, horiginal, rfl⟩ := List.mem_map.mp hmem
      exact ⟨ExecutedResult.intent_reported .., original, horiginal,
        (ExecutedResult.op_reported ..).symm⟩
    cases hwritten : (execute intent table).written with
    | error failure =>
      rw [executeFrom_cons_of_error hwritten] at h
      obtain ⟨hintent, horiginal⟩ := hfirst false h
      refine ⟨0, intent, hintent, ?_, horiginal⟩
      rw [List.take_succ_cons, executeFrom_cons_of_error hwritten]
      rfl
    | ok written =>
      rw [executeFrom_cons_of_ok hwritten] at h
      rcases List.mem_append.mp h with hmem | hmem
      · obtain ⟨hintent, horiginal⟩ := hfirst _ hmem
        refine ⟨0, intent, hintent, ?_, horiginal⟩
        rw [List.take_succ_cons, executeFrom_cons_of_ok hwritten]
        rfl
      · obtain ⟨k, other, hintent, htable, horiginal⟩ := ih hmem
        refine ⟨k + 1, other, by omega, ?_⟩
        simp only [List.take_succ_cons, executeFrom_cons_of_ok hwritten]
        exact ⟨htable, horiginal⟩

theorem op_of_mem_write {op : ExecutedOp} {record : StoredRecord} {table : τ}
    {result : ExecutedResult} (h : result ∈ (write op record table).results) :
    result.op = op := by
  rw [write_eq] at h
  split at h
  · cases h
  · split at h
    · cases h
    · obtain rfl := List.mem_singleton.mp h
      rfl

theorem mem_of_mem_purgeAfter {results : List ExecutedResult} {id : String} {parts : Parts}
    {table : τ} {result : ExecutedResult}
    (h : result ∈ (Plan.purgeAfter results id parts table).results) :
    result ∈ results ∨ result.op = .purged := by
  unfold Plan.purgeAfter at h
  split at h
  · exact .inl h
  · rcases List.mem_append.mp h with h | h
    · exact .inl h
    · obtain rfl := List.mem_singleton.mp h
      exact .inr rfl

/-- Only the plan of an answer has a result that says that nothing was done. -/
theorem exists_answer_of_idle {plan : Plan} (hplan : plan.Labelled) {id : String} {table : τ}
    {result : ExecutedResult} (hresult : result ∈ (plan.perform id table).results)
    (hop : result.op = .retained ∨ result.op = .error) : ∃ answered, plan = .answer answered := by
  have hnot : ¬ (result.op.writes ∨ result.op = .purged) := by
    rcases hop with hop | hop <;> simp [hop, ExecutedOp.writes]
  cases plan with
  | answer answered => exact ⟨answered, rfl⟩
  | purge parts =>
    rcases mem_of_mem_purgeAfter hresult with hmem | hpurged
    · cases hmem
    · exact absurd (.inr hpurged) hnot
  | write op record thenPurge =>
    have hwrites : ∀ written ∈ (write op record table).results, written.op.writes := by
      intro written hwritten
      rw [op_of_mem_write hwritten]
      exact hplan
    simp only [Plan.perform] at hresult
    split at hresult
    · split at hresult
      · rcases mem_of_mem_purgeAfter hresult with hmem | hpurged
        · exact absurd (.inl (hwrites result hmem)) hnot
        · exact absurd (.inr hpurged) hnot
      · exact absurd (.inl (hwrites result hresult)) hnot
    · exact absurd (.inl (hwrites result hresult)) hnot

/-- An intent with a result that nothing was done has at most loaded a record. -/
theorem table_of_idle {intent : WriteIntent fmt} {table : τ}
    (h : ∃ result ∈ (execute intent table).results,
      result.op = .retained ∨ result.op = .error) :
    (execute intent table).table = table ∨
      ∃ id, (execute intent table).table = (FeatureTable.load id table).2 := by
  obtain ⟨result, hresult, hop⟩ := h
  rw [execute_eq] at hresult ⊢
  cases htarget : intent.target with
  | none => exact .inl rfl
  | some id =>
    simp only [htarget] at hresult ⊢
    cases hload : FeatureTable.load id table with
    | mk loaded loadedTable =>
      refine .inr ⟨id, ?_⟩
      rw [hload] at hresult
      cases loaded with
      | error failure => rw [hload]; rfl
      | ok stored =>
        obtain ⟨answered, hplan⟩ :=
          exists_answer_of_idle (Plan.labelled_make intent id stored) hresult hop
        rw [hload]
        simp only [hplan]
        rfl

end Stop

variable {τ : Type} [FeatureTable τ] [RecordTable τ]

/-- The accounts that the results of a batch give are those of the records that it has
    left. -/
theorem tells_executeFrom {place : Nat} {t : τ} {intents : List (WriteIntent fmt)}
    {accounts : String → Option Account} (h : Tells accounts (RecordTable.records t))
    {bare : Nat → Bool}
    (hbare : ∀ k, k < intents.length →
      bare (place + k) = leftBare (completed t intents) intents k) :
    Tells
      (replay (RecordTable.keep τ) bare accounts (executeFrom place t intents).1.results)
      (RecordTable.records (executeFrom place t intents).2) := by
  induction intents generalizing place t accounts with
  | nil => exact h
  | cons intent rest ih =>
    have hfirst := hbare 0 (Nat.zero_lt_succ _)
    -- One step tells of itself from any accounts, so the accounts after it carry the induction.
    have hstep : (execute intent t).Told accounts place bare := told_execute h intent
    cases hwritten : (execute intent t).written with
    | error failure =>
      have hplace : bare place = false := by
        simpa [leftBare, completed, hwritten] using hfirst
      rw [executeFrom_cons_of_error hwritten]
      rwa [Step.Told, hplace] at hstep
    | ok written =>
      have hplace : bare place = intent.noResult := by
        simpa [leftBare, completed, hwritten] using hfirst
      rw [executeFrom_cons_of_ok hwritten]
      simp only [replay_append]
      rw [Step.Told, hplace] at hstep
      refine ih hstep ?_
      intro k hk
      have hlater := hbare (k + 1) (Nat.succ_lt_succ hk)
      simp only [leftBare, completed, hwritten, List.getElem?_cons_succ,
        Nat.add_lt_add_iff_right] at hlater
      rw [Nat.add_assoc, Nat.add_comm 1 k]
      exact hlater

end Batch

/-- The results of a batch tell what has become of the records, also when the batch was
    stopped. On a table that acts on a map of records, replaying the results in the order
    of execution on the accounts of the first records gives the accounts of the last ones.
    A result that nothing was done comes with no change of a record and no allocation of a
    version. A batch that reports a failure has stopped at its first intent that the table
    did not let happen, and what follows that intent plays no part. -/
theorem applyBatch_tells {τ : Type} [FeatureTable τ] [RecordTable τ] (table : τ)
    (intents : List (WriteIntent fmt)) (hid : Identified (RecordTable.records table)) :
    let done := applyBatch table intents
    let completed := Batch.completed table intents
    let before (place : Nat) : Tallied τ := (applyBatch { table } (intents.take place)).2
    (∀ id, Option.Rel Account.Describes
      (replay (RecordTable.keep τ) (Batch.leftBare completed intents)
        (fun id => (RecordTable.records table id).map Account.ofRecord) done.1.results id)
      (RecordTable.records done.2 id)) ∧
    (∀ result ∈ done.1.results, result.op = .retained ∨ result.op = .error →
      RecordTable.records (before (result.intent + 1)).table
          = RecordTable.records (before result.intent).table ∧
        (before (result.intent + 1)).allocated = (before result.intent).allocated) ∧
    (done.1.failure = none ↔ completed = intents.length) ∧
    (completed < intents.length →
      ∀ others : List (WriteIntent fmt),
        applyBatch table (intents.take (completed + 1) ++ others) = done) := by
  intro done completed before
  have htells : Tells
      (replay (RecordTable.keep τ) (Batch.leftBare completed intents)
        (fun id => (RecordTable.records table id).map Account.ofRecord) done.1.results)
      (RecordTable.records done.2) := by
    refine Batch.tells_executeFrom (Tells.refl hid) ?_
    intro k _
    rw [Nat.zero_add]
  refine ⟨htells.describes, ?_, Batch.failure_eq_none_iff 0 table intents,
    Batch.executeFrom_take_append⟩
  -- An idle result is found in the batch that also counts the versions, where the load of its
  -- record is all that has happened.
  intro result hresult hop
  have htallied : result ∈ (Batch.executeFrom 0 ({ table } : Tallied τ) intents).1.results := by
    rw [(Batch.executeFrom_tallied 0 ({ table } : Tallied τ) intents).1]
    exact hresult
  obtain ⟨k, intent, hintent, hafter, original, horiginal, horiginalOp⟩ :=
    Batch.exists_execute_of_mem_results htallied
  obtain rfl : result.intent = k := by omega
  have hidle := Batch.table_of_idle ⟨original, horiginal, horiginalOp ▸ hop⟩
  rw [← hafter] at hidle
  rcases hidle with hsame | ⟨id, hload⟩
  · have hbefore : before (result.intent + 1) = before result.intent := hsame
    rw [hbefore]
    exact ⟨rfl, rfl⟩
  · have hbefore : before (result.intent + 1) = (FeatureTable.load id (before result.intent)).2 :=
      hload
    rw [hbefore]
    exact ⟨RecordTable.records_load id (before result.intent).table, rfl⟩

/-- A purge is stopped between its two steps, and a bare deletion comes before it. The
    results tell of both deletions, and both records are left in the deleted state. -/
theorem applyBatch_tells_of_stopped_purge :
    let record (id : String) : StoredRecord :=
      { parts := { id := some id, version := some "t" }, deleted := false }
    let table : LimitedTable :=
      { records := (Dictionary.empty.insert "a" (record "a")).insert "b" (record "b")
        budget := { purge := some 0 } }
    let intents : List (WriteIntent .geo) :=
      [{ (.ofId .delete "b" none : WriteIntent .geo) with noResult := true },
        .ofId .purge "a" (some "t"), .ofId .purge "b" none]
    let done := applyBatch table intents
    Identified (RecordTable.records table) ∧
      done.1.results.map ExecutedResult.op = [.deleted, .deleted] ∧
      done.1.failure = some (LimitedTable.spent "purge") ∧
      ∀ id ∈ ["a", "b"], ∃ record, RecordTable.records done.2 id = some record ∧
        record.deleted = true := by
  intro record table intents done
  have hid : Identified (RecordTable.records table) := by
    have hempty : Identified (fun _ => none) := fun id record h => by cases h
    have hrecords : RecordTable.records table
        = Function.update (Function.update (fun _ => none) "a" (some (record "a"))) "b"
            (some (record "b")) := by
      funext id
      simp only [RecordTable.records, table, Dictionary.find?_insert, Dictionary.find?_empty,
        Function.update_apply, eq_comm]
    rw [hrecords]
    exact (hempty.update (by simp [record])).update (by simp [record])
  refine ⟨hid, by decide, by decide, ?_⟩
  have htells := (applyBatch_tells table intents hid).1
  intro id hmem
  have hdescribed := htells id
  -- The account is evaluated, but the record is not: the theorem says what it is.
  have haccount : (replay (RecordTable.keep LimitedTable)
      (Batch.leftBare (Batch.completed table intents) intents)
      (fun id => (RecordTable.records table id).map Account.ofRecord) done.1.results id).map
        Account.deleted = some true := by
    simp only [List.mem_cons, List.not_mem_nil, or_false] at hmem
    rcases hmem with rfl | rfl <;> decide
  obtain ⟨account, haccount, hdeleted⟩ := Option.map_eq_some_iff.mp haccount
  rw [haccount] at hdescribed
  cases hstored : RecordTable.records done.2 id with
  | none =>
    rw [hstored] at hdescribed
    cases hdescribed
  | some stored =>
    rw [hstored] at hdescribed
    cases hdescribed with
    | some hdescribes => exact ⟨stored, rfl, hdescribes.deleted.trans hdeleted⟩

end FeatureStore
