-- SUMMARY: An intent that was rejected for a conflict, retried under the version that its result shows, does what it does without one.
import FeatureStore.Proofs.MarkedRecords

/-!
# Retries

Who is told of a conflict is told of the stored version as well, and can try once more under that
version. The version goes a long way: from the record into the result, perhaps without its body, from
the row of the result into the codec of the intent, and from there into the resolution. What makes
the retry work is that the resolution takes a token of the stored state for none at all, so that
an intent under that token has the plan of an intent without one. The plans may still differ in the
version of what they store, but whatever is written is stamped.

A conflict leaves everything as it was. The retry needs no more than that: it does not matter what
happens to other ids in between.
-/

namespace FeatureStore

variable {fmt : Format}

/-! ## Conflicts and tokens -/

namespace Resolution

variable {view : IntentView} {stored : StoredState} {withCurrent : Bool}

theorem resolveMissing_ne_conflict (view : IntentView) :
    resolveMissing view ≠ .fail .conflict withCurrent := by
  unfold resolveMissing
  cases view.ifNotExists with
  | fail => simp
  | retain => simp
  | create => cases view.hasFeature <;> simp

/-- Without a token nothing is rejected for a conflict. -/
theorem tokenless_ne_conflict (view : IntentView) (stored : StoredState) :
    resolve { view with version := none } stored ≠ .fail .conflict withCurrent := by
  have hmissing : resolveMissing { view with version := none } ≠ .fail .conflict withCurrent :=
    resolveMissing_ne_conflict _
  cases stored with
  | live current =>
    simp only [resolve_live, resolveLive, guarded_eq, mismatched, Bool.false_eq_true, if_false]
    cases view.ifExists with
    | replace => cases view.hasFeature <;> cases view.op <;> simp [WriteOp.requiresFeature]
    | fail => split <;> simp
    | retain => split <;> simp
    | delete => split <;> simp
    | purge => split <;> simp
  | absent =>
    unfold resolve
    cases view.op <;> simp only [StoredState.liveVersion]
    case purge => simp [resolvePurge]
    all_goals
      split
      · simp
      · exact hmissing
  | deleted current =>
    unfold resolve
    cases view.op <;> simp only [StoredState.liveVersion]
    case purge => simp [resolvePurge, mismatched]
    case restore => simp [mismatched]
    all_goals
      split
      · simp
      · exact hmissing

/-- A rejection for a conflict comes with the stored record, and of a token that is not that of the
    stored state. -/
theorem conflict_of_resolve (h : resolve view stored = .fail .conflict withCurrent) :
    withCurrent = true ∧ ∃ token, view.version = some token ∧ stored.isOther token = true := by
  cases hversion : view.version with
  | none =>
    have hview : view = { view with version := none } := by rw [← hversion]
    rw [hview] at h
    exact absurd h (tokenless_ne_conflict view stored)
  | some token =>
    have hview : view = { view with version := some token } := by rw [← hversion]
    have hblind : resolve { view with version := none } stored ≠ .fail .conflict withCurrent :=
      tokenless_ne_conflict view stored
    rw [hview, conflicts_are_left_to_policy] at h
    split at h
    · next hother =>
      obtain ⟨hother, -⟩ := Bool.and_eq_true_iff.mp hother
      refine ⟨?_, token, rfl, hother⟩
      revert h
      cases conflictPolicy view (resolve { view with version := none } stored) with
      | fail =>
        intro h
        cases h
        rfl
      | retain =>
        intro h
        cases h
      | replace => exact fun h => absurd h hblind
    · exact absurd h hblind

/-- The token of the stored state is as good as none. -/
theorem resolve_own_token (view : IntentView) {token : String} (h : stored.version? = some token) :
    resolve { view with version := some token } stored
      = resolve { view with version := none } stored := by
  have hsame : stored.isOther token = false := by simp [StoredState.isOther, h]
  exact (conflicts_are_left_to_policy view token stored).trans (if_neg (by simp [hsame]))

end Resolution

/-- The version of the state is that of the record. -/
theorem StoredRecord.version?_state {record : StoredRecord} {token : String}
    (h : record.parts.version = some token) : record.state.version? = some token := by
  simp only [state, h, Option.getD_some]
  split <;> rfl

/-! ## Intents under another token -/

namespace WriteIntent

variable (intent : WriteIntent fmt) (token : Option String)

theorem target_setVersion : (intent.setVersion token).target = intent.target := rfl

theorem parts_setVersion :
    (intent.setVersion token).parts.1
      = intent.parts.1.map (fun parts => { parts with version := token }) := by
  have herror : (intent.setVersion token).sync.codec.error = intent.sync.codec.error := rfl
  simp only [parts, herror]
  split <;> rfl

end WriteIntent

namespace Batch

variable {τ : Type} [FeatureTable τ] {t : τ} {id : String}

/-- What is stored of an intent does not depend on its token, but for the version. -/
theorem incomingParts_setVersion (intent : WriteIntent fmt) (id : String) (token : Option String) :
    incomingParts (intent.setVersion token) id
      = (incomingParts intent id).map (fun parts => { parts with version := token }) := by
  simp only [incomingParts, WriteIntent.parts_setVersion]
  cases intent.parts.1 <;> rfl

/-- Only what is stamped counts in a write. -/
theorem write_congr (op : ExecutedOp) {record other : StoredRecord}
    (h : ∀ version, stamp record version = stamp other version) (t : τ) :
    write op record t = write op other t := by
  simp only [write_eq, h]

theorem perform_store_setVersion (op : ExecutedOp) (intent : WriteIntent fmt) (id : String)
    (token other : Option String) (t : τ) :
    (Plan.store op (intent.setVersion token) id).perform id t
      = (Plan.store op (intent.setVersion other) id).perform id t := by
  simp only [Plan.store, incomingParts_setVersion]
  cases incomingParts intent id with
  | error cause => rfl
  | ok parts =>
    simp only [Except.map, perform_write]
    exact write_congr op (fun version => rfl) t

/-- The plan under the token of the stored record does what the plan without a token does. -/
theorem perform_own_token (intent : WriteIntent fmt) {record : StoredRecord} {token : String}
    (h : record.parts.version = some token) (t : τ) :
    (Plan.make (intent.setVersion (some token)) id (some record)).perform id t
      = (Plan.make (intent.setVersion none) id (some record)).perform id t := by
  have hdecision : Resolution.resolve (intent.setVersion (some token)).view.1 record.state
      = Resolution.resolve (intent.setVersion none).view.1 record.state :=
    Resolution.resolve_own_token (intent.setVersion none).view.1 (StoredRecord.version?_state h)
  simp only [Plan.make, StoredState.ofRecord?, hdecision]
  cases Resolution.resolve (intent.setVersion none).view.1 record.state with
  | create => exact perform_store_setVersion .created intent id (some token) none t
  | update => exact perform_store_setVersion .updated intent id (some token) none t
  | delete => rfl
  | restore => rfl
  | purge => rfl
  | retain withCurrent => rfl
  | fail cause withCurrent => rfl

/-- Only a conflict that has been decided is reported. -/
theorem resolve_of_conflict {intent : WriteIntent fmt} {stored : Option StoredRecord}
    {result : ExecutedResult} (hresult : result ∈ ((Plan.make intent id stored).perform id t).results)
    (hop : result.op = .error) (hcause : result.cause = some .conflict) :
    ∃ withCurrent,
      Resolution.resolve intent.view.1 (.ofRecord? stored) = .fail .conflict withCurrent ∧
        Plan.make intent id stored = .answer result := by
  obtain ⟨answered, hplan⟩ :=
    exists_answer_of_idle (Plan.labelled_make intent id stored) hresult (.inr hop)
  rw [hplan] at hresult ⊢
  obtain rfl : result = answered := List.mem_singleton.mp hresult
  -- Storing may be refused too, but only for parts that are not valid.
  have hstore : ∀ op, Plan.store op intent id ≠ .answer result := by
    intro op hstore
    unfold Plan.store at hstore
    split at hstore
    · next cause hparts =>
      cases hstore
      obtain rfl : cause = .conflict := Option.some.inj hcause
      simp only [incomingParts, WriteIntent.parts] at hparts
      split at hparts <;> cases hparts
    · cases hstore
  unfold Plan.make at hplan
  cases hdecision : Resolution.resolve intent.view.1 (.ofRecord? stored) with
  | fail cause withCurrent =>
    rw [hdecision] at hplan
    cases hplan
    obtain rfl : cause = .conflict := Option.some.inj hcause
    exact ⟨withCurrent, rfl, rfl⟩
  | retain withCurrent =>
    rw [hdecision] at hplan
    cases hplan
    cases hcause
  | create =>
    rw [hdecision] at hplan
    exact absurd hplan (hstore .created)
  | update =>
    rw [hdecision] at hplan
    exact absurd hplan (hstore .updated)
  | delete => simp [hdecision, Plan.ofDecision] at hplan
  | restore => simp [hdecision, Plan.ofDecision] at hplan
  | purge => simp [hdecision, Plan.ofDecision] at hplan

/-- Without a token no result is a conflict. -/
theorem no_conflict_of_tokenless {intent : WriteIntent fmt} (h : intent.version.1 = none)
    {result : ExecutedResult} (hresult : result ∈ (execute intent t).results)
    (hop : result.op = .error) : result.cause ≠ some .conflict := by
  intro hcause
  rw [execute_eq] at hresult
  split at hresult
  · obtain rfl := List.mem_singleton.mp hresult
    cases hcause
  · split at hresult
    · cases hresult
    · obtain ⟨withCurrent, hdecision, -⟩ := resolve_of_conflict hresult hop hcause
      obtain ⟨-, token, htoken, -⟩ := Resolution.conflict_of_resolve hdecision
      cases h.symm.trans htoken

variable [RecordTable τ]

/-- A conflict is the only result, shows the stored record, and has changed nothing. -/
theorem execute_of_conflict {intent : WriteIntent fmt} {result : ExecutedResult}
    (hresult : result ∈ (execute intent t).results) (hop : result.op = .error)
    (hcause : result.cause = some .conflict) :
    ∃ id record, intent.target = some id ∧ RecordTable.records t id = some record ∧
      (execute intent t).results = [.rejected .conflict (some id) (some record.parts)] ∧
      (execute intent t).written = .ok none ∧
      RecordTable.records (execute intent t).table = RecordTable.records t := by
  rw [execute_eq] at hresult ⊢
  cases htarget : intent.target with
  | none =>
    simp only [htarget] at hresult
    obtain rfl := List.mem_singleton.mp hresult
    cases hcause
  | some id =>
    simp only [htarget] at hresult ⊢
    cases hload : FeatureTable.load id t with
    | mk loaded t₁ =>
      rw [hload] at hresult
      cases loaded with
      | error failure => cases hresult
      | ok stored =>
        obtain ⟨rfl, hrecords⟩ := RecordTable.load_ok hload
        -- The conflict was decided on the stored record, which comes with it.
        obtain ⟨withCurrent, hdecision, hplan⟩ := resolve_of_conflict hresult hop hcause
        obtain ⟨rfl, -⟩ := Resolution.conflict_of_resolve hdecision
        have hfits := Resolution.fits_resolve intent.view.1 (.ofRecord? (RecordTable.records t id))
        rw [hdecision] at hfits
        obtain ⟨record, hrecord⟩ := hfits.exists_record (.inr rfl)
        have hresult : result = .rejected .conflict (some id) (some record.parts) := by
          rw [Plan.make, hdecision, hrecord] at hplan
          cases hplan
          rfl
        refine ⟨id, record, rfl, hrecord, ?_, ?_, ?_⟩
        all_goals simp only [hplan]
        · rw [hresult]
          rfl
        · rfl
        · exact hrecords

/-- Under the token of the stored record an intent does what it does without one. -/
theorem execute_own_token {intent : WriteIntent fmt} (htarget : intent.target = some id)
    {record : StoredRecord} (hrecord : RecordTable.records t id = some record) {token : String}
    (htoken : record.parts.version = some token) :
    execute (intent.setVersion (some token)) t = execute (intent.setVersion none) t := by
  rw [execute_eq, execute_eq, WriteIntent.target_setVersion, WriteIntent.target_setVersion, htarget]
  simp only
  cases hload : FeatureTable.load id t with
  | mk loaded t₁ =>
    cases loaded with
    | error failure => rfl
    | ok stored =>
      obtain ⟨rfl, -⟩ := RecordTable.load_ok hload
      rw [hrecord]
      exact perform_own_token intent htoken t₁

end Batch

/-! ## Requests of one intent -/

/-- The row reports that a write was rejected for a conflict. -/
def Codec.Conflicted (row : Codec fmt) : Prop :=
  row.parts.op = some .error ∧ row.error = some (.ofCause .conflict)

theorem ExecutedResult.conflicted_toCodec {result : ExecutedResult}
    (h : (result.toCodec : Codec fmt).Conflicted) :
    result.op = .error ∧ result.cause = some .conflict := by
  obtain ⟨hop, herror⟩ := h
  refine ⟨Option.some.inj hop, ?_⟩
  obtain ⟨cause, hcause, hsame⟩ := Option.map_eq_some_iff.mp herror
  obtain rfl : cause = .conflict := by
    have hkind := congrArg CodecError.kind hsame
    exact CodecErrorKind.write.inj hkind
  exact hcause

@[simp] theorem ExecutedResult.cause_reported (place : Nat) (bare : Bool)
    (result : ExecutedResult) : (result.reported place bare).cause = result.cause := by
  cases bare <;> rfl

/-- The row of a rejection shows the id and the version of the stored feature, also without its
    body. -/
theorem ExecutedResult.read_rejected {parts : Parts} {id : String} (hid : parts.id = some id)
    (cause : ErrorCause) (place : Nat) (bare : Bool) :
    let row : Codec fmt :=
      ((ExecutedResult.rejected cause (some id) (some parts)).reported place bare).toCodec
    row.id.1 = some id ∧ row.version.1 = parts.version := by
  have hshown : parts.id.or (some id) = some id := by rw [hid, Option.some_or]
  cases bare with
  | true => exact ⟨hshown, rfl⟩
  | false => exact ⟨hshown, rfl⟩

namespace Batch

variable {σ τ : Type} [FeatureTable τ]

theorem Attempt.results_eq_reported (attempt : Attempt fmt τ) :
    attempt.results = attempt.step.results.map
      (.reported attempt.place (attempt.failure.isNone && attempt.intent.noResult)) := by
  rw [ExecutedResult.map_reported]
  rfl

theorem agenda_one (config : StoreConfig) (intent : WriteIntent fmt) :
    config.agenda [intent] = [(0, intent.sync)] :=
  config.agenda_of_sorted (List.pairwise_singleton _ _)

/-- The attempt at the only intent of a request. -/
def soleAttempt (intent : WriteIntent fmt) (t : τ) : Attempt fmt τ :=
  { submitted := 0, place := 0, intent := intent.sync, before := t }

theorem step_soleAttempt (intent : WriteIntent fmt) (t : τ) :
    (soleAttempt intent t).step = execute intent t :=
  execute_sync intent t

theorem requestAttempts_one (config : StoreConfig) (intent : WriteIntent fmt) (t : τ) :
    requestAttempts config [intent] t = [soleAttempt intent t] := by
  simp only [requestAttempts, agenda_one, attempts, ite_self]
  rfl

/-- The rows show the results of the intent, and the table is the one that it has left. -/
theorem executeRequest_one (config : StoreConfig) (intent : WriteIntent fmt) (t : τ) :
    let done : WriteOutcome σ fmt × τ := executeRequest config [intent] t
    (∃ bare, done.1.cursor.codecs
        = (execute intent t).results.map (fun result => (result.reported 0 bare).toCodec)) ∧
      (∀ written, (execute intent t).written = .ok written → done.1.failure = none) ∧
      done.2 = (execute intent t).table := by
  intro done
  obtain ⟨hcodecs, hfailure⟩ := @codecs_executeRequest fmt σ τ _ config [intent] t
  have hattempts : attempts 0 t (config.agenda [intent]) = [soleAttempt intent t] :=
    requestAttempts_one config intent t
  have htable : done.2 = (executeFrom 0 t ((config.agenda [intent]).map Prod.snd)).2 :=
    congrArg Prod.snd (applyBatch_arrange config [intent] t)
  have hanswers : (List.range [intent].length).flatMap (fun i => answersTo i [soleAttempt intent t])
      = (soleAttempt intent t).results := by
    simp [answersTo, List.range_one, soleAttempt]
  rw [requestAttempts_one] at hcodecs hfailure
  rw [hanswers, Attempt.results_eq_reported, step_soleAttempt, List.map_map] at hcodecs
  refine ⟨⟨_, hcodecs⟩, fun written hwritten => hfailure.trans ?_, ?_⟩
  · simp [Attempt.failure, step_soleAttempt, hwritten]
  · rw [htable, executeFrom_table, hattempts, ← step_soleAttempt]
    rfl

/-- A row of a conflict shows a result of a conflict. -/
theorem exists_conflict_of_row {config : StoreConfig} {intent : WriteIntent fmt} {t : τ}
    {row : Codec fmt}
    (hrow : row ∈ (executeRequest config [intent] t : WriteOutcome σ fmt × τ).1.cursor.codecs)
    (hconflict : row.Conflicted) :
    ∃ result ∈ (execute intent t).results, result.op = .error ∧ result.cause = some .conflict := by
  obtain ⟨⟨bare, hcodecs⟩, -⟩ := @executeRequest_one fmt σ τ _ config intent t
  rw [hcodecs] at hrow
  obtain ⟨result, hresult, rfl⟩ := List.mem_map.mp hrow
  obtain ⟨hop, hcause⟩ := ExecutedResult.conflicted_toCodec hconflict
  rw [ExecutedResult.op_reported] at hop
  rw [ExecutedResult.cause_reported] at hcause
  exact ⟨result, hresult, hop, hcause⟩

/-- Intents that do the same are requests that do the same. -/
theorem executeRequest_one_congr {intent other : WriteIntent fmt} {t : τ}
    (h : execute intent t = execute other t) (hbare : intent.noResult = other.noResult)
    (config : StoreConfig) :
    (executeRequest config [intent] t : WriteOutcome σ fmt × τ)
      = executeRequest config [other] t := by
  have horder : (config.arrange [intent]).2 = (config.arrange [other]).2 := by
    unfold StoreConfig.arrange
    split
    · simp [WriteRequest.sortById, WriteRequest.numbered]
    · rfl
  have happly : applyBatch t (config.arrange [intent]).1 = applyBatch t (config.arrange [other]).1 := by
    rw [applyBatch_arrange, applyBatch_arrange, agenda_one, agenda_one]
    simp only [List.map_cons, List.map_nil, executeFrom, execute_sync, WriteIntent.noResult_sync, h,
      hbare]
  simp only [executeRequest, horder, happly]

variable [RecordTable τ]

/-- What is known about the row of a conflict, and about everything that can follow. -/
theorem executeRequest_of_conflict {t : τ} (hmarked : Marked (RecordTable.records t))
    (config : StoreConfig) {intent : WriteIntent fmt} {row : Codec fmt}
    (hrow : row ∈ (executeRequest config [intent] t : WriteOutcome σ fmt × τ).1.cursor.codecs)
    (hconflict : row.Conflicted) :
    let done : WriteOutcome σ fmt × τ := executeRequest config [intent] t
    ∃ id record token, intent.target = some id ∧ RecordTable.records t id = some record ∧
      record.parts.version = some token ∧ row.id.1 = some id ∧ row.version.1 = some token ∧
      done.1.cursor.codecs = [row] ∧ done.1.failure = none ∧
      RecordTable.records done.2 = RecordTable.records t := by
  intro done
  obtain ⟨⟨bare, hcodecs⟩, hfailure, htable⟩ := @executeRequest_one fmt σ τ _ config intent t
  obtain ⟨result, hresult, hop, hcause⟩ := exists_conflict_of_row hrow hconflict
  obtain ⟨id, record, htarget, hrecord, hresults, hwritten, hrecords⟩ :=
    execute_of_conflict hresult hop hcause
  obtain ⟨hid, token, htoken⟩ := hmarked.exists_version hrecord
  rw [hresults, List.map_singleton] at hcodecs
  rw [hcodecs] at hrow
  obtain rfl := List.mem_singleton.mp hrow
  obtain ⟨hshownId, hshownVersion⟩ := @ExecutedResult.read_rejected fmt _ _ hid .conflict 0 bare
  refine ⟨id, record, token, htarget, hrecord, htoken, hshownId, hshownVersion.trans htoken,
    hcodecs, hfailure none hwritten, ?_⟩
  rw [htable]
  exact hrecords

end Batch

/-! ## Stores of either kind -/

/-- A store as its writers know it: what executing a request comes to, and the records. -/
structure Service (S σ : Type) (fmt : Format) where
  execute : S → WriteRequest fmt → WriteOutcome σ fmt × S
  records : S → String → Option StoredRecord

def MemoryStore.service {σ : Type} : Service MemoryStore σ fmt :=
  ⟨MemoryStore.execute, MemoryStore.get⟩

/-- A store in a database. Its state is the database. -/
def DatabaseStore.service {σ : Type} (s : DatabaseStore) : Service Database σ fmt :=
  ⟨fun db request => s.execute request db, fun db => (db.records s.config.collection).find?⟩

namespace Service

variable {S σ : Type}

/-- The service refuses all requests alike, or executes them on a table of its records. -/
inductive Serves (service : Service S σ fmt) (state : S) : Prop
  | refused (failure : StoreError)
    (hrefused : ∀ request, service.execute state request = (.failed failure, state))
  | executed {τ : Type} [FeatureTable τ] [RecordTable τ] (config : StoreConfig) (table : τ)
    (leave : τ → S) (hrecords : RecordTable.records table = service.records state)
    (hexecuted : ∀ request,
      let done : WriteOutcome σ fmt × τ := executeRequest config request table
      service.execute state request = (done.1, leave done.2) ∧
        service.records (leave done.2) = RecordTable.records done.2)

/-- A conflict of an intent, and how a retry resolves it. The row of the conflict is the only one,
    and shows the id and the token of the stored record. Nothing has changed. As long as this record
    is stored, the intent under the token that the row shows does just what it does without a token,
    and is not rejected for a conflict again. -/
structure Resolves (service : Service S σ fmt) (state : S) (intent : WriteIntent fmt)
    (row : Codec fmt) (id : String) (record : StoredRecord) (token : String) : Prop where
  target : intent.target = some id
  stored : service.records state id = some record
  current : record.parts.version = some token
  shown : row.id.1 = some id ∧ row.version.1 = some token
  only : (service.execute state [intent]).1.cursor.codecs = [row]
  completed : (service.execute state [intent]).1.failure = none
  unchanged : service.records (service.execute state [intent]).2 = service.records state
  same : ∀ later, service.records later id = some record →
    service.execute later [intent.setVersion row.version.1]
      = service.execute later [intent.setVersion none]
  accepted : ∀ later, service.records later id = some record →
    ∀ other ∈ (service.execute later [intent.setVersion row.version.1]).1.cursor.codecs,
      ¬ other.Conflicted

variable {service : Service S σ fmt}

/-- Under the token of the stored record an intent does what it does without one. -/
theorem Serves.execute_own_token {later : S} (h : service.Serves later) {intent : WriteIntent fmt}
    {id token : String} {record : StoredRecord} (htarget : intent.target = some id)
    (hrecord : service.records later id = some record) (htoken : record.parts.version = some token) :
    service.execute later [intent.setVersion (some token)]
      = service.execute later [intent.setVersion none] := by
  cases h with
  | refused failure hrefused => rw [hrefused, hrefused]
  | executed config table leave hrecords hexecuted =>
    rw [← hrecords] at hrecord
    have hsame := Batch.execute_own_token htarget hrecord htoken
    have hdone := Batch.executeRequest_one_congr (σ := σ) hsame rfl config
    rw [(hexecuted _).1, (hexecuted _).1, hdone]

/-- Without a token no row is a conflict. -/
theorem Serves.not_conflicted {later : S} (h : service.Serves later) (intent : WriteIntent fmt)
    {row : Codec fmt}
    (hrow : row ∈ (service.execute later [intent.setVersion none]).1.cursor.codecs) :
    ¬ row.Conflicted := by
  intro hconflict
  cases h with
  | refused failure hrefused =>
    rw [hrefused] at hrow
    cases hrow
  | executed config table leave hrecords hexecuted =>
    rw [(hexecuted _).1] at hrow
    obtain ⟨result, hresult, hop, hcause⟩ := Batch.exists_conflict_of_row hrow hconflict
    exact Batch.no_conflict_of_tokenless rfl hresult hop hcause

/-- A store of either kind shows how to resolve a conflict. -/
theorem resolves_of_conflicted (hserves : ∀ state, service.Serves state) {state : S}
    (hmarked : Marked (service.records state)) {intent : WriteIntent fmt} {row : Codec fmt}
    (hrow : row ∈ (service.execute state [intent]).1.cursor.codecs) (hconflict : row.Conflicted) :
    ∃ id record token, service.Resolves state intent row id record token := by
  cases hserves state with
  | refused failure hrefused =>
    rw [hrefused] at hrow
    cases hrow
  | executed config table leave hrecords hexecuted =>
    obtain ⟨hdone, hleft⟩ := hexecuted [intent]
    rw [hdone] at hrow
    rw [← hrecords] at hmarked
    obtain ⟨id, record, token, htarget, hrecord, htoken, hid, hversion, honly, hfailure, hunchanged⟩ :=
      Batch.executeRequest_of_conflict hmarked config hrow hconflict
    -- The row shows the token that is stored, which guards nothing as long as it stays stored.
    have hsame : ∀ later, service.records later id = some record →
        service.execute later [intent.setVersion row.version.1]
          = service.execute later [intent.setVersion none] := by
      intro later hlater
      rw [hversion]
      exact (hserves later).execute_own_token htarget hlater htoken
    refine ⟨id, record, token, ?_⟩
    exact {
      target := htarget
      stored := hrecords ▸ hrecord
      current := htoken
      shown := ⟨hid, hversion⟩
      only := by rw [hdone]; exact honly
      completed := by rw [hdone]; exact hfailure
      unchanged := by rw [hdone, ← hrecords]; exact hleft.trans hunchanged
      same := hsame
      accepted := fun later hlater other hother =>
        (hserves later).not_conflicted intent (hsame later hlater ▸ hother) }

end Service

/-- An open store in memory executes every request, and a closed one refuses it. -/
theorem MemoryStore.serves {σ : Type} (s : MemoryStore) :
    (MemoryStore.service : Service MemoryStore σ fmt).Serves s := by
  by_cases hclosed : s.closed = true
  · refine .refused .closed fun request => ?_
    simp only [service, execute, if_pos hclosed]
  · refine .executed s.config s.begun (fun left => left) rfl fun request => ⟨?_, rfl⟩
    simp only [service, execute, if_neg hclosed]
    rfl

/-- A store in a database executes every request, unless it is closed or no number is left. -/
theorem DatabaseStore.serves {σ : Type} (s : DatabaseStore) (db : Database) :
    (s.service : Service Database σ fmt).Serves db := by
  cases hclosed : s.closed with
  | true =>
    refine .refused .closed fun request => ?_
    simp only [service, execute, hclosed, if_true]
  | false =>
    cases hbegin : db.beginBatch s.config.collection with
    | error failure =>
      refine .refused failure fun request => ?_
      simp only [service, execute, hclosed, hbegin, Bool.false_eq_true, if_false]
    | ok begin =>
      obtain ⟨batch, begun⟩ := begin
      refine .executed s.config { database := begun, collection := s.config.collection, batch }
        BatchTable.database (Database.records_begun hbegin) fun request => ?_
      obtain ⟨hdone, haside⟩ := Database.execute_of_begun (σ := σ) hclosed hbegin request
      refine ⟨hdone, ?_⟩
      funext id
      exact (haside.own ▸ BatchTable.find?_eq _ id).symm

/-- One retry resolves a conflict. Let a store in memory that calls have led to, or any store in a
    database that has come about by what stores do and what damages it, reject an intent for a
    conflict. Then the result shows the id and the current version of what is stored, also where
    the intent has asked for no body; and the intent is not rejected for a conflict again when it is
    executed with this version as its token while this is stored. It gets the same results and leaves
    the same store as without any token. -/
theorem one_retry_resolves_conflict {σ : Type} (intent : WriteIntent fmt) :
    (∀ s : MemoryStore, MemoryStore.Reachable s →
      let service : Service MemoryStore σ fmt := MemoryStore.service
      ∀ row ∈ (service.execute s [intent]).1.cursor.codecs, row.Conflicted →
        ∃ id record token, service.Resolves s intent row id record token) ∧
    ∀ (s : DatabaseStore) (db : Database), db.Reachable →
      let service : Service Database σ fmt := s.service
      ∀ row ∈ (service.execute db [intent]).1.cursor.codecs, row.Conflicted →
        ∃ id record token, service.Resolves db intent row id record token := by
  constructor
  · intro s hs service row hrow hconflict
    exact Service.resolves_of_conflicted MemoryStore.serves hs.marked hrow hconflict
  · intro s db hdb service row hrow hconflict
    have hmarked := hdb.marked s.config.collection
    exact Service.resolves_of_conflicted s.serves hmarked hrow hconflict

/-- A purge of a live feature, under a stale token and without bodies in its results, is rejected by
    both stores. Under the token that the row shows it deletes the feature and purges it. -/
theorem one_retry_resolves_conflict_of_stale_purge :
    let config : StoreConfig := { collection := "c", sortWritesById := false }
    let put : WriteIntent .geo := .ofCodec .put (.ofParts { id := some "a", json := some "" })
    let purge : WriteIntent .geo := { WriteIntent.ofId .purge "a" (some "old") with noResult := true }
    let s := (MemoryStore.ofConfig config).afterBatch [put]
    let store : DatabaseStore := { config }
    let db := (Database.createTables {}).afterBatch store [put]
    let memory : Service MemoryStore Unit .geo := MemoryStore.service
    let database : Service Database Unit .geo := store.service
    let row := (memory.execute s [purge]).1.cursor.codecs.headD default
    let other := (database.execute db [purge]).1.cursor.codecs.headD default
    (MemoryStore.Reachable s ∧ row ∈ (memory.execute s [purge]).1.cursor.codecs ∧ row.Conflicted ∧
      (∃ id record token, memory.Resolves s purge row id record token) ∧
      (memory.execute s [purge.setVersion row.version.1]).1.cursor.codecs.map (·.parts.op)
        = [some .deleted, some .purged]) ∧
    db.Reachable ∧ other ∈ (database.execute db [purge]).1.cursor.codecs ∧ other.Conflicted ∧
      (∃ id record token, database.Resolves db purge other id record token) ∧
      (database.execute db [purge.setVersion other.version.1]).1.cursor.codecs.map (·.parts.op)
        = [some .deleted, some .purged] := by
  intro config put purge s store db memory database row other
  have hs : MemoryStore.Reachable s := (MemoryStore.Reachable.empty config).execute [put]
  have hdb : db.Reachable := Database.Reachable.empty.openStore.execute store [put]
  have hmem : ∀ rows : List (Codec .geo), rows.length = 1 → rows.headD default ∈ rows := by
    intro rows hlength
    obtain ⟨only, rfl⟩ := List.length_eq_one_iff.mp hlength
    exact List.mem_singleton_self only
  have hrow := hmem (memory.execute s [purge]).1.cursor.codecs (by decide +kernel)
  have hother := hmem (database.execute db [purge]).1.cursor.codecs (by decide +kernel)
  have hconflict : row.Conflicted := ⟨by decide +kernel, by decide +kernel⟩
  have hconflict' : other.Conflicted := ⟨by decide +kernel, by decide +kernel⟩
  obtain ⟨hmemory, hdatabase⟩ := one_retry_resolves_conflict (σ := Unit) purge
  exact ⟨⟨hs, hrow, hconflict, hmemory s hs row hrow hconflict, by decide +kernel⟩,
    hdb, hother, hconflict', hdatabase store db hdb other hother hconflict', by decide +kernel⟩

end FeatureStore
