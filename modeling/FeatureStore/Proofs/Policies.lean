-- SUMMARY: What the policies of an intent make of a conflict, of a live feature and of a missing one, for every operation.
import FeatureStore.Proofs.Decisions
import FeatureStore.Proofs.DerivedForms

/-!
# Policies

An intent has a policy for each of three cases: the feature exists, it does not, or another
version of it is stored than the token of the intent names. The operation sets them at first, and
any of them can be replaced.

A token makes a difference only where a state is changed or removed that has another version. Then
the policy for conflicts decides; but a deleted state is neither purged nor restored under another
version, whatever that policy is.

Without a token the other two policies decide, for any operation. A purge is the exception, and
only a purge: it purges what it has deleted also where the policy is to delete, no other operation
does so where the policy is to purge, and it retains an absent feature whatever the policy for
missing features is.
-/

namespace FeatureStore

variable {fmt : Format}

/-! ## Conflicts -/

/-- What the policy makes of a change of a state that has another version. -/
def IfConflict.settle : IfConflict → Decision → Decision
  | .fail, _ => .fail .conflict true
  | .retain, _ => .retain true
  | .replace, change => change

namespace StoredState

def version? : StoredState → Option String
  | .absent => none
  | .live version | .deleted version => some version

/-- Whether there is a stored version, and it is not that of the token. -/
def isOther (stored : StoredState) (token : String) : Bool :=
  stored.version?.any (fun version => token != version)

end StoredState

namespace Resolution

/-- The policy for the conflicts of a decision. -/
def conflictPolicy (view : IntentView) : Decision → IfConflict
  | .purge | .restore => .fail
  | .create | .update | .delete | .retain _ | .fail _ _ => view.ifConflict

variable (view : IntentView) (token current : String)

theorem guarded_eq (change : Decision) :
    guarded view current change
      = if mismatched view.version current then view.ifConflict.settle change else change := by
  unfold guarded
  cases view.ifConflict <;> rfl

theorem resolve_live :
    resolve view (.live current)
      = if view.op.requiresFeature && !view.hasFeature then .fail .invalid false
        else resolveLive view current := by
  unfold resolve
  cases view.op <;> rfl

/-- What is done without a live feature is neither a change nor a removal, except that a deleted
    state is purged by a purge and restored by a restoring. -/
theorem not_supersedes_resolveMissing : supersedes (resolveMissing view) = false := by
  have hfits : Fits view .absent (resolveMissing view) := fits_resolveMissing view rfl
  have hnot : ¬ supersedes (resolveMissing view) := fun h => hfits.ne_absent (.inl h) rfl
  simpa using hnot

theorem resolve_absent_token :
    resolve { view with version := some token } .absent
      = resolve { view with version := none } .absent := by
  unfold resolve
  cases view.op <;> rfl

theorem resolveLive_token :
    let blind := resolveLive { view with version := none } current
    resolveLive { view with version := some token } current
      = if (token != current) && supersedes blind then view.ifConflict.settle blind else blind := by
  simp only [resolveLive, guarded_eq, mismatched]
  cases view.ifExists with
  | fail => simp [supersedes]
  | retain => simp [supersedes]
  | delete => simp [supersedes]
  | purge => simp [supersedes]
  | replace => cases view.hasFeature <;> simp [supersedes]

theorem resolve_live_token :
    let blind := resolve { view with version := none } (.live current)
    resolve { view with version := some token } (.live current)
      = if (token != current) && supersedes blind then view.ifConflict.settle blind else blind := by
  simp only [resolve_live]
  split
  · simp [supersedes]
  · exact resolveLive_token view token current

theorem resolve_deleted_token :
    let blind := resolve { view with version := none } (.deleted current)
    resolve { view with version := some token } (.deleted current)
      = if (token != current) && supersedes blind then .fail .conflict true else blind := by
  have hmissing : supersedes (if view.op.requiresFeature && !view.hasFeature then .fail .invalid false
      else resolveMissing { view with version := none }) = false := by
    split
    · rfl
    · exact not_supersedes_resolveMissing _
  unfold resolve
  cases hop : view.op <;> simp only [hop] at hmissing
  case purge => simp [resolvePurge, mismatched, supersedes]
  case restore => simp [mismatched, supersedes]
  all_goals
    simp only [StoredState.liveVersion, hmissing, Bool.and_false, Bool.false_eq_true, if_false]
    rfl

/-- The policy for the conflicts of what is decided on a live feature is that of the intent. -/
theorem conflictPolicy_live {version : Option String} {decision : Decision}
    (h : Fits { view with version } (.live current) decision) :
    conflictPolicy view decision = view.ifConflict := by
  cases h <;> rfl

/-- What is changed or removed of a deleted state is purged or restored. -/
theorem conflictPolicy_deleted {version : Option String} {decision : Decision}
    (h : Fits { view with version } (.deleted current) decision) (hdecision : supersedes decision) :
    conflictPolicy view decision = .fail := by
  cases h with
  | purge => rfl
  | restore => rfl
  | create => cases hdecision
  | retain => cases hdecision
  | fail => cases hdecision

/-- A token that is not that of the stored state makes a difference to a change or a removal of that
    state, and then the policy for conflicts decides: the intent fails or retains the state, both
    with the current record, or does what it would do without a token. It always fails if it is to
    purge or to restore a deleted state. Everything else is decided as without a token, and so is
    all that is decided under the token of the stored state or with nothing stored. -/
theorem conflicts_are_left_to_policy (view : IntentView) (token : String) (stored : StoredState) :
    let blind := resolve { view with version := none } stored
    resolve { view with version := some token } stored
      = if stored.isOther token && supersedes blind then (conflictPolicy view blind).settle blind
        else blind := by
  intro blind
  have hfits : Fits { view with version := none } stored blind := fits_resolve _ stored
  cases stored with
  | absent => exact resolve_absent_token view token
  | live current =>
    rw [conflictPolicy_live view current hfits]
    exact resolve_live_token view token current
  | deleted current =>
    have hdeleted : resolve { view with version := some token } (.deleted current)
        = if (token != current) && supersedes blind then .fail .conflict true else blind :=
      resolve_deleted_token view token current
    rw [hdeleted]
    clear_value blind
    cases hdecision : supersedes blind with
    | false => simp only [Bool.and_false, Bool.false_eq_true, if_false]
    | true =>
      rw [conflictPolicy_deleted view current hfits hdecision]
      rfl

/-- A deleted state is not restored under another version by an intent that is to ignore conflicts,
    and not left alone by a purge that is to retain what it conflicts with. -/
theorem deleted_conflict_always_fails :
    let restoring : IntentView :=
      { op := .restore, ifExists := .retain, ifConflict := .replace, ifNotExists := .fail
        version := none, hasFeature := false }
    let purge : IntentView :=
      { op := .purge, ifExists := .purge, ifConflict := .retain, ifNotExists := .retain
        version := none, hasFeature := false }
    resolve restoring (.deleted "v2") = .restore ∧
      resolve { restoring with version := some "v1" } (.deleted "v2") = .fail .conflict true ∧
      IfConflict.replace.settle .restore = .restore ∧
      resolve purge (.deleted "v2") = .purge ∧
      resolve { purge with version := some "v1" } (.deleted "v2") = .fail .conflict true ∧
      IfConflict.retain.settle .purge = .retain true := by
  decide

end Resolution

/-! ## What an intent comes to that is not stopped -/

namespace Batch

variable {τ : Type} [FeatureTable τ] [RecordTable τ] {t : τ} {id : String}
  {written : Option StoredRecord}

/-- The step has the results of the effect, and of all records it has changed that of the id, to
    what the effect says. -/
structure Step.Has (step : Step τ) (before : τ) (id : String) (effect : Effect) : Prop where
  results : step.results = effect.results
  records : RecordTable.records step.table
    = Function.update (RecordTable.records before) id effect.record

theorem write_done {op : ExecutedOp} {record : StoredRecord}
    (h : (write op record t).written = .ok written) :
    ∃ version, written = some (stamp record version) ∧
      (write op record t).results = [.executed op (stamp record version).parts] ∧
      RecordTable.records (write op record t).table
        = Function.update (RecordTable.records t) record.key
            (some ((stamp record version).keeping (RecordTable.keep τ))) := by
  rw [write_eq] at h ⊢
  split at h
  · cases h
  · next version t₁ hversion =>
    split at h
    · cases h
    · next t₂ hsave =>
      cases h
      refine ⟨version, rfl, rfl, ?_⟩
      rw [RecordTable.save_ok hsave, RecordTable.nextVersion_records hversion]
      rfl

theorem purgeAfter_done {results : List ExecutedResult} {parts : Parts}
    (h : (Plan.purgeAfter results id parts t).written = .ok written) :
    (Plan.purgeAfter results id parts t).results = results ++ [.executed .purged parts] ∧
      RecordTable.records (Plan.purgeAfter results id parts t).table
        = Function.update (RecordTable.records t) id none := by
  unfold Plan.purgeAfter at h ⊢
  split at h
  · cases h
  · next t₁ hpurge => exact ⟨rfl, RecordTable.purge_ok hpurge⟩

/-- A plan that is not stopped has its effect. -/
theorem perform_done {plan : Plan} (hplan : plan.KeyedBy id)
    (h : (plan.perform id t).written = .ok written) :
    ∃ version, (plan.perform id t).Has t id
      (plan.effect (RecordTable.keep τ) (RecordTable.records t id) version) := by
  cases plan with
  | answer result => exact ⟨"", rfl, (Function.update_eq_self id _).symm⟩
  | purge parts =>
    obtain ⟨hresults, hrecords⟩ := purgeAfter_done h
    exact ⟨"", hresults, hrecords⟩
  | write op record thenPurge =>
    have hkey : record.key = id := by
      simp [StoredRecord.key, show record.parts.id = some id from hplan]
    simp only [Plan.perform] at h ⊢
    cases hwritten : (write op record t).written with
    | error failure => simp [hwritten] at h
    | ok first =>
      obtain ⟨version, rfl, hresults, hrecords⟩ := write_done hwritten
      rw [hkey] at hrecords
      -- The purge undoes the record of the deletion, so that its update is the only one left.
      cases thenPurge with
      | false => exact ⟨version, by simpa [hwritten] using ⟨hresults, hrecords⟩⟩
      | true =>
        simp only [hwritten, if_true] at h ⊢
        obtain ⟨hsecond, hpurged⟩ := purgeAfter_done h
        refine ⟨version, ?_, ?_⟩
        · rw [hsecond, hresults]
          rfl
        · rw [hpurged, hrecords, Function.update_idem]
          rfl

/-- An intent that is not stopped has the effect of its plan. -/
theorem execute_done {intent : WriteIntent fmt} (htarget : intent.target = some id)
    (hid : Identified (RecordTable.records t)) (h : (execute intent t).written = .ok written) :
    ∃ version, (execute intent t).Has t id
      ((Plan.make intent id (RecordTable.records t id)).effect (RecordTable.keep τ)
        (RecordTable.records t id) version) := by
  rw [execute_eq, htarget] at h ⊢
  simp only at h ⊢
  cases hload : FeatureTable.load id t with
  | mk loaded t₁ =>
    rw [hload] at h
    cases loaded with
    | error failure => cases h
    | ok stored =>
      obtain ⟨rfl, hrecords⟩ := RecordTable.load_ok hload
      have hkeyed := Plan.keyedBy_make intent (fun record => hid id record)
      obtain ⟨version, hhas⟩ := perform_done hkeyed h
      rw [hrecords] at hhas
      exact ⟨version, hhas.results, hhas.records.trans (by rw [hrecords])⟩

end Batch

/-! ## Policies for a live feature and for a missing one -/

namespace IfExists

/-- What the policy makes of a live record, with what the intent brings and under the version that
    a write gets. -/
def effect (keep : Body → Body) (id : String) (incoming : Parts) (record : StoredRecord)
    (version : String) : IfExists → Batch.Effect
  | .fail =>
    { results := [.rejected .alreadyExists (some id) (some record.parts)]
      record := some record, wrote := false }
  | .retain =>
    { results := [.retained (some id) (some record.parts)]
      record := some record, wrote := false }
  | .replace =>
    let updated := Batch.stamp { parts := incoming, deleted := false } version
    { results := [.executed .updated updated.parts]
      record := some (updated.keeping keep), wrote := true }
  | .delete =>
    let deleted := Batch.stamp { record with deleted := true } version
    { results := [.executed .deleted deleted.parts]
      record := some (deleted.keeping keep), wrote := true }
  | .purge =>
    let deleted := Batch.stamp { record with deleted := true } version
    { results := [.executed .deleted deleted.parts, .executed .purged deleted.parts]
      record := none, wrote := true }

/-- The policy as it takes effect. The operation alone says whether what has been deleted is purged
    as well. -/
def inEffect (op : WriteOp) : IfExists → IfExists
  | .delete | .purge => if op = .purge then .purge else .delete
  | .fail => .fail
  | .retain => .retain
  | .replace => .replace

end IfExists

namespace IfNotExists

/-- What the policy makes of an id that nothing is stored of. -/
def effect (keep : Body → Body) (id : String) (incoming : Parts) (version : String) :
    IfNotExists → Batch.Effect
  | .fail => { results := [.rejected .notFound (some id) none], record := none, wrote := false }
  | .retain => { results := [.retained (some id) none], record := none, wrote := false }
  | .create =>
    let created := Batch.stamp { parts := incoming, deleted := false } version
    { results := [.executed .created created.parts]
      record := some (created.keeping keep), wrote := true }

/-- The policy as it takes effect. A purge has nothing to do for an id that nothing is stored of. -/
def inEffect (op : WriteOp) (policy : IfNotExists) : IfNotExists :=
  if op = .purge then .retain else policy

end IfNotExists

/-- The intent has an id and a body without an error, and names no version. -/
structure WriteIntent.Tokenless (intent : WriteIntent fmt) (id : String) : Prop where
  target : intent.target = some id
  version : intent.version.1 = none
  error : intent.sync.codec.error = none
  body : intent.hasFeature = true

namespace WriteIntent.Tokenless

variable {intent : WriteIntent fmt} {id : String}

theorem effect_store (h : intent.Tokenless id) (op : ExecutedOp) (keep : Body → Body)
    (stored : Option StoredRecord) (version : String) :
    let record := Batch.stamp { parts := intent.sync.codec.parts.storedAs id, deleted := false } version
    (Batch.Plan.store op intent id).effect keep stored version
      = { results := [.executed op record.parts], record := some (record.keeping keep)
          wrote := true } := by
  have hvalid : intent.sync.codec.error.isSome = false := by rw [h.error]; rfl
  simp only [Batch.Plan.store, Batch.incomingParts_of_valid hvalid]
  rfl

/-- On a live record the policy takes effect that the intent has for features that exist. -/
theorem effect_live (h : intent.Tokenless id) {record : StoredRecord}
    (hlive : record.deleted = false) (keep : Body → Body) (version : String) :
    (Batch.Plan.make intent id (some record)).effect keep (some record) version
      = (intent.ifExists.inEffect intent.op).effect keep id (intent.sync.codec.parts.storedAs id)
          record version := by
  have hstate : StoredState.ofRecord? (some record) = .live (record.parts.version.getD "") := by
    simp [StoredState.ofRecord?, StoredRecord.state, hlive]
  have hversion : intent.view.1.version = none := h.version
  have hbody : intent.view.1.hasFeature = true := h.body
  have hpolicy : intent.view.1.ifExists = intent.ifExists := rfl
  simp only [Batch.Plan.make, hstate, Resolution.resolve_live, Resolution.resolveLive,
    Resolution.guarded_eq, Resolution.mismatched, hversion, hbody, hpolicy, Bool.not_true,
    Bool.and_false, Bool.false_eq_true, if_false, if_true]
  cases intent.ifExists with
  | fail => rfl
  | retain => rfl
  | replace => exact h.effect_store .updated keep _ version
  | delete =>
    by_cases hop : intent.op = .purge <;>
      simp [Batch.Plan.ofDecision, Batch.Plan.effect, IfExists.inEffect, IfExists.effect, hop]
  | purge =>
    by_cases hop : intent.op = .purge <;>
      simp [Batch.Plan.ofDecision, Batch.Plan.effect, IfExists.inEffect, IfExists.effect, hop]

/-- Where nothing is stored the policy takes effect that the intent has for missing features. -/
theorem effect_absent (h : intent.Tokenless id) (keep : Body → Body) (version : String) :
    (Batch.Plan.make intent id none).effect keep none version
      = (intent.ifNotExists.inEffect intent.op).effect keep id
          (intent.sync.codec.parts.storedAs id) version := by
  have hbody : intent.view.1.hasFeature = true := h.body
  have hpolicy : intent.view.1.ifNotExists = intent.ifNotExists := rfl
  have hresolve : Resolution.resolve intent.view.1 .absent
      = if intent.op = .purge then .retain false else Resolution.resolveMissing intent.view.1 := by
    have hop : intent.view.1.op = intent.op := rfl
    simp only [Resolution.resolve, hop, hbody]
    cases intent.op <;> rfl
  simp only [Batch.Plan.make, StoredState.ofRecord?, hresolve, IfNotExists.inEffect]
  split
  · rfl
  · simp only [Resolution.resolveMissing, hbody, hpolicy, if_true]
    cases intent.ifNotExists with
    | fail => rfl
    | retain => rfl
    | create => exact h.effect_store .created keep none version

end WriteIntent.Tokenless

/-- The policies of an intent that has a body and no token mean the same for every operation but
    a purge, except that the policy to purge is then no other than the policy to delete. On every
    table on which the intent is not stopped: a live feature is reported in an error, retained,
    updated, or deleted, by what the policy for features that exist says, and a missing one is
    reported as not found, retained as `null`, or created, by what the policy for missing features
    says. A purge purges whatever it deletes and retains a missing feature. No other record changes.
    On a table that does not fail the intent is never stopped. -/
theorem policies_decide {intent : WriteIntent fmt} {id : String} (h : intent.Tokenless id) :
    (∀ {τ : Type} [FeatureTable τ] [RecordTable τ] (t : τ), Identified (RecordTable.records t) →
      ∀ written, (Batch.execute intent t).written = .ok written →
        ∃ version,
          (∀ record, RecordTable.records t id = some record → record.deleted = false →
            (Batch.execute intent t).Has t id
              ((intent.ifExists.inEffect intent.op).effect (RecordTable.keep τ) id
                (intent.sync.codec.parts.storedAs id) record version)) ∧
          (RecordTable.records t id = none →
            (Batch.execute intent t).Has t id
              ((intent.ifNotExists.inEffect intent.op).effect (RecordTable.keep τ) id
                (intent.sync.codec.parts.storedAs id) version))) ∧
    ∀ {τ : Type} [FeatureTable τ] [SteadyTable τ] (t : τ), SteadyTable.sound t →
      Identified (RecordTable.records t) →
        ∃ written, (Batch.execute intent t).written = .ok written := by
  constructor
  · intro τ _ _ t hid written hwritten
    obtain ⟨version, hhas⟩ := Batch.execute_done h.target hid hwritten
    refine ⟨version, fun record hrecord hlive => ?_, fun hrecord => ?_⟩
    · rwa [hrecord, h.effect_live hlive] at hhas
    · rwa [hrecord, h.effect_absent] at hhas
  · intro τ _ _ t hsound hid
    obtain ⟨written, t', hexecute, -, -⟩ := SteadyTable.execute_ledger intent hsound hid
    exact ⟨written, by rw [hexecute]⟩

/-- A put that is to delete what exists deletes a live feature, and leaves its deleted state. -/
theorem policies_decide_of_deleting_put :
    let record : StoredRecord :=
      { parts := { id := some "a", version := some "t", json := some "[]" }, deleted := false }
    let store : MemoryStore := { records := Dictionary.empty.insert "a" record }
    let intent : WriteIntent .geo :=
      { (.ofCodec .put (.ofParts { id := some "a", json := some "[1]" }) : WriteIntent .geo) with
        ifExists := .delete }
    intent.Tokenless "a" ∧ SteadyTable.sound store ∧ Identified (RecordTable.records store) ∧
      ∃ version, (Batch.execute intent store).Has store "a"
        (IfExists.delete.effect (RecordTable.keep MemoryStore) "a"
          (intent.sync.codec.parts.storedAs "a") record version) := by
  intro record store intent
  have hintent : intent.Tokenless "a" := ⟨rfl, rfl, rfl, rfl⟩
  have hrecords : RecordTable.records store = Function.update (fun _ => none) "a" (some record) := by
    funext id
    simp only [RecordTable.records, MemoryStore.get, store, Dictionary.find?_insert,
      Dictionary.find?_empty, Function.update_apply, eq_comm]
  have hid : Identified (RecordTable.records store) := by
    intro id stored hstored
    rw [hrecords, Function.update_apply] at hstored
    split at hstored
    · next heq =>
      cases hstored
      rw [heq]
    · cases hstored
  have hstored : RecordTable.records store "a" = some record := by
    rw [hrecords, Function.update_self]
  refine ⟨hintent, trivial, hid, ?_⟩
  obtain ⟨decided, unstopped⟩ := policies_decide hintent
  obtain ⟨written, hwritten⟩ := unstopped store trivial hid
  obtain ⟨version, hlive, -⟩ := decided store hid written hwritten
  exact ⟨version, hlive record hstored rfl⟩

/-- An update that is to purge what exists leaves the deleted state. A purge that is only to delete
    what exists leaves nothing, and one that is to fail for what is missing does not fail. -/
theorem purge_policy_only_deletes :
    let record : StoredRecord :=
      { parts := { id := some "a", version := some "t", json := some "[]" }, deleted := false }
    let table : LimitedTable := { records := Dictionary.empty.insert "a" record }
    let intent (op : WriteOp) : WriteIntent .geo :=
      .ofCodec op (.ofParts { id := some "a", json := some "[1]" })
    let update := Batch.execute { intent .update with ifExists := .purge } table
    let purge := Batch.execute { intent .purge with ifExists := .delete } table
    let missing := Batch.execute { intent .purge with ifNotExists := .fail } ({} : LimitedTable)
    (update.results.map ExecutedResult.op = [.deleted] ∧
      (RecordTable.records update.table "a").map StoredRecord.deleted = some true) ∧
    (purge.results.map ExecutedResult.op = [.deleted, .purged] ∧
      (RecordTable.records purge.table "a").isNone) ∧
    missing.results.map ExecutedResult.op = [.retained] := by
  refine ⟨⟨?_, ?_⟩, ⟨?_, ?_⟩, ?_⟩ <;> decide

end FeatureStore
