-- SUMMARY: Deeds of a store, and the records that they leave: a feature that was stored last is the one that is there.
import FeatureStore.Proofs.Accounts
import FeatureStore.Proofs.Submission

/-!
# Deeds

A deed is an intent that a store has executed, or tried to, with the results that it has
reported for it; the rows of the outcome of a batch are the results of its deeds. A store
does its deeds one after the other, within a batch and from batch to batch.

`Leaves` says what deeds make of the records. An id that no deed reports a change of has
the record that it had before. An id that a feature was the last to be stored under has the
record of that feature, also where the body was left out of the result. It holds of one
deed, and what two lists of deeds leave can be put together, so it holds of any number of
them and wherever a batch has stopped.
-/

namespace FeatureStore

variable {fmt : Format}

/-- An intent that a store has executed, or tried to, and what was reported for it. -/
structure Deed where
  {fmt : Format}
  intent : WriteIntent fmt
  results : List ExecutedResult

/-! ## Changes and stored features -/

/-- The result reports a change of the feature of an id. -/
def ExecutedResult.Changes (id : String) (result : ExecutedResult) : Prop :=
  result.id = some id ∧ (result.op.writes ∨ result.op = .purged)

instance (id : String) (result : ExecutedResult) : Decidable (result.Changes id) :=
  inferInstanceAs (Decidable (_ ∧ _))

/-- The codec is that of a feature, perhaps with another version to guard it, whether it has
    been read or not. -/
def Codec.Carries (codec : Codec fmt) (v : fmt.Assembled) : Prop :=
  codec.sync = (ofFeature v).sync ∨ ∃ guard, codec.sync = (ofFeature v).setVersion guard

namespace Deed

def Changes (id : String) (deed : Deed) : Prop := ∃ result ∈ deed.results, result.Changes id

instance (id : String) (deed : Deed) : Decidable (deed.Changes id) :=
  inferInstanceAs (Decidable (∃ result ∈ deed.results, result.Changes id))

/-- The deed has stored a feature under an id, and its result reports the token. -/
inductive Stores (v : fmt.Assembled) (id token : String) : Deed → Prop
  | reported {intent : WriteIntent fmt} {results : List ExecutedResult} {result : ExecutedResult}
      (hcarries : intent.codec.Carries v) (hresult : result ∈ results)
      (hop : result.op = .created ∨ result.op = .updated) (hid : result.id = some id)
      (htoken : result.token = some token) : Stores v id token { intent, results }

/-- A feature was the last to be stored under an id: a deed has stored it, and no later one
    has changed the feature of the id. -/
def LastStored (deeds : List Deed) (v : fmt.Assembled) (id token : String) : Prop :=
  ∃ before deed after, deeds = before ++ deed :: after ∧ deed.Stores v id token ∧
    ∀ later ∈ after, ¬ later.Changes id

/-- What was stored last was stored by one of the later deeds, or else they have not changed
    the feature of the id. -/
theorem lastStored_append {xs ys : List Deed} {v : fmt.Assembled} {id token : String}
    (h : LastStored (xs ++ ys) v id token) :
    LastStored ys v id token ∨
      LastStored xs v id token ∧ ∀ later ∈ ys, ¬ later.Changes id := by
  obtain ⟨before, deed, after, hsplit, hstores, hlater⟩ := h
  rcases List.append_eq_append_iff.mp hsplit with ⟨middle, hbefore, hys⟩ | ⟨middle, hxs, hrest⟩
  · exact .inl ⟨middle, deed, after, hys, hstores, hlater⟩
  · cases middle with
    | nil => exact .inl ⟨[], deed, after, hrest.symm, hstores, hlater⟩
    | cons first rest =>
      obtain ⟨rfl, rfl⟩ := List.cons.inj hrest
      refine .inr ⟨⟨before, deed, rest, hxs, hstores, ?_⟩, ?_⟩
      · exact fun later hmem => hlater later (List.mem_append_left _ hmem)
      · exact fun later hmem => hlater later (List.mem_append_right _ hmem)

end Deed

/-! ## What is stored for a feature -/

/-- The parts of a feature as they are stored under a version: no operation is named, and the
    geometry is in binary form. -/
def Parts.stored (p : Parts) (version : String) : Parts :=
  { p with op := none, version := some version, geometry := p.geometry.withBinary }

namespace Codec

/-- Reading a codec of a feature takes the feature apart. -/
theorem sync_ofFeature (v : fmt.Assembled) :
    (ofFeature v : Codec fmt).sync =
      match fmt.disassemble v with
      | .ok p =>
        { parts := { p with op := none }, feature := some v, decoded := true, encoded := true }
      | .error e => { feature := some v, encoded := true, error := some e } := by
  cases hparts : fmt.disassemble v <;>
    simp [ofFeature, setFeature, sync, decode, hparts, Parts.onlyOp]

/-- A codec of a feature without an error has the parts of the feature, but for the version
    that guards it. -/
theorem Carries.parts_sync {codec : Codec fmt} {v : fmt.Assembled} (h : codec.Carries v)
    (herror : codec.sync.error = none) :
    ∃ p version, fmt.disassemble v = .ok p ∧ codec.sync.parts = { p with op := none, version } := by
  cases hparts : fmt.disassemble v with
  | error e =>
    rcases h with hsync | ⟨guard, hsync⟩ <;>
      simp [hsync, setVersion, edit, clearFeature, sync_ofFeature, hparts] at herror
  | ok p =>
    rcases h with hsync | ⟨guard, hsync⟩
    · exact ⟨p, p.version, rfl, by rw [hsync, sync_ofFeature, hparts]⟩
    · refine ⟨p, guard, rfl, ?_⟩
      rw [hsync, setVersion, edit, sync_ofFeature, hparts]
      rfl

end Codec

namespace Batch

/-- What is stored for an intent that carries a feature are the parts of the feature. -/
theorem stamp_incomingParts {intent : WriteIntent fmt} {v : fmt.Assembled}
    (h : intent.codec.Carries v) {id : String} {parts : Parts}
    (htarget : intent.target = some id) (hparts : incomingParts intent id = .ok parts)
    (token : String) :
    ∃ p, fmt.disassemble v = .ok p ∧ p.id = some id ∧
      stamp { parts, deleted := false } token = { parts := p.stored token, deleted := false } := by
  unfold incomingParts WriteIntent.parts at hparts
  split at hparts
  · cases hparts
  · next herror =>
    have hnone : intent.codec.sync.error = none := Option.not_isSome_iff_eq_none.mp herror
    obtain ⟨p, version, hdisassemble, hsync⟩ := h.parts_sync hnone
    have hid : p.id = some id := by
      have hsynced : intent.sync.codec.parts.id = p.id := by
        rw [WriteIntent.sync, hsync]
      obtain ⟨hid, -⟩ := Option.filter_eq_some_iff.mp htarget
      rw [← hsynced, hid]
    refine ⟨p, hdisassemble, hid, ?_⟩
    cases hparts
    simp only [WriteIntent.sync, hsync, stamp, Parts.stored, hid]

/-! ## One deed -/

variable {τ : Type} [FeatureTable τ]

/-- A plan to write under the operation of a store is the plan to store the feature. -/
theorem Plan.store_of_make {intent : WriteIntent fmt} {id : String} {stored : Option StoredRecord}
    {op : ExecutedOp} {record : StoredRecord} {thenPurge : Bool}
    (h : Plan.make intent id stored = .write op record thenPurge)
    (hop : op = .created ∨ op = .updated) :
    ∃ parts, incomingParts intent id = .ok parts ∧ record = { parts, deleted := false } ∧
      thenPurge = false := by
  -- A store whose parts are refused is planned as an answer and not as a write.
  have hstore : ∀ op', Plan.store op' intent id = .write op record thenPurge →
      ∃ parts, incomingParts intent id = .ok parts ∧ record = { parts, deleted := false } ∧
        thenPurge = false := by
    intro op' hplan
    unfold Plan.store at hplan
    split at hplan
    · cases hplan
    · next parts hparts =>
      cases hplan
      exact ⟨parts, hparts, rfl, rfl⟩
  unfold Plan.make Plan.ofDecision at h
  cases hdecision : Resolution.resolve intent.view.1 (.ofRecord? stored) with
  | create => exact hstore .created (by simpa [hdecision] using h)
  | update => exact hstore .updated (by simpa [hdecision] using h)
  | delete =>
    simp only [hdecision, Plan.write.injEq] at h
    simp [← h.1] at hop
  | restore =>
    simp only [hdecision, Plan.write.injEq] at h
    simp [← h.1] at hop
  | retain withCurrent => simp [hdecision] at h
  | fail cause withCurrent => simp [hdecision] at h
  | purge => simp [hdecision] at h

/-- Only the plan to store a feature has a result that says so. -/
theorem exists_store_of_mem_perform {intent : WriteIntent fmt} {id : String}
    {stored : Option StoredRecord} {table : τ} {result : ExecutedResult}
    (hresult : result ∈ ((Plan.make intent id stored).perform id table).results)
    (hop : result.op = .created ∨ result.op = .updated) :
    ∃ parts, incomingParts intent id = .ok parts ∧
      (Plan.make intent id stored).perform id table
        = write result.op { parts, deleted := false } table := by
  have hnotPurged : result.op ≠ .purged := by rcases hop with hop | hop <;> simp [hop]
  cases hplan : Plan.make intent id stored with
  | answer answered =>
    rw [hplan] at hresult
    obtain rfl := List.mem_singleton.mp hresult
    have hhonest := Plan.honest_make intent id stored
    rw [hplan] at hhonest
    rcases hhonest with hidle | hidle <;> simp [hidle] at hop
  | purge parts =>
    rw [hplan] at hresult
    rcases mem_of_mem_purgeAfter hresult with hmem | hpurged
    · cases hmem
    · exact absurd hpurged hnotPurged
  | write op record thenPurge =>
    rw [hplan] at hresult
    -- The result is no purge, so it is that of the write and not of what may follow it.
    have hwritten : result ∈ (write op record table).results := by
      simp only [Plan.perform] at hresult
      split at hresult
      · split at hresult
        · exact (mem_of_mem_purgeAfter hresult).resolve_right hnotPurged
        · exact hresult
      · exact hresult
    have hsame : result.op = op := op_of_mem_write hwritten
    obtain ⟨parts, hparts, rfl, rfl⟩ := Plan.store_of_make hplan (hsame ▸ hop)
    exact ⟨parts, hparts, hsame ▸ perform_write op _ id table⟩

variable [RecordTable τ]

/-- A write with a result has put the record that it reports in place. -/
theorem records_write {op : ExecutedOp} {record : StoredRecord} {table : τ}
    {result : ExecutedResult} (hresult : result ∈ (write op record table).results) :
    ∃ version, result = .executed op (stamp record version).parts ∧
      RecordTable.records (write op record table).table
        = Function.update (RecordTable.records table) record.key
            (some ((stamp record version).keeping (RecordTable.keep τ))) := by
  rw [write_eq] at hresult ⊢
  split at hresult
  · cases hresult
  · next version table₁ hversion =>
    split at hresult
    · cases hresult
    · next table₂ hsave =>
      refine ⟨version, List.mem_singleton.mp hresult, ?_⟩
      have hrecords := RecordTable.save_ok hsave
      rw [RecordTable.nextVersion_records hversion] at hrecords
      exact hrecords

end Batch

/-! ## What deeds leave -/

/-- A result that reports no change of an id leaves its account alone. -/
theorem tell_of_unchanged {keep : Body → Body} {bare : Bool} {accounts : String → Option Account}
    {id : String} {result : ExecutedResult} (h : ¬ result.Changes id) :
    result.tell keep bare accounts id = accounts id := by
  cases hid : result.id with
  | none => cases hop : result.op <;> simp [ExecutedResult.tell, hop, hid]
  | some other =>
    by_cases hother : other = id
    · subst hother
      cases hop : result.op <;>
        simp [ExecutedResult.Changes, ExecutedResult.tell, ExecutedOp.writes, hop, hid] at h ⊢
    · cases hop : result.op <;>
        simp [ExecutedResult.tell, hop, hid, Function.update_of_ne (Ne.symm hother)]

theorem replay_of_unchanged {keep : Body → Body} {bare : Nat → Bool}
    {accounts : String → Option Account} {id : String} {results : List ExecutedResult}
    (h : ∀ result ∈ results, ¬ result.Changes id) :
    replay keep bare accounts results id = accounts id := by
  induction results generalizing accounts with
  | nil => rfl
  | cons result rest ih =>
    have hrest := fun other hmem => h other (List.mem_cons_of_mem _ hmem)
    have hfirst := h result List.mem_cons_self
    calc replay keep bare accounts (result :: rest) id
        = result.tell keep (bare result.intent) accounts id := ih hrest
      _ = accounts id := tell_of_unchanged hfirst

/-- A full account describes one record only. -/
theorem Account.Describes.eq {record other : StoredRecord}
    (h : (Account.ofRecord record).Describes other) : other = record := by
  obtain ⟨hdeleted, hid, hversion, hbody⟩ := h
  have hsame := hbody _ rfl
  obtain ⟨parts, deleted⟩ := record
  obtain ⟨⟨op, id, version, featureType, propertiesType, json, geometry⟩, otherDeleted⟩ := other
  simp_all [Account.ofRecord, Parts.body]

theorem Account.eq_of_rel {record other : Option StoredRecord}
    (h : Option.Rel Account.Describes (record.map Account.ofRecord) other) : other = record := by
  cases record with
  | none =>
    cases h
    rfl
  | some record =>
    cases h with
    | some hdescribes => rw [hdescribes.eq]

/-- The records that deeds leave of those that they met. -/
structure Leaves (keep : Body → Body) (before : String → Option StoredRecord) (deeds : List Deed)
    (after : String → Option StoredRecord) : Prop where
  identified : Identified after
  /-- An id that no deed has changed has the record that it had. -/
  unchanged : ∀ id, (∀ deed ∈ deeds, ¬ deed.Changes id) → after id = before id
  /-- A feature that was stored last is there. -/
  stored : ∀ {fmt : Format} {v : fmt.Assembled} {id token : String},
    Deed.LastStored deeds v id token →
      ∃ p, fmt.disassemble v = .ok p ∧ p.id = some id ∧
        after id = some (StoredRecord.keeping { parts := p.stored token, deleted := false } keep)

namespace Leaves

variable {keep : Body → Body} {before middle after : String → Option StoredRecord}
  {xs ys : List Deed}

theorem nil (h : Identified before) : Leaves keep before [] before := by
  refine ⟨h, fun _ _ => rfl, ?_⟩
  rintro fmt v id token ⟨earlier, deed, later, hsplit, -⟩
  simp at hsplit

/-- What two lists of deeds leave, one after the other. -/
theorem append (hxs : Leaves keep before xs middle) (hys : Leaves keep middle ys after) :
    Leaves keep before (xs ++ ys) after := by
  refine ⟨hys.identified, fun id h => ?_, fun h => ?_⟩
  · have hlast := hys.unchanged id (fun deed hmem => h deed (List.mem_append_right _ hmem))
    have hfirst := hxs.unchanged id (fun deed hmem => h deed (List.mem_append_left _ hmem))
    exact hlast.trans hfirst
  · rcases Deed.lastStored_append h with hlast | ⟨hfirst, hunchanged⟩
    · exact hys.stored hlast
    · rw [hys.unchanged _ hunchanged]
      exact hxs.stored hfirst

end Leaves

namespace Batch

variable {τ : Type} [FeatureTable τ] [RecordTable τ]

def Attempt.deed (attempt : Attempt fmt τ) : Deed :=
  { intent := attempt.intent, results := attempt.results }

omit [RecordTable τ] in
/-- A reported result is one of the step, under the same operation, id and token. -/
theorem Attempt.exists_original {attempt : Attempt fmt τ} {result : ExecutedResult}
    (h : result ∈ attempt.results) :
    ∃ original ∈ attempt.step.results, original.op = result.op ∧ original.id = result.id ∧
      original.token = result.token := by
  unfold Attempt.results at h
  split at h
  · rw [List.map_map] at h
    obtain ⟨original, horiginal, rfl⟩ := List.mem_map.mp h
    exact ⟨original, horiginal, rfl, rfl, by simp⟩
  · obtain ⟨original, horiginal, rfl⟩ := List.mem_map.mp h
    exact ⟨original, horiginal, rfl, rfl, rfl⟩

/-- An intent that is executed with the result of a store has stored its feature. -/
theorem records_execute_store {intent : WriteIntent fmt} {table : τ} {result : ExecutedResult}
    (hresult : result ∈ (execute intent table).results)
    (hop : result.op = .created ∨ result.op = .updated) :
    ∃ id parts version, intent.target = some id ∧ incomingParts intent id = .ok parts ∧
      result.id = some id ∧ result.token = some version ∧
      RecordTable.records (execute intent table).table id
        = some (StoredRecord.keeping (stamp { parts, deleted := false } version)
            (RecordTable.keep τ)) := by
  rw [execute_eq] at hresult ⊢
  cases htarget : intent.target with
  | none =>
    rw [htarget] at hresult
    obtain rfl := List.mem_singleton.mp hresult
    simp [ExecutedResult.rejected] at hop
  | some id =>
    simp only [htarget] at hresult ⊢
    cases hload : FeatureTable.load id table with
    | mk loaded table₁ =>
      rw [hload] at hresult
      cases loaded with
      | error failure => cases hresult
      | ok stored =>
        have hperformed : result ∈ ((Plan.make intent id stored).perform id table₁).results := hresult
        obtain ⟨parts, hparts, hperform⟩ := exists_store_of_mem_perform hperformed hop
        rw [hperform] at hperformed
        obtain ⟨version, hreported, hrecords⟩ := records_write hperformed
        have hid : parts.id = some id := Plan.id_incomingParts hparts
        have hkey : StoredRecord.key { parts, deleted := false } = id := by
          simp [StoredRecord.key, hid]
        have hwrites : result.op.writes = true := by
          rcases hop with hop | hop <;> simp [hop, ExecutedOp.writes]
        refine ⟨id, parts, version, rfl, hparts, ?_, ?_, ?_⟩
        · rw [hreported]
          exact hid
        · rw [hreported, ExecutedResult.token_executed, if_pos hwrites]
          rfl
        · simp only [hperform, hrecords, hkey, Function.update_self]

/-- The feature that a deed has stored is there. -/
theorem stored_deed {attempt : Attempt fmt τ} {other : Format} {v : other.Assembled}
    {id token : String} (h : attempt.deed.Stores v id token) :
    ∃ p, other.disassemble v = .ok p ∧ p.id = some id ∧
      RecordTable.records attempt.step.table id
        = some (StoredRecord.keeping { parts := p.stored token, deleted := false }
            (RecordTable.keep τ)) := by
  generalize hdeed : attempt.deed = deed at h
  obtain ⟨hcarries, hresult, hop, hid, htoken⟩ := h
  cases hdeed
  obtain ⟨original, horiginal, hsameOp, hsameId, hsameToken⟩ := Attempt.exists_original hresult
  obtain ⟨target, parts, version, htarget, hparts, htargetId, hversion, hrecords⟩ :=
    records_execute_store horiginal (hsameOp ▸ hop)
  have hsame : target = id := by
    rw [hsameId, hid] at htargetId
    exact (Option.some.inj htargetId).symm
  have hsameVersion : version = token := by
    rw [hsameToken, htoken] at hversion
    exact (Option.some.inj hversion).symm
  subst hsame hsameVersion
  obtain ⟨p, hdisassemble, hp, hstamp⟩ := stamp_incomingParts hcarries htarget hparts version
  exact ⟨p, hdisassemble, hp, hstamp ▸ hrecords⟩

/-- One deed leaves every other id alone, and the feature that it has stored. -/
theorem leaves_deed {attempt : Attempt fmt τ} (h : Identified (RecordTable.records attempt.before)) :
    Leaves (RecordTable.keep τ) (RecordTable.records attempt.before) [attempt.deed]
      (RecordTable.records attempt.step.table) := by
  obtain ⟨report, hresults, hreport⟩ := attempt.results_eq_map
  have htold : attempt.step.Told (fun id => (RecordTable.records attempt.before id).map
      Account.ofRecord) attempt.place (fun _ => false) := told_execute (Tells.refl h) attempt.intent
  refine ⟨htold.identified, fun id hunchanged => ?_, fun hlast => ?_⟩
  · have hquiet : ∀ result ∈ attempt.step.results.map (ExecutedResult.reported attempt.place false),
        ¬ result.Changes id := by
      intro result hresult hchanges
      obtain ⟨original, horiginal, rfl⟩ := List.mem_map.mp hresult
      have hmem : report original ∈ attempt.results := hresults ▸ List.mem_map_of_mem horiginal
      refine hunchanged attempt.deed List.mem_cons_self ⟨report original, hmem, ?_⟩
      simpa [ExecutedResult.Changes, hreport] using hchanges
    have hdescribes := htold.describes id
    rw [replay_of_unchanged hquiet] at hdescribes
    exact Account.eq_of_rel hdescribes
  · obtain ⟨earlier, deed, later, hsplit, hstores, -⟩ := hlast
    obtain ⟨rfl, hdeed, rfl⟩ : earlier = [] ∧ attempt.deed = deed ∧ later = [] := by
      cases earlier with
      | nil => simpa using hsplit
      | cons first rest => simp at hsplit
    subst hdeed
    exact stored_deed hstores

/-- A batch leaves what its deeds leave, wherever it has stopped. -/
theorem leaves_attempts {place : Nat} {table : τ} (agenda : List (Nat × WriteIntent fmt))
    (h : Identified (RecordTable.records table)) :
    Leaves (RecordTable.keep τ) (RecordTable.records table)
      ((attempts place table agenda).map Attempt.deed)
      (RecordTable.records (executeFrom place table (agenda.map Prod.snd)).2) := by
  induction agenda generalizing place table with
  | nil => exact .nil h
  | cons entry rest ih =>
    obtain ⟨submitted, intent⟩ := entry
    let attempt : Attempt fmt τ := { submitted, place, intent, before := table }
    have hbefore : Identified (RecordTable.records attempt.before) := h
    have hfirst := leaves_deed hbefore
    cases hwritten : (execute intent table).written with
    | error failure =>
      rw [attempts_cons_of_error hwritten, List.map_cons, List.map_cons,
        executeFrom_cons_of_error hwritten]
      exact hfirst
    | ok written =>
      rw [attempts_cons_of_ok hwritten, List.map_cons, List.map_cons,
        executeFrom_cons_of_ok hwritten]
      exact hfirst.append (ih hfirst.identified)

/-- Executing a request leaves what its deeds leave. -/
theorem leaves_request {σ : Type} (config : StoreConfig) (request : WriteRequest fmt) {table : τ}
    (h : Identified (RecordTable.records table)) :
    let done : WriteOutcome σ fmt × τ := executeRequest config request table
    Leaves (RecordTable.keep τ) (RecordTable.records table)
      ((requestAttempts config request table).map Attempt.deed) (RecordTable.records done.2) := by
  intro done
  have htable : done.2 = (executeFrom 0 table ((config.agenda request).map Prod.snd)).2 := by
    rw [← applyBatch_arrange]
    rfl
  rw [htable]
  exact leaves_attempts (config.agenda request) h

end Batch

end FeatureStore
