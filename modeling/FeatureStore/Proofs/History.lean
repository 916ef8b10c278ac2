-- SUMMARY: Histories: the changes that results report, and the tokens that ids hold after them.
import FeatureStore.Proofs.Decisions
import FeatureStore.Proofs.Tokens

/-!
# Histories

A result that reports a new state or a purge is a change of its id. Replaying changes
says which token each id holds, and `Change.lastWrote_of_replay` finds the change that
a held token comes from: it is the last one of that id.

An event is an intent with its results. It respects the tokens held before it if, being
guarded, it has replaced or removed a state only under the token of that state. On a
steady table every event of a batch does so, and replaying the events gives the tokens
that the records carry in the end.
-/

namespace FeatureStore

variable {fmt : Format}

/-! ## Changes -/

/-- What has happened to an id. -/
inductive Change
  /-- A state was written under a token. -/
  | wrote (id token : String)
  | purged (id : String)

namespace Change

def id : Change → String
  | wrote id _ | purged id => id

def token : Change → Option String
  | wrote _ token => some token
  | purged _ => none

/-- The tokens held after changes. -/
def replay (held : String → Option String) : List Change → String → Option String
  | [] => held
  | change :: rest => replay (Function.update held change.id change.token) rest

@[simp] theorem replay_append (held : String → Option String) (xs ys : List Change) :
    replay held (xs ++ ys) = replay (replay held xs) ys := by
  induction xs generalizing held with
  | nil => rfl
  | cons change rest ih => exact ih _

/-- The last change of the id wrote a state under the token. -/
def LastWrote (changes : List Change) (id token : String) : Prop :=
  ∃ before after, changes = before ++ wrote id token :: after ∧ ∀ change ∈ after, change.id ≠ id

/-- A token that is held was written by the last change of its id, unless it was held
    from the start. -/
theorem lastWrote_or_of_replay {held : String → Option String} {changes : List Change}
    {id token : String} (h : replay held changes id = some token) :
    LastWrote changes id token ∨ (held id = some token ∧ ∀ change ∈ changes, change.id ≠ id) := by
  induction changes generalizing held with
  | nil => exact .inr ⟨h, by simp⟩
  | cons change rest ih =>
    rcases ih h with ⟨before, after, rfl, hafter⟩ | ⟨hheld, hrest⟩
    · exact .inl ⟨change :: before, after, rfl, hafter⟩
    · by_cases hid : change.id = id
      · subst hid
        rw [Function.update_self] at hheld
        cases change with
        | wrote id' token' =>
          cases hheld
          exact .inl ⟨[], rest, rfl, hrest⟩
        | purged id' => cases hheld
      · rw [Function.update_of_ne (Ne.symm hid)] at hheld
        refine .inr ⟨hheld, ?_⟩
        intro other hother
        rcases List.mem_cons.mp hother with rfl | hother
        · exact hid
        · exact hrest other hother

theorem lastWrote_of_replay {changes : List Change} {id token : String}
    (h : replay (fun _ => none) changes id = some token) : LastWrote changes id token := by
  rcases lastWrote_or_of_replay h with hlast | ⟨hheld, -⟩
  · exact hlast
  · cases hheld

/-- Among the changes there is one with the token. It wrote a state of the id, and no
    later one is a change of the id. -/
def OnlyWrite (changes : List Change) (id token : String) : Prop :=
  ∃ before after, changes = before ++ wrote id token :: after ∧
    (∀ change ∈ after, change.id ≠ id) ∧ ∀ change ∈ before ++ after, change.token ≠ some token

theorem LastWrote.onlyWrite {changes : List Change} {id token : String}
    (h : LastWrote changes id token) (hnodup : (changes.filterMap Change.token).Nodup) :
    OnlyWrite changes id token := by
  obtain ⟨before, after, rfl, hafter⟩ := h
  refine ⟨before, after, rfl, hafter, ?_⟩
  have hwrote : (wrote id token).token = some token := rfl
  rw [List.filterMap_append, List.filterMap_cons_some hwrote] at hnodup
  obtain ⟨-, hrest, hdisjoint⟩ := List.nodup_append.mp hnodup
  intro change hchange htoken
  rcases List.mem_append.mp hchange with hbefore | hlater
  · exact hdisjoint token (List.mem_filterMap.mpr ⟨change, hbefore, htoken⟩) token
      List.mem_cons_self rfl
  · exact (List.nodup_cons.mp hrest).1 (List.mem_filterMap.mpr ⟨change, hlater, htoken⟩)

end Change

/-! ## The changes that results report -/

namespace ExecutedResult

/-- The change that a result reports, if it reports one. -/
def change (result : ExecutedResult) : Option Change :=
  result.id.bind (fun id =>
    if result.op = .purged then some (.purged id) else result.token.map (.wrote id))

theorem change_forIntent (result : ExecutedResult) (place : Nat) :
    (result.forIntent place).change = result.change := rfl

@[simp] theorem change_withoutBody (result : ExecutedResult) :
    result.withoutBody.change = result.change := by
  simp only [change, token_withoutBody]
  rfl

theorem change_eq_none {result : ExecutedResult} (h : result.op = .retained ∨ result.op = .error) :
    result.change = none := by
  have hop : result.op ≠ .purged := by rcases h with h | h <;> simp [h]
  simp [change, token_eq_none h, hop]

theorem change_written {op : ExecutedOp} (hop : op.writes) {parts : Parts} {id token : String}
    (hid : parts.id = some id) (htoken : parts.version = some token) :
    (executed op parts).change = some (.wrote id token) := by
  have hne : op ≠ .purged := by
    rintro rfl
    cases hop
  have hresult : (executed op parts).id = some id := hid
  have hexecuted : (executed op parts).op ≠ .purged := hne
  simp [change, hresult, hexecuted, token_executed, hop, htoken]

theorem change_purged {parts : Parts} {id : String} (hid : parts.id = some id) :
    (executed .purged parts).change = some (.purged id) := by
  have hresult : (executed .purged parts).id = some id := hid
  simp [change, hresult, show (executed .purged parts).op = .purged from rfl]

end ExecutedResult

/-- The token that each id holds in records. -/
def heldBy (records : String → Option StoredRecord) (id : String) : Option String :=
  (records id).bind (fun record => record.parts.version)

namespace Batch.Plan

/-- The changes that a plan for an id makes. -/
def changes (id version : String) : Plan → List Change
  | answer _ => []
  | write _ _ thenPurge => .wrote id version :: if thenPurge then [.purged id] else []
  | purge _ => [.purged id]

/-- The results of a plan report the changes that it makes. -/
theorem changes_effect {plan : Plan} {id : String} (hkeyed : plan.KeyedBy id)
    (hlabelled : plan.Labelled) (keep : Body → Body) (stored : Option StoredRecord)
    (version : String) :
    (plan.effect keep stored version).results.filterMap ExecutedResult.change
      = plan.changes id version := by
  cases plan with
  | answer result =>
    simp only [effect, List.filterMap_cons, ExecutedResult.change_eq_none hlabelled]
    rfl
  | purge parts =>
    simp only [effect, List.filterMap_cons, ExecutedResult.change_purged hkeyed]
    rfl
  | write op record thenPurge =>
    have hid : (stamp record version).parts.id = some id := hkeyed
    have hwritten := ExecutedResult.change_written hlabelled hid rfl
    cases thenPurge with
    | false =>
      simp only [effect, Bool.false_eq_true, if_false, List.filterMap_cons, hwritten]
      rfl
    | true =>
      simp only [effect, if_true, List.filterMap_cons, hwritten, ExecutedResult.change_purged hid]
      rfl

/-- Every token among the results is that of a change. -/
theorem token_changes {plan : Plan} (hlabelled : plan.Labelled) (keep : Body → Body)
    (stored : Option StoredRecord) (id version : String) :
    (plan.changes id version).filterMap Change.token
      = (plan.effect keep stored version).results.filterMap ExecutedResult.token := by
  rw [token_effect hlabelled]
  cases plan with
  | answer result => rfl
  | purge parts => rfl
  | write op record thenPurge => cases thenPurge <;> rfl

/-- The changes of a plan leave the id with the token of its record. -/
theorem replay_changes (plan : Plan) (keep : Body → Body) (id version : String)
    (records : String → Option StoredRecord) :
    heldBy (Function.update records id (plan.effect keep (records id) version).record)
      = Change.replay (heldBy records) (plan.changes id version) := by
  have hheld : ∀ record : Option StoredRecord, heldBy (Function.update records id record)
      = Function.update (heldBy records) id (record.bind (fun record => record.parts.version)) := by
    intro record
    funext other
    simp only [heldBy, Function.update_apply]
    split <;> rfl
  rw [hheld]
  cases plan with
  | answer result => exact Function.update_eq_self id (heldBy records)
  | purge parts => rfl
  | write op record thenPurge =>
    cases thenPurge with
    | false => rfl
    | true => exact (Function.update_idem _ _ _).symm

/-- What a plan stores carries a version if what was stored did. -/
theorem versioned_effect (plan : Plan) (keep : Body → Body) {stored : Option StoredRecord}
    (version : String) (h : ∀ record, stored = some record → record.parts.version.isSome) :
    ∀ record, (plan.effect keep stored version).record = some record →
      record.parts.version.isSome := by
  intro record hrecord
  cases plan with
  | answer result => exact h record hrecord
  | purge parts => cases hrecord
  | write op written thenPurge =>
    cases thenPurge with
    | false =>
      cases hrecord
      rfl
    | true => cases hrecord

end Batch.Plan

/-! ## Guards -/

/-- Whether the operation takes the place of a state, or removes one. -/
def ExecutedOp.supersedes : ExecutedOp → Bool
  | .updated | .deleted | .restored | .purged => true
  | .read | .retained | .created | .error => false

/-- An intent with its results, as they are reported. -/
structure Event where
  /-- What the resolution looked at in the intent. -/
  view : IntentView
  results : List ExecutedResult

namespace Event

def changes (event : Event) : List Change := event.results.filterMap ExecutedResult.change

/-- If the intent fails on conflicts, then what it changed or removed was held under the
    token that it carries. -/
def Respects (event : Event) (held : String → Option String) : Prop :=
  event.view.ifConflict = .fail → ∀ token, event.view.version = some token →
    ∀ result ∈ event.results, result.op.supersedes →
      ∃ id, result.id = some id ∧ held id = some token

/-- Each event respects the tokens held when its intent is executed. -/
def AllRespect (held : String → Option String) : List Event → Prop
  | [] => True
  | event :: rest => event.Respects held ∧ AllRespect (Change.replay held event.changes) rest

theorem allRespect_append {held : String → Option String} {xs ys : List Event} :
    AllRespect held (xs ++ ys) ↔
      AllRespect held xs ∧ AllRespect (Change.replay held (xs.flatMap changes)) ys := by
  induction xs generalizing held with
  | nil => simp [AllRespect, Change.replay]
  | cons event rest ih =>
    simp only [List.cons_append, AllRespect, List.flatMap_cons, Change.replay_append, ih, and_assoc]

/-- Reporting results of another place, or without bodies, makes no difference. -/
theorem respects_map {view : IntentView} {results : List ExecutedResult}
    {held : String → Option String} (h : Respects { view, results } held)
    {f : ExecutedResult → ExecutedResult} (hf : ∀ r, (f r).op = r.op ∧ (f r).id = r.id) :
    Respects { view, results := results.map f } held := by
  intro hfail token htoken result hresult hop
  obtain ⟨original, horiginal, rfl⟩ := List.mem_map.mp hresult
  rw [(hf original).1] at hop
  rw [(hf original).2]
  exact h hfail token htoken original horiginal hop

end Event

namespace Batch.Plan

/-- Whether a plan takes the place of a state, or removes one. -/
def supersedes : Plan → Bool
  | answer _ => false
  | write op _ thenPurge => op.supersedes || thenPurge
  | purge _ => true

theorem supersedes_of_effect {plan : Plan} {id : String} (hkeyed : plan.KeyedBy id)
    (hlabelled : plan.Labelled) {keep : Body → Body} {stored : Option StoredRecord}
    {version : String} {result : ExecutedResult}
    (hresult : result ∈ (plan.effect keep stored version).results) (hop : result.op.supersedes) :
    result.id = some id ∧ plan.supersedes := by
  cases plan with
  | answer answered =>
    obtain rfl := List.mem_singleton.mp hresult
    rcases hlabelled with h | h <;> simp [h, ExecutedOp.supersedes] at hop
  | purge parts =>
    obtain rfl := List.mem_singleton.mp hresult
    exact ⟨hkeyed, rfl⟩
  | write op record thenPurge =>
    cases thenPurge with
    | false =>
      obtain rfl := List.mem_singleton.mp hresult
      have hsupersedes : op.supersedes := hop
      exact ⟨hkeyed, by simp [supersedes, hsupersedes]⟩
    | true =>
      refine ⟨?_, by simp [supersedes]⟩
      rcases List.mem_cons.mp hresult with rfl | hresult
      · exact hkeyed
      · obtain rfl := List.mem_singleton.mp hresult
        exact hkeyed

theorem supersedes_ofDecision {intent : WriteIntent fmt} {id : String}
    {stored : Option StoredRecord} {decision : Decision}
    (h : (ofDecision intent id stored decision).supersedes) : Resolution.supersedes decision := by
  cases decision with
  | retain withCurrent => cases h
  | fail cause withCurrent => cases h
  | create =>
    simp only [ofDecision, store] at h
    split at h
    · cases h
    · cases h
  | update => rfl
  | delete => rfl
  | restore => rfl
  | purge => rfl

/-- What replaces or removes the state of a feature respects the token of that state. -/
theorem respects_effect (intent : WriteIntent fmt) {id : String}
    {records : String → Option StoredRecord} (hid : Identified records)
    (hversion : Versioned records) (keep : Body → Body) (version : String) :
    let effect := (make intent id (records id)).effect keep (records id) version
    Event.Respects { view := intent.view.1, results := effect.results } (heldBy records) := by
  intro effect hfail token htoken result hresult hop
  have hkeyed := keyedBy_make intent (fun record => hid id record)
  obtain ⟨hresultId, hplan⟩ := supersedes_of_effect hkeyed (labelled_make intent id _) hresult hop
  obtain ⟨stored, hstored, hpermits⟩ :=
    (Resolution.fits_resolve intent.view.1 (.ofRecord? (records id))).permits
      (supersedes_ofDecision hplan)
  refine ⟨id, hresultId, ?_⟩
  cases hrecord : records id with
  | none => simp [hrecord, StoredState.ofRecord?] at hstored
  | some record =>
    obtain ⟨held, hheld⟩ := Option.isSome_iff_exists.mp (hversion id record hrecord)
    have hstate : stored = held := by
      simp only [hrecord, StoredState.ofRecord?, StoredRecord.state, hheld, Option.getD_some]
        at hstored
      rcases hstored with h | h <;> split at h <;> cases h <;> rfl
    simp [heldBy, hrecord, hheld, hpermits hfail token htoken, hstate]

end Batch.Plan

/-! ## Histories of a batch -/

namespace Ledger

variable (keep : Body → Body)

/-- Executing an intent respects the tokens of the records, moves them as its results
    report, and leaves every record with a token. -/
theorem history_execute (intent : WriteIntent fmt) (ledger : Ledger)
    (hid : Identified ledger.records) (hversion : Versioned ledger.records) :
    let done := ledger.execute keep intent
    Event.Respects { view := intent.view.1, results := done.1 } (heldBy ledger.records) ∧
      heldBy done.2.records
        = Change.replay (heldBy ledger.records) (done.1.filterMap ExecutedResult.change) ∧
      (done.1.filterMap ExecutedResult.change).filterMap Change.token
        = done.1.filterMap ExecutedResult.token ∧
      Versioned done.2.records := by
  unfold execute
  cases intent.target with
  | none =>
    refine ⟨?_, rfl, rfl, hversion⟩
    intro _ _ _ result hresult hop
    obtain rfl := List.mem_singleton.mp hresult
    cases hop
  | some id =>
    -- The plan is for this id, so that nothing moves but its record.
    have hkeyed := Batch.Plan.keyedBy_make intent (fun record => hid id record)
    have hlabelled := Batch.Plan.labelled_make intent id (ledger.records id)
    have hchanges : (ledger.effect keep intent id).results.filterMap ExecutedResult.change
        = (Batch.Plan.make intent id (ledger.records id)).changes id ledger.versions.head :=
      Batch.Plan.changes_effect hkeyed hlabelled keep _ _
    refine ⟨?_, ?_, ?_, ?_⟩
    · exact Batch.Plan.respects_effect intent hid hversion keep ledger.versions.head
    · rw [hchanges]
      exact Batch.Plan.replay_changes _ keep id ledger.versions.head ledger.records
    · rw [hchanges]
      exact Batch.Plan.token_changes hlabelled keep _ id ledger.versions.head
    · intro other record hrecord
      simp only [after, Function.update_apply] at hrecord
      split at hrecord
      · exact Batch.Plan.versioned_effect _ keep _ (fun record => hversion id record) record hrecord
      · exact hversion other record hrecord

end Ledger

namespace Batch

variable {τ : Type} [FeatureTable τ]

def Attempt.event (attempt : Attempt fmt τ) : Event :=
  { view := attempt.intent.view.1, results := attempt.results }

theorem Attempt.changes_event (attempt : Attempt fmt τ) :
    attempt.event.changes = attempt.step.results.filterMap ExecutedResult.change := by
  simp only [Event.changes, Attempt.event, Attempt.results]
  split <;> simp [List.filterMap_map, Function.comp_def, ExecutedResult.change_forIntent]

variable [SteadyTable τ]

/-- The table that the attempt meets is in order. -/
structure Attempt.Steady (attempt : Attempt fmt τ) : Prop where
  sound : SteadyTable.sound attempt.before
  identified : Identified (RecordTable.records attempt.before)

theorem Attempt.Steady.step_eq {attempt : Attempt fmt τ} (h : attempt.Steady) :
    attempt.failure = none ∧
      attempt.step.results
        = ((SteadyTable.ledger attempt.before).execute (RecordTable.keep τ) attempt.intent).1 := by
  obtain ⟨written, t', hexecute, -, -⟩ :=
    SteadyTable.execute_ledger attempt.intent h.sound h.identified
  simp only [Attempt.failure, Attempt.step, hexecute, and_self]

/-- On a steady table the first intent is carried out, and the table that it leaves to the
    others is steady again. -/
theorem attempts_cons_of_steady (place : Nat) {t : τ} (entry : Nat × WriteIntent fmt)
    (rest : List (Nat × WriteIntent fmt)) (hsound : SteadyTable.sound t)
    (hid : Identified (RecordTable.records t)) :
    ∃ t₁, SteadyTable.sound t₁ ∧ Identified (RecordTable.records t₁) ∧
      SteadyTable.ledger t₁ = ((SteadyTable.ledger t).execute (RecordTable.keep τ) entry.2).2 ∧
      attempts place t (entry :: rest)
        = { submitted := entry.1, place, intent := entry.2, before := t }
          :: attempts (place + 1) t₁ rest ∧
      (executeFrom place t ((entry :: rest).map Prod.snd)).2
        = (executeFrom (place + 1) t₁ (rest.map Prod.snd)).2 := by
  obtain ⟨written, t₁, hexecute, hsound₁, hledger₁⟩ :=
    SteadyTable.execute_ledger entry.2 hsound hid
  have hid₁ := Ledger.identified_execute (RecordTable.keep τ) (SteadyTable.ledger t) entry.2 hid
  rw [← hledger₁] at hid₁
  have hwritten : (execute entry.2 t).written = .ok written := by rw [hexecute]
  refine ⟨t₁, hsound₁, hid₁, hledger₁, ?_, ?_⟩
  · rw [attempts_cons_of_ok hwritten, hexecute]
  · simp only [List.map_cons, executeFrom, hexecute]

/-- Every event of a batch on a steady table respects the tokens of its moment, replaying
    the changes of all events gives the tokens of the records at the end, and every token
    that is reported is that of a change. -/
theorem history_attempts (place : Nat) (t : τ) (agenda : List (Nat × WriteIntent fmt))
    (hsound : SteadyTable.sound t) (hid : Identified (RecordTable.records t))
    (hversion : Versioned (RecordTable.records t)) :
    let events := (attempts place t agenda).map Attempt.event
    let records := RecordTable.records (executeFrom place t (agenda.map Prod.snd)).2
    Event.AllRespect (heldBy (RecordTable.records t)) events ∧
      heldBy records
        = Change.replay (heldBy (RecordTable.records t)) (events.flatMap Event.changes) ∧
      (events.flatMap Event.changes).filterMap Change.token
        = ((attempts place t agenda).flatMap Attempt.results).filterMap ExecutedResult.token ∧
      Identified records ∧ Versioned records := by
  induction agenda generalizing place t with
  | nil => exact ⟨trivial, rfl, rfl, hid, hversion⟩
  | cons entry rest ih =>
    obtain ⟨t₁, hsound₁, hid₁, hledger₁, hattempts, htable⟩ :=
      attempts_cons_of_steady place entry rest hsound hid
    obtain ⟨hrespects, hheld, htoken, hversion₁⟩ := Ledger.history_execute (RecordTable.keep τ)
      entry.2 (SteadyTable.ledger t) hid hversion
    rw [← hledger₁] at hheld hversion₁
    -- The rest starts from the tokens that the first event has left.
    obtain ⟨hall, hreplay, htokens, hid₂, hversion₂⟩ := ih (place + 1) t₁ hsound₁ hid₁ hversion₁
    let attempt : Attempt fmt τ :=
      { submitted := entry.1, place, intent := entry.2, before := t }
    have hcons : attempts place t (entry :: rest) = attempt :: attempts (place + 1) t₁ rest :=
      hattempts
    have hsteady : attempt.Steady := ⟨hsound, hid⟩
    have hresults : attempt.step.results
        = ((SteadyTable.ledger t).execute (RecordTable.keep τ) entry.2).1 := hsteady.step_eq.2
    have hmoved : heldBy (RecordTable.records t₁)
        = Change.replay (heldBy (RecordTable.records t)) attempt.event.changes := by
      rw [attempt.changes_event, hresults]
      exact hheld
    have hevent : attempt.event.Respects (heldBy (RecordTable.records t)) := by
      obtain ⟨f, hreported, hf⟩ := attempt.results_eq_map
      rw [hresults] at hreported
      rw [Attempt.event, hreported]
      exact Event.respects_map hrespects (fun result => ⟨(hf result).1, (hf result).2.1⟩)
    rw [htable, hcons, List.map_cons]
    have hreported : attempt.event.changes.filterMap Change.token
        = attempt.results.filterMap ExecutedResult.token := by
      rw [attempt.changes_event, attempt.token_results, hresults]
      exact htoken
    simp only [List.flatMap_cons, List.filterMap_append, Change.replay_append, Event.AllRespect,
      ← hmoved, hreported, htokens]
    exact ⟨⟨hevent, hall⟩, hreplay, trivial, hid₂, hversion₂⟩

end Batch

end FeatureStore
