-- SUMMARY: The write rules as a machine over absent, live and deleted features, which a batch with default policies follows.
import FeatureStore.Proofs.Ledger

/-!
# The write rules

The rules say for each operation what it does to a feature that is absent, live or
deleted, when it carries no token, the token of that state, or another one. They know
nothing of policies, of decisions, or of a table that records are loaded from and saved
to: each rule is one line of `Order.apply`.

`applyBatch_follows_rules` says that a batch whose intents have the policies of their
operations does what folding the rules over the batch does.
-/

namespace FeatureStore

variable {fmt : Format}

namespace Rules

/-- What is stored of an id. -/
inductive Slot
  | absent
  | live (token : String) (body : Body)
  | deleted (token : String) (body : Body)

/-- An operation on an id, perhaps guarded by a token, with the body to be stored. -/
structure Order where
  op : WriteOp
  id : String
  token : Option String
  body : Body
  /-- Whether bodies are left out of the results. -/
  noResult : Bool

/-- What a rule comes to. -/
structure Reply where
  results : List ExecutedResult
  slot : Slot
  /-- Whether the fresh token was used. -/
  used : Bool

end Rules

def Body.parts (body : Body) (id version : String) : Parts :=
  Parts.withBody { id := some id, version := some version } body

/-- A stored body names no operation. -/
def Body.unmarked (body : Body) : Body := { body with op := none }

namespace Rules

namespace Order

/-- The token is missing or is the given one. -/
def Admits (order : Order) (token : String) : Prop :=
  order.token = none ∨ order.token = some token

instance (order : Order) (token : String) : Decidable (order.Admits token) :=
  inferInstanceAs (Decidable (_ ∨ _))

def refuse (order : Order) (cause : ErrorCause) (current : Option Parts) (slot : Slot) : Reply :=
  { results := [.rejected cause (some order.id) current], slot, used := false }

def leave (order : Order) (current : Option Parts) (slot : Slot) : Reply :=
  { results := [.retained (some order.id) current], slot, used := false }

/-- Put a body under the fresh token into a slot, which keeps what the table keeps of it. -/
def change (order : Order) (keep : Body → Body) (op : ExecutedOp)
    (slot : String → Body → Slot) (body : Body) (fresh : String) : Reply :=
  { results := [.executed op (body.unmarked.parts order.id fresh)]
    slot := slot fresh (keep body.unmarked), used := true }

/-- The rules. -/
def apply (order : Order) (keep : Body → Body) (fresh : String) (slot : Slot) : Reply :=
  match order.op, slot with
  | .create, .live token body =>
    order.refuse .alreadyExists (some (body.parts order.id token)) slot
  | .create, _ => order.change keep .created .live order.body fresh
  | .update, .live token body | .put, .live token body =>
    if order.Admits token then order.change keep .updated .live order.body fresh
    else order.refuse .conflict (some (body.parts order.id token)) slot
  | .update, _ => order.refuse .notFound none slot
  | .put, _ => order.change keep .created .live order.body fresh
  | .delete, .live token body =>
    if order.Admits token then order.change keep .deleted .deleted body fresh
    else order.refuse .conflict (some (body.parts order.id token)) slot
  | .delete, _ => order.leave none slot
  | .purge, .live token body =>
    if order.Admits token then
      { results := [.executed .deleted (body.unmarked.parts order.id fresh),
          .executed .purged (body.unmarked.parts order.id fresh)]
        slot := .absent, used := true }
    else order.refuse .conflict (some (body.parts order.id token)) slot
  | .purge, .deleted token body =>
    if order.Admits token then
      { results := [.executed .purged (body.parts order.id token)]
        slot := .absent, used := false }
    else order.refuse .conflict (some (body.parts order.id token)) slot
  | .purge, .absent => order.leave none slot
  | .restore, .live token body => order.leave (some (body.parts order.id token)) slot
  | .restore, .deleted token body =>
    if order.Admits token then order.change keep .restored .live body fresh
    else order.refuse .conflict (some (body.parts order.id token)) slot
  | .restore, .absent => order.refuse .notFound none slot

end Order

/-! ## The machine -/

/-- What is stored of every id, and the tokens that are still to be used. -/
structure Machine where
  slots : String → Slot
  tokens : Stream' String

namespace Machine

variable (keep : Body → Body)

/-- Apply the rule for an order. -/
def step (order : Order) (machine : Machine) : List ExecutedResult × Machine :=
  let reply := order.apply keep machine.tokens.head (machine.slots order.id)
  (if order.noResult then reply.results.map ExecutedResult.withoutBody else reply.results,
    { slots := Function.update machine.slots order.id reply.slot
      tokens := if reply.used then machine.tokens.tail else machine.tokens })

/-- Apply the rules for orders one after the other. Each result names its order by its
    place. -/
def run (place : Nat) (machine : Machine) : List Order → List ExecutedResult × Machine
  | [] => ([], machine)
  | order :: rest =>
    let (results, machine) := machine.step keep order
    let (others, machine) := run (place + 1) machine rest
    (results.map (fun result => result.forIntent place) ++ others, machine)

end Machine

/-! ## Slots and records -/

namespace Slot

def ofRecord? : Option StoredRecord → Slot
  | none => .absent
  | some record =>
    let token := record.parts.version.getD ""
    if record.deleted then .deleted token record.parts.body else .live token record.parts.body

/-- The record of an id that fills a slot. -/
def record? (id : String) : Slot → Option StoredRecord
  | .absent => none
  | .live token body => some { parts := body.parts id token, deleted := false }
  | .deleted token body => some { parts := body.parts id token, deleted := true }

@[simp] theorem ofRecord?_record? (id : String) (slot : Slot) :
    ofRecord? (slot.record? id) = slot := by
  cases slot <;> rfl

/-- A record that carries its id and a version can be read off its slot. -/
theorem record?_ofRecord? {id : String} {stored : Option StoredRecord}
    (hid : ∀ record, stored = some record → record.parts.id = some id)
    (hversion : ∀ record, stored = some record → record.parts.version.isSome) :
    (ofRecord? stored).record? id = stored := by
  cases stored with
  | none => rfl
  | some record =>
    obtain ⟨⟨op, recordId, version, featureType, propertiesType, json, geometry⟩, deleted⟩ := record
    obtain ⟨token, rfl⟩ := Option.isSome_iff_exists.mp (hversion _ rfl)
    obtain rfl : recordId = some id := hid _ rfl
    cases deleted <;> rfl

theorem state_record? (id : String) (slot : Slot) :
    StoredState.ofRecord? (slot.record? id) =
      match slot with
      | .absent => .absent
      | .live token _ => .live token
      | .deleted token _ => .deleted token := by
  cases slot <;> rfl

end Slot

/-! ## Orders and intents -/

/-- The intent has the policies of its operation, an id, readable parts, and a body if its
    operation needs one. -/
structure Plain (intent : WriteIntent fmt) : Prop where
  ifExists : intent.ifExists = intent.op.defaultIfExists
  ifConflict : intent.ifConflict = .fail
  ifNotExists : intent.ifNotExists = intent.op.defaultIfNotExists
  id : ∃ id, intent.id.1 = some id ∧ id ≠ ""
  error : intent.sync.codec.error = none
  body : intent.op.requiresFeature = true → intent.hasFeature = true

def Order.ofIntent (intent : WriteIntent fmt) : Order where
  op := intent.op
  id := intent.id.1.getD ""
  token := intent.version.1
  body :=
    { intent.sync.codec.parts.body with
      geometry := intent.sync.codec.parts.geometry.withBinary }
  noResult := intent.noResult

theorem Plain.target_eq {intent : WriteIntent fmt} (h : Plain intent) :
    intent.target = some (Order.ofIntent intent).id := by
  obtain ⟨id, hid, hne⟩ := h.id
  have hempty : id.isEmpty = false := by simpa using hne
  have hparts : intent.sync.codec.parts.id = some id := hid
  simp [WriteIntent.target, Order.ofIntent, WriteIntent.id, hparts, hempty]

/-- Versions conflict exactly when the order does not admit the stored token. -/
theorem ite_mismatched {α : Type} (order : Order) (token : String) (conflict change : α) :
    (if Resolution.mismatched order.token token then conflict else change)
      = if order.Admits token then change else conflict := by
  obtain ⟨op, id, expected, body, noResult⟩ := order
  cases expected with
  | none => simp [Resolution.mismatched, Order.Admits]
  | some version => by_cases heq : version = token <;> simp [Resolution.mismatched, Order.Admits, heq]

theorem Plain.view_eq {intent : WriteIntent fmt} (h : Plain intent) :
    intent.view.1 =
      { op := intent.op, ifExists := intent.op.defaultIfExists, ifConflict := .fail
        ifNotExists := intent.op.defaultIfNotExists, version := (Order.ofIntent intent).token
        hasFeature := intent.hasFeature } := by
  rw [← h.ifExists, ← h.ifConflict, ← h.ifNotExists]
  rfl

/-- What a plain intent stores is its body. -/
theorem Plain.effect_store {intent : WriteIntent fmt} (h : Plain intent) (op : ExecutedOp)
    (id fresh : String) (stored : Option StoredRecord) (keep : Body → Body) :
    let body := (Order.ofIntent intent).body.unmarked
    (Batch.Plan.store op intent id).effect keep stored fresh
      = { results := [.executed op (body.parts id fresh)]
          record := (Slot.live fresh (keep body)).record? id
          wrote := true } := by
  simp only [Batch.Plan.store, Batch.incomingParts, WriteIntent.parts, h.error, Except.map,
    Option.isSome_none, Bool.false_eq_true, if_false]
  rfl

/-- The decision on a plain intent, by its operation and the slot. -/
def Order.decision (order : Order) : Slot → Decision
  | .absent =>
    match order.op with
    | .create | .put => .create
    | .update | .restore => .fail .notFound false
    | .delete | .purge => .retain false
  | .live token _ =>
    let guarded (change : Decision) := if order.Admits token then change else .fail .conflict true
    match order.op with
    | .create => .fail .alreadyExists true
    | .update | .put => guarded .update
    | .delete | .purge => guarded .delete
    | .restore => .retain true
  | .deleted token _ =>
    let guarded (change : Decision) := if order.Admits token then change else .fail .conflict true
    match order.op with
    | .create | .put => .create
    | .update => .fail .notFound false
    | .delete => .retain false
    | .purge => guarded .purge
    | .restore => guarded .restore

theorem Plain.resolve_eq {intent : WriteIntent fmt} (h : Plain intent) (id : String) (slot : Slot) :
    Resolution.resolve intent.view.1 (.ofRecord? (slot.record? id))
      = (Order.ofIntent intent).decision slot := by
  have hop : (Order.ofIntent intent).op = intent.op := rfl
  have hbody := h.body
  rw [h.view_eq, Slot.state_record?, Order.decision.eq_def, hop]
  generalize intent.op = op at hbody ⊢
  cases op <;> simp [WriteOp.requiresFeature] at hbody <;> cases slot <;>
    simp [Resolution.resolve, Resolution.resolveMissing, Resolution.resolveLive,
      Resolution.resolvePurge, Resolution.guarded, ite_mismatched, WriteOp.requiresFeature,
      WriteOp.defaultIfExists, WriteOp.defaultIfNotExists, StoredState.liveVersion, hbody]

/-- The plan for a plain intent has the effect that the rules say. -/
theorem effect_eq_apply {intent : WriteIntent fmt} (h : Plain intent) (keep : Body → Body)
    (fresh : String) (slot : Slot) :
    let order := Order.ofIntent intent
    let stored := slot.record? order.id
    let reply := order.apply keep fresh slot
    (Batch.Plan.make intent order.id stored).effect keep stored fresh
      = { results := reply.results, record := reply.slot.record? order.id, wrote := reply.used } := by
  intro order stored reply
  have hop : intent.op = order.op := rfl
  have hstore := fun op => h.effect_store op order.id fresh stored keep
  simp only [reply, stored, Batch.Plan.make, h.resolve_eq, Order.decision.eq_def, Order.apply]
  -- The rules are written for each operation, so each is compared at each state of the slot.
  cases horder : order.op with
  | create =>
    cases slot with
    | absent => exact hstore .created
    | live token body => rfl
    | deleted token body => exact hstore .created
  | update =>
    cases slot with
    | absent => rfl
    | live token body =>
      simp only
      split
      · exact hstore .updated
      · rfl
    | deleted token body => rfl
  | put =>
    cases slot with
    | absent => exact hstore .created
    | live token body =>
      simp only
      split
      · exact hstore .updated
      · rfl
    | deleted token body => exact hstore .created
  | delete =>
    cases slot with
    | absent => rfl
    | live token body =>
      simp only
      split
      · simp only [Batch.Plan.ofDecision, hop, horder]
        rfl
      · rfl
    | deleted token body => rfl
  | purge =>
    cases slot with
    | absent => rfl
    | live token body =>
      simp only
      split
      · simp only [Batch.Plan.ofDecision, hop, horder]
        rfl
      · rfl
    | deleted token body =>
      simp only
      split
      · rfl
      · rfl
  | restore =>
    cases slot with
    | absent => rfl
    | live token body => rfl
    | deleted token body =>
      simp only
      split
      · rfl
      · rfl

/-! ## Batches follow the rules -/

def Machine.ofLedger (ledger : Ledger) : Machine where
  slots id := .ofRecord? (ledger.records id)
  tokens := ledger.versions

theorem effect_ofLedger {intent : WriteIntent fmt} (h : Plain intent) (keep : Body → Body)
    {ledger : Ledger} (hid : Identified ledger.records) (hversion : Versioned ledger.records) :
    let order := Order.ofIntent intent
    let reply := order.apply keep ledger.versions.head (.ofRecord? (ledger.records order.id))
    ledger.effect keep intent order.id
      = { results := reply.results, record := reply.slot.record? order.id, wrote := reply.used } := by
  intro order reply
  have hstored : (Slot.ofRecord? (ledger.records order.id)).record? order.id
      = ledger.records order.id :=
    Slot.record?_ofRecord? (fun record => hid order.id record)
      (fun record => hversion order.id record)
  have heffect := effect_eq_apply h keep ledger.versions.head (.ofRecord? (ledger.records order.id))
  simp only [order] at hstored
  simp only [order, hstored] at heffect
  exact heffect

theorem step_ofLedger {intent : WriteIntent fmt} (h : Plain intent) (keep : Body → Body)
    {ledger : Ledger} (hid : Identified ledger.records) (hversion : Versioned ledger.records) :
    let executed := ledger.execute keep intent
    (Machine.ofLedger ledger).step keep (.ofIntent intent)
        = (if intent.noResult then executed.1.map ExecutedResult.withoutBody else executed.1,
            .ofLedger executed.2) ∧
      Versioned executed.2.records := by
  simp only [Ledger.execute, h.target_eq, Ledger.after, effect_ofLedger h keep hid hversion]
  constructor
  · refine Prod.ext rfl ?_
    simp only [Machine.step, Machine.ofLedger, Machine.mk.injEq]
    refine ⟨?_, rfl⟩
    funext id
    simp only [Function.update_apply]
    split
    · exact (Slot.ofRecord?_record? _ _).symm
    · rfl
  · intro id record hrecord
    simp only [Function.update_apply] at hrecord
    split at hrecord
    · generalize Order.apply _ _ _ _ = reply at hrecord
      cases hslot : reply.slot with
      | absent => simp [hslot, Slot.record?] at hrecord
      | live token body => simp [hslot, Slot.record?] at hrecord; rw [← hrecord]; rfl
      | deleted token body => simp [hslot, Slot.record?] at hrecord; rw [← hrecord]; rfl
    · exact hversion id record hrecord

/-- The run of a ledger on plain intents is a run of its machine. -/
theorem run_ofLedger (keep : Body → Body) (place : Nat) {intents : List (WriteIntent fmt)}
    (h : ∀ intent ∈ intents, Plain intent) (ledger : Ledger) (hid : Identified ledger.records)
    (hversion : Versioned ledger.records) :
    let run := ledger.executeFrom keep place intents
    (Machine.ofLedger ledger).run keep place (intents.map .ofIntent) = (run.1, .ofLedger run.2) ∧
      Identified run.2.records ∧ Versioned run.2.records := by
  induction intents generalizing ledger place with
  | nil => exact ⟨rfl, hid, hversion⟩
  | cons intent rest ih =>
    obtain ⟨hstep, hversion₁⟩ := step_ofLedger (h intent List.mem_cons_self) keep hid hversion
    obtain ⟨hrun, hid₂, hversion₂⟩ := ih (place + 1)
      (fun other hother => h other (List.mem_cons_of_mem _ hother)) _
      (Ledger.identified_execute keep ledger intent hid) hversion₁
    refine ⟨?_, hid₂, hversion₂⟩
    simp only [List.map_cons, Machine.run, hstep, hrun, Ledger.executeFrom]
    split
    · simp only [List.map_map]
      rfl
    · rfl

end Rules

/-- A batch with default policies does what the write rules say: on a steady table whose
    records carry their ids and versions it reports the results of the rules, does not
    fail, and leaves the slots and tokens of the rules behind. -/
theorem applyBatch_follows_rules {τ : Type} [FeatureTable τ] [SteadyTable τ] (table : τ)
    (intents : List (WriteIntent fmt)) (hsound : SteadyTable.sound table)
    (hid : Identified (RecordTable.records table))
    (hversion : Versioned (RecordTable.records table))
    (hplain : ∀ intent ∈ intents, Rules.Plain intent) :
    let machine := Rules.Machine.ofLedger (SteadyTable.ledger table)
    let run := machine.run (RecordTable.keep τ) 0 (intents.map .ofIntent)
    let done := applyBatch table intents
    done.1 = { results := run.1, failure := none } ∧
      Rules.Machine.ofLedger (SteadyTable.ledger done.2) = run.2 ∧
      Identified (RecordTable.records done.2) ∧ Versioned (RecordTable.records done.2) := by
  obtain ⟨table', hexecute, -, hledger⟩ :=
    SteadyTable.executeFrom_ledger 0 intents hsound hid
  obtain ⟨hrun, hid', hversion'⟩ :=
    Rules.run_ofLedger (RecordTable.keep τ) 0 hplain (SteadyTable.ledger table) hid hversion
  rw [← hledger] at hrun hid' hversion'
  simp only [applyBatch, hexecute, hrun]
  exact ⟨trivial, trivial, hid', hversion'⟩

/-- A live feature is purged under its token, which hands the token of the deleted state
    over to the second step, and its id is free again in the same batch. -/
theorem purge_then_create_follows_rules :
    let table : MemoryStore :=
      { records := Dictionary.empty.insert "a"
          { parts := { id := some "a", version := some "t" }, deleted := false } }
    let intents : List (WriteIntent .geo) :=
      [.ofId .purge "a" (some "t"), .ofCodec .create (.ofParts { id := some "a", json := some "" })]
    (SteadyTable.sound table ∧ Identified (RecordTable.records table) ∧
        Versioned (RecordTable.records table) ∧ ∀ intent ∈ intents, Rules.Plain intent) ∧
      (applyBatch table intents).1.results.map ExecutedResult.op = [.deleted, .purged, .created] ∧
      (applyBatch table intents).1.failure = none := by
  intro table intents
  have hsound : SteadyTable.sound table := trivial
  have hrecords : ∀ id record, RecordTable.records table id = some record →
      id = "a" ∧ record = { parts := { id := some "a", version := some "t" }, deleted := false } := by
    intro id record h
    have hget : RecordTable.records table id = if "a" = id then _ else none :=
      Dictionary.find?_insert "a" id _ Dictionary.empty
    rw [hget] at h
    split at h
    · next heq =>
      cases h
      exact ⟨heq.symm, rfl⟩
    · cases h
  have hid : Identified (RecordTable.records table) := by
    intro id record h
    obtain ⟨rfl, rfl⟩ := hrecords id record h
    rfl
  have hversion : Versioned (RecordTable.records table) := by
    intro id record h
    obtain ⟨rfl, rfl⟩ := hrecords id record h
    rfl
  have hplain : ∀ intent ∈ intents, Rules.Plain intent := by
    intro intent hmem
    have hcases : intent = intents[0] ∨ intent = intents[1] := by simpa [intents] using hmem
    rcases hcases with rfl | rfl
    · exact ⟨rfl, rfl, rfl, ⟨"a", rfl, by decide⟩, rfl, by decide⟩
    · exact ⟨rfl, rfl, rfl, ⟨"a", rfl, by decide⟩, rfl, by decide⟩
  refine ⟨⟨hsound, hid, hversion, hplain⟩, ?_⟩
  rw [(applyBatch_follows_rules table intents hsound hid hversion hplain).1]
  exact ⟨rfl, rfl⟩

end FeatureStore
