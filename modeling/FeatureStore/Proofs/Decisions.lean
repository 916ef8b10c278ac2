-- SUMMARY: What a decision needs to be stored, and that carrying it out never has to make do without.
import FeatureStore.Proofs.Plan

/-!
# Decisions

A decision is about what is stored. A live feature is replaced or deleted, a deleted state is
purged or restored, a record is reported or attached to an error; and a new state needs a body.
`Fits` says for each decision what has to be there. The resolution decides nothing that does not
fit, whatever the operation is and whatever the policies are.

So a decision that is carried out finds the record that it is about. `execute?` is an execution
that has no way to go on without that record, and none in which the second step of a purge is
anything but a purge. It never gets stuck, and does what an execution does.
-/

namespace FeatureStore

variable {fmt : Format}

/-! ## What decisions need -/

namespace Resolution

/-- Whether a decision changes or removes the stored state. -/
def supersedes : Decision → Bool
  | .update | .delete | .restore | .purge => true
  | .create | .retain _ | .fail _ _ => false

/-- What is stored anew needs a body. -/
def stores : Decision → Bool
  | .create | .update => true
  | .delete | .purge | .restore | .retain _ | .fail _ _ => false

/-- Whether a decision announces the stored record. -/
def announces : Decision → Bool
  | .retain withCurrent | .fail _ withCurrent => withCurrent
  | .create | .update | .delete | .purge | .restore => false

/-- If the intent fails on conflicts, the token it carries is that of the version. -/
def Permits (view : IntentView) (version : String) : Prop :=
  view.ifConflict = .fail → ∀ token, view.version = some token → token = version

/-- The decision can be carried out for the intent on what is stored. -/
inductive Fits (view : IntentView) : StoredState → Decision → Prop
  | create {stored : StoredState} (hmissing : stored.liveVersion = none)
    (hbody : view.hasFeature = true) : Fits view stored .create
  | update {version : String} (hbody : view.hasFeature = true) (hpermits : Permits view version) :
    Fits view (.live version) .update
  | delete {version : String} (hpermits : Permits view version) : Fits view (.live version) .delete
  | purge {version : String} (hpermits : Permits view version) : Fits view (.deleted version) .purge
  | restore {version : String} (hpermits : Permits view version) :
    Fits view (.deleted version) .restore
  | retain {stored : StoredState} {withCurrent : Bool}
    (hcurrent : withCurrent = true → stored ≠ .absent) : Fits view stored (.retain withCurrent)
  | fail {stored : StoredState} {cause : ErrorCause} {withCurrent : Bool}
    (hcurrent : withCurrent = true → stored ≠ .absent) : Fits view stored (.fail cause withCurrent)

variable {view : IntentView} {stored : StoredState} {version : String} {decision change : Decision}

theorem permits_of_not_mismatched (h : ¬ mismatched view.version version = true) :
    Permits view version := by
  intro _ token htoken
  simpa [mismatched, htoken] using h

/-- A change that fits where it is permitted fits under its guard. -/
theorem fits_guarded (h : Permits view version → Fits view (.live version) change) :
    Fits view (.live version) (guarded view version change) := by
  unfold guarded
  split
  · cases hconflict : view.ifConflict with
    | fail => exact .fail (fun _ => StoredState.noConfusion)
    | retain => exact .retain (fun _ => StoredState.noConfusion)
    | replace =>
      apply h
      intro hfail
      rw [hconflict] at hfail
      cases hfail
  · next hmatched => exact h (permits_of_not_mismatched hmatched)

theorem fits_resolveLive (view : IntentView) (version : String) :
    Fits view (.live version) (resolveLive view version) := by
  unfold resolveLive
  split
  · exact .fail (fun _ => StoredState.noConfusion)
  · exact .retain (fun _ => StoredState.noConfusion)
  · split
    · next hbody => exact fits_guarded (.update hbody)
    · exact .fail (fun _ => StoredState.noConfusion)
  · exact fits_guarded .delete
  · exact fits_guarded .delete

theorem fits_resolveMissing (view : IntentView) (h : stored.liveVersion = none) :
    Fits view stored (resolveMissing view) := by
  unfold resolveMissing
  split
  · exact .fail (fun hcurrent => by cases hcurrent)
  · exact .retain (fun hcurrent => by cases hcurrent)
  · split
    · next hbody => exact .create h hbody
    · exact .fail (fun hcurrent => by cases hcurrent)

/-- The guard of a deleted state. -/
theorem fits_deleted (h : Permits view version → Fits view (.deleted version) change) :
    Fits view (.deleted version)
      (if mismatched view.version version then .fail .conflict true else change) := by
  split
  · exact .fail (fun _ => StoredState.noConfusion)
  · next hmatched => exact h (permits_of_not_mismatched hmatched)

/-- The resolution decides nothing that does not fit. -/
theorem fits_resolve (view : IntentView) (stored : StoredState) :
    Fits view stored (resolve view stored) := by
  unfold resolve
  split
  · exact .retain (fun hcurrent => by cases hcurrent)
  · exact fits_deleted .purge
  · exact fits_deleted .restore
  · split
    · exact .fail (fun hcurrent => by cases hcurrent)
    · next stored _ _ _ _ _ _ =>
      cases stored with
      | absent => exact fits_resolveMissing view rfl
      | deleted version => exact fits_resolveMissing view rfl
      | live version => exact fits_resolveLive view version

namespace Fits

variable {record? : Option StoredRecord}

/-- A state is changed or removed only if the intent permits it. -/
theorem permits (h : Fits view stored decision) (hdecision : supersedes decision) :
    ∃ version, (stored = .live version ∨ stored = .deleted version) ∧ Permits view version := by
  cases h with
  | create => cases hdecision
  | retain => cases hdecision
  | fail => cases hdecision
  | update _ hpermits => exact ⟨_, .inl rfl, hpermits⟩
  | delete hpermits => exact ⟨_, .inl rfl, hpermits⟩
  | purge hpermits => exact ⟨_, .inr rfl, hpermits⟩
  | restore hpermits => exact ⟨_, .inr rfl, hpermits⟩

theorem hasFeature (h : Fits view stored decision) (hdecision : stores decision) :
    view.hasFeature = true := by
  cases h with
  | create _ hbody => exact hbody
  | update hbody _ => exact hbody
  | delete => cases hdecision
  | purge => cases hdecision
  | restore => cases hdecision
  | retain => cases hdecision
  | fail => cases hdecision

theorem ne_absent (h : Fits view stored decision)
    (hdecision : supersedes decision ∨ announces decision) : stored ≠ .absent := by
  rcases hdecision with hsupersedes | hannounces
  · obtain ⟨version, rfl | rfl, -⟩ := h.permits hsupersedes
    · exact StoredState.noConfusion
    · exact StoredState.noConfusion
  · cases h with
    | retain hcurrent => exact hcurrent hannounces
    | fail hcurrent => exact hcurrent hannounces
    | create => cases hannounces
    | update => cases hannounces
    | delete => cases hannounces
    | purge => cases hannounces
    | restore => cases hannounces

/-- What is changed, removed or announced is there. -/
theorem exists_record (h : Fits view (.ofRecord? record?) decision)
    (hdecision : supersedes decision ∨ announces decision) : ∃ record, record? = some record := by
  have hstored := h.ne_absent hdecision
  cases record? with
  | some record => exact ⟨record, rfl⟩
  | none => exact absurd rfl hstored

end Fits

end Resolution

/-! ## Carrying decisions out with what is stored -/

namespace Batch

open Resolution

variable {τ : Type} [FeatureTable τ]

/-- Carry a decision out. What it reports, changes or removes is the stored record, and there is
    no step without one. -/
def carryOut? (decision : Decision) (intent : WriteIntent fmt) (id : String)
    (stored : Option StoredRecord) (table : τ) : Option (Step τ) :=
  match decision with
  | .retain false => some (report (.retained (some id) none) table)
  | .fail cause false => some (report (.rejected cause (some id) none) table)
  | .create => some (store .created intent id table)
  | .update => stored.map (fun _ => store .updated intent id table)
  | .retain true =>
    stored.map (fun record => report (.retained (some id) (some record.parts)) table)
  | .fail cause true =>
    stored.map (fun record => report (.rejected cause (some id) (some record.parts)) table)
  | .delete => stored.map (fun record => write .deleted { record with deleted := true } table)
  | .restore => stored.map (fun record => write .restored { record with deleted := false } table)
  | .purge => stored.map (fun record => Plan.purgeAfter [] id record.parts table)

/-- The second step of a purge, if that is a purge. -/
def purgeDeleted? (view : IntentView) (intent : WriteIntent fmt) (id : String)
    (deleted : StoredRecord) (table : τ) : Option (Step τ) :=
  let version := view.version.bind (fun _ => deleted.parts.version)
  if resolvePurge version deleted.state = .purge then
    carryOut? .purge intent id (some deleted) table
  else none

/-- Execute an intent for an id, without making do. -/
def executeFor? (view : IntentView) (intent : WriteIntent fmt) (id : String) (table : τ) :
    Option (Step τ) :=
  match FeatureTable.load id table with
  | (.error failure, table) => some (stop failure table)
  | (.ok stored, table) =>
    let decision := resolve view (.ofRecord? stored)
    (carryOut? decision intent id stored table).bind (fun step =>
      match step.written with
      | .ok (some deleted) =>
        if view.op = .purge ∧ decision = .delete then
          (purgeDeleted? view intent id deleted step.table).map (fun second =>
            { second with results := step.results ++ second.results })
        else some step
      | _ => some step)

/-- Execute an intent, without making do. -/
def execute? (intent : WriteIntent fmt) (table : τ) : Option (Step τ) :=
  let (view, intent) := intent.view
  match intent.codec.parts.id with
  | none => some (report (.rejected .invalid none none) table)
  | some id =>
    if id.isEmpty then some (report (.rejected .invalid none none) table)
    else executeFor? view intent id table

variable {view : IntentView} {decision : Decision} {stored : Option StoredRecord}

/-- A decision that fits is carried out with what is stored. -/
theorem carryOut?_eq (h : Fits view (.ofRecord? stored) decision) (intent : WriteIntent fmt)
    (id : String) (table : τ) :
    carryOut? decision intent id stored table
      = some (carryOut decision intent id stored table) := by
  cases decision with
  | create => rfl
  | update =>
    obtain ⟨record, rfl⟩ := h.exists_record (.inl rfl)
    rfl
  | delete =>
    obtain ⟨record, rfl⟩ := h.exists_record (.inl rfl)
    rfl
  | restore =>
    obtain ⟨record, rfl⟩ := h.exists_record (.inl rfl)
    rfl
  | purge =>
    obtain ⟨record, rfl⟩ := h.exists_record (.inl rfl)
    rfl
  | retain withCurrent =>
    cases withCurrent with
    | false => rfl
    | true =>
      obtain ⟨record, rfl⟩ := h.exists_record (.inr rfl)
      rfl
  | fail cause withCurrent =>
    cases withCurrent with
    | false => rfl
    | true =>
      obtain ⟨record, rfl⟩ := h.exists_record (.inr rfl)
      rfl

/-- The second step of a purge always is a purge. -/
theorem purgeDeleted?_stamp (view : IntentView) (intent : WriteIntent fmt) (id version : String)
    (parts : Parts) (table : τ) :
    let deleted := stamp { parts, deleted := true } version
    purgeDeleted? view intent id deleted table
      = some (purgeDeleted view intent id deleted table) := by
  intro deleted
  have hpurge := resolvePurge_stamp view version parts
  simp only [purgeDeleted?, purgeDeleted, deleted, hpurge, if_true]
  rfl

theorem executeFor?_eq (view : IntentView) (intent : WriteIntent fmt) (id : String) (table : τ) :
    executeFor? view intent id table = some (executeFor view intent id table) := by
  unfold executeFor? executeFor
  obtain ⟨loaded, table'⟩ := FeatureTable.load id table
  cases loaded with
  | error failure => rfl
  | ok stored =>
    have hfits := fits_resolve view (.ofRecord? stored)
    dsimp only
    generalize resolve view (.ofRecord? stored) = decision at hfits
    rw [carryOut?_eq hfits, Option.bind_some]
    cases hwritten : (carryOut decision intent id stored table').written with
    | error failure => rfl
    | ok written =>
      cases written with
      | none => rfl
      | some deleted =>
        by_cases hpurge : view.op = .purge ∧ decision = .delete
        · obtain ⟨hop, rfl⟩ := hpurge
          -- A deletion hands back the record that it has stamped.
          obtain ⟨version, rfl⟩ := exists_stamp_of_write hwritten
          simp only [hop, and_self, if_true, purgeDeleted?_stamp, Option.map_some]
        · simp only [hpurge, if_false]

theorem execute?_eq (intent : WriteIntent fmt) (table : τ) :
    execute? intent table = some (execute intent table) := by
  unfold execute? execute
  cases hid : intent.view.2.codec.parts.id with
  | none => simp only [hid]
  | some id =>
    simp only [hid, executeFor?_eq]
    split <;> rfl

/-- Every decision can be carried out on what is stored. Live features are replaced and deleted,
    deleted states purged and restored, and nothing is created over a live feature; a new state
    has a body, and a record that is announced is there. An intent that fails on conflicts changes
    or removes no state but the one whose version it carries. On every table, also on one that
    fails at any point, an execution reports, changes and removes what is stored and nothing else,
    and a purge that has deleted a feature goes on to purge it. -/
theorem decisions_can_be_carried_out :
    (∀ (view : IntentView) (stored : StoredState), Fits view stored (resolve view stored)) ∧
    ∀ {τ : Type} [FeatureTable τ] {fmt : Format} (intent : WriteIntent fmt) (table : τ),
      execute? intent table = some (execute intent table) :=
  ⟨fits_resolve, execute?_eq⟩

end Batch

end FeatureStore
