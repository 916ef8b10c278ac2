-- SUMMARY: What every stored record is like, whatever batches have been executed.
import FeatureStore.Proofs.Building
import FeatureStore.Proofs.History

/-!
# Stored records

Whatever is asked of a store, its records are all of one kind. A record has the id that it is
stored under, a token that the store has allocated and given to no other record, a body, and a
geometry in binary form if it has one; and it names no operation. A batch can do three things
to the records: leave them alone while a version is allocated, put a record under a new version
in the place of another one, and remove a record. Each of them keeps the records so, and the
records that are put there come from plans.
-/

namespace FeatureStore

variable {fmt : Format}

/-! ## Bodies that are stored -/

/-- The geometry is held in binary form if at all. If the parsed form is held as well then it is
    what the binary form is decoded to. -/
def GeometryCache.Stored : GeometryCache → Prop
  | .neither | .binary _ => True
  | .parsed _ => False
  | .both bytes g => g.Sized → Geometry.decode? bytes = some g

theorem GeometryCache.Built.stored {cache : GeometryCache} (h : cache.Built) :
    cache.withBinary.Stored := by
  have hagrees := h.withBinary.agrees
  cases cache with
  | neither => trivial
  | binary bytes => trivial
  | parsed g => exact hagrees
  | both bytes g => exact hagrees

/-- The parts can be stored under the id. -/
structure Parts.Storable (id : String) (p : Parts) : Prop where
  id : p.id = some id
  json : p.json.isSome = true
  geometry : p.geometry.Stored

/-- A record as it is stored under a key. -/
structure StoredRecord.Kept (key : String) (r : StoredRecord) : Prop where
  key_ne : key ≠ ""
  op : r.parts.op = none
  storable : r.parts.Storable key

/-- What a table keeps of a body is a body, and has no operation if the body has none. -/
def KeepsBodies (keep : Body → Body) : Prop :=
  ∀ body : Body, body.op = none → body.json.isSome = true → body.geometry.Stored →
    (keep body).op = none ∧ (keep body).json.isSome = true ∧ (keep body).geometry.Stored

theorem MemoryStore.keepsBodies : KeepsBodies (RecordTable.keep MemoryStore) :=
  fun _ hop hjson hgeometry => ⟨hop, hjson, hgeometry⟩

theorem BatchTable.keepsBodies : KeepsBodies (RecordTable.keep BatchTable) := by
  intro body _ hjson _
  refine ⟨rfl, hjson, ?_⟩
  change (GeometryCache.ofBinary body.geometry.peekBinary).Stored
  cases body.geometry.peekBinary <;> trivial

/-- What a table keeps of a stamped record. -/
theorem StoredRecord.kept_keeping {keep : Body → Body} (hkeep : KeepsBodies keep) {id : String}
    (hkey : id ≠ "") {r : StoredRecord} (h : r.parts.Storable id) (version : String) :
    ((Batch.stamp r version).keeping keep).Kept id := by
  obtain ⟨hop, hjson, hgeometry⟩ := hkeep (Batch.stamp r version).parts.body rfl h.json h.geometry
  exact ⟨hkey, hop, h.id, hjson, hgeometry⟩

/-! ## Plans -/

namespace Batch.Plan

/-- What the plan writes can be stored under the id. -/
def Storable (id : String) : Plan → Prop
  | write _ record _ => record.parts.Storable id
  | answer _ | purge _ => True

theorem storable_store {intent : WriteIntent fmt} (hbuilt : intent.codec.Built)
    (hfeature : intent.hasFeature = true) (op : ExecutedOp) (id : String) :
    (store op intent id).Storable id := by
  unfold store
  cases hparts : incomingParts intent id with
  | error cause => trivial
  | ok parts =>
    have hid : parts.id = some id := id_incomingParts hparts
    unfold incomingParts WriteIntent.parts at hparts
    cases herror : intent.sync.codec.error with
    | some e => simp [herror, Except.map] at hparts
    | none =>
      simp only [herror, Option.isSome_none, Bool.false_eq_true, if_false, Except.map,
        Except.ok.injEq] at hparts
      subst hparts
      exact ⟨hid, hbuilt.whole.isSome_json hfeature herror, hbuilt.whole.sync.geometry.stored⟩

/-- Records that can be stored under their id get plans that write such records. -/
theorem storable_make {intent : WriteIntent fmt} (hbuilt : intent.codec.Built) {id : String}
    {stored : Option StoredRecord} (hstored : ∀ r, stored = some r → r.parts.Storable id) :
    (make intent id stored).Storable id := by
  have hfits := Resolution.fits_resolve intent.view.1 (.ofRecord? stored)
  unfold make
  generalize Resolution.resolve intent.view.1 (.ofRecord? stored) = decision at hfits
  have haffected (h : Resolution.supersedes decision) :
      ((stored.map StoredRecord.parts).getD (.ofId id)).Storable id := by
    obtain ⟨record, rfl⟩ := hfits.exists_record (.inl h)
    exact hstored record rfl
  cases decision with
  | retain withCurrent => trivial
  | fail cause withCurrent => trivial
  | purge => trivial
  | create => exact storable_store hbuilt (hfits.hasFeature rfl) .created id
  | update => exact storable_store hbuilt (hfits.hasFeature rfl) .updated id
  | delete => exact haffected rfl
  | restore => exact haffected rfl

end Batch.Plan

/-! ## Tables of stored records -/

/-- The records are as they are stored, under tokens that have been allocated. If no token has
    been allocated twice, no two records have the same. -/
structure Keeping (tokens : List String) (records : String → Option StoredRecord) : Prop where
  kept : ∀ {id : String} {r : StoredRecord}, records id = some r → r.Kept id
  token : ∀ {id : String} {r : StoredRecord}, records id = some r →
    ∃ token ∈ tokens, r.parts.version = some token
  apart : tokens.Nodup → ∀ {id other : String} {r s : StoredRecord}, records id = some r →
    records other = some s → r.parts.version = s.parts.version → id = other

namespace Keeping

variable {tokens : List String} {records : String → Option StoredRecord}

theorem nil : Keeping [] (fun _ => none) := ⟨nofun, nofun, fun _ => nofun⟩

/-- A token may be allocated and then not be used. -/
theorem allocate (h : Keeping tokens records) (version : String) :
    Keeping (tokens ++ [version]) records := by
  refine ⟨h.kept, fun hr => ?_, fun hnodup => h.apart (List.nodup_append.mp hnodup).1⟩
  obtain ⟨token, hmem, hversion⟩ := h.token hr
  exact ⟨token, List.mem_append_left _ hmem, hversion⟩

theorem purge (h : Keeping tokens records) (id : String) :
    Keeping tokens (Function.update records id none) := by
  have hstays {other : String} {r : StoredRecord}
      (hr : Function.update records id none other = some r) : records other = some r := by
    by_cases hother : other = id
    · rw [hother, Function.update_self] at hr
      cases hr
    · rwa [Function.update_of_ne hother] at hr
  exact ⟨fun hr => h.kept (hstays hr), fun hr => h.token (hstays hr),
    fun hnodup _ _ _ _ hr hs => h.apart hnodup (hstays hr) (hstays hs)⟩

/-- The token of a record that is written has just been allocated, so no other record has it. -/
theorem write (h : Keeping tokens records) {id version : String} {r : StoredRecord}
    (hkept : r.Kept id) (hversion : r.parts.version = some version) :
    Keeping (tokens ++ [version]) (Function.update records id (some r)) := by
  have hcases {other : String} {s : StoredRecord}
      (hs : Function.update records id (some r) other = some s) :
      other = id ∧ s = r ∨ records other = some s := by
    by_cases hother : other = id
    · rw [hother, Function.update_self] at hs
      exact .inl ⟨hother, (Option.some.inj hs).symm⟩
    · rw [Function.update_of_ne hother] at hs
      exact .inr hs
  -- The version comes last in the tokens, and they are different, so no older record has it.
  have hfresh (hnodup : (tokens ++ [version]).Nodup) {other : String} {s : StoredRecord}
      (hs : records other = some s) : s.parts.version ≠ r.parts.version := by
    obtain ⟨token, hmem, htoken⟩ := h.token hs
    rw [htoken, hversion]
    intro hsame
    exact (List.nodup_append.mp hnodup).2.2 token hmem version List.mem_cons_self
      (Option.some.inj hsame)
  refine ⟨fun hs => ?_, fun hs => ?_, fun hnodup other another s t hs ht hsame => ?_⟩
  · obtain ⟨rfl, rfl⟩ | hold := hcases hs
    · exact hkept
    · exact h.kept hold
  · obtain ⟨-, rfl⟩ | hold := hcases hs
    · exact ⟨version, List.mem_append_right _ List.mem_cons_self, hversion⟩
    · exact (h.allocate version).token hold
  · obtain ⟨rfl, rfl⟩ | hold := hcases hs <;> obtain ⟨rfl, rfl⟩ | hold' := hcases ht
    · rfl
    · exact absurd hsame.symm (hfresh hnodup hold')
    · exact absurd hsame (hfresh hnodup hold)
    · exact h.apart (List.nodup_append.mp hnodup).1 hold hold' hsame

end Keeping

/-! ## Batches -/

theorem WriteIntent.target_ne_empty {intent : WriteIntent fmt} {id : String}
    (h : intent.target = some id) : id ≠ "" := by
  obtain ⟨-, hid⟩ := Option.filter_eq_some_iff.mp h
  simpa [String.isEmpty_iff] using hid

namespace Batch

variable {τ : Type} [FeatureTable τ] [RecordTable τ] {earlier : List String} {t : Tallied τ}

/-- The table has stored records under tokens that were allocated earlier or are in its tally. -/
def Keeps (earlier : List String) (t : Tallied τ) : Prop :=
  Keeping (earlier ++ t.allocated) (RecordTable.records t.table)

/-- A step that has left the records and the tally alone. -/
theorem Keeps.of_same {t' : Tallied τ} (h : Keeps earlier t) (hallocated : t'.allocated = t.allocated)
    (hrecords : RecordTable.records t'.table = RecordTable.records t.table) : Keeps earlier t' := by
  rw [Keeps, hallocated, hrecords]
  exact h

theorem keeps_write (hkeep : KeepsBodies (RecordTable.keep τ)) (h : Keeps earlier t) {id : String}
    (hkey : id ≠ "") {record : StoredRecord} (hrecord : record.parts.Storable id)
    (op : ExecutedOp) : Keeps earlier (write op record t).table := by
  simp only [write_eq, FeatureTable.nextVersion]
  cases hversion : FeatureTable.nextVersion t.table with
  | mk result table₁ =>
    have hrecords₁ := RecordTable.nextVersion_records hversion
    cases result with
    | error failure => exact h.of_same rfl hrecords₁
    | ok version =>
      simp only [FeatureTable.save]
      cases hsave : FeatureTable.save (stamp record version) table₁ with
      | mk saved table₂ =>
        cases saved with
        | error failure =>
          have hrecords₂ := (RecordTable.save_error hsave).trans hrecords₁
          simp only [stop, Keeps, hrecords₂, ← List.append_assoc]
          exact Keeping.allocate h version
        | ok _ =>
          have hrecords₂ := RecordTable.save_ok hsave
          have hstamped : (stamp record version).key = id := by
            simp [StoredRecord.key, stamp, hrecord.id]
          rw [hrecords₁, hstamped] at hrecords₂
          simp only [Keeps, hrecords₂, ← List.append_assoc]
          exact Keeping.write h (StoredRecord.kept_keeping hkeep hkey hrecord version) rfl

theorem keeps_purgeAfter (h : Keeps earlier t) (results : List ExecutedResult) (id : String)
    (parts : Parts) : Keeps earlier (Plan.purgeAfter results id parts t).table := by
  simp only [Plan.purgeAfter, FeatureTable.purge]
  cases hpurge : FeatureTable.purge id t.table with
  | mk purged table =>
    cases purged with
    | error failure => exact h.of_same rfl (RecordTable.purge_error hpurge)
    | ok _ =>
      have hrecords := RecordTable.purge_ok hpurge
      simp only [Keeps, hrecords]
      exact Keeping.purge h id

theorem keeps_perform (hkeep : KeepsBodies (RecordTable.keep τ)) (h : Keeps earlier t) {id : String}
    (hkey : id ≠ "") {plan : Plan} (hplan : plan.Storable id) :
    Keeps earlier (plan.perform id t).table := by
  cases plan with
  | answer result => exact h
  | purge parts => exact keeps_purgeAfter h [] id parts
  | write op record thenPurge =>
    have hwrite := keeps_write hkeep h hkey hplan op
    simp only [Plan.perform]
    split
    · split
      · exact keeps_purgeAfter hwrite _ id _
      · exact hwrite
    · exact hwrite

theorem keeps_execute (hkeep : KeepsBodies (RecordTable.keep τ)) (h : Keeps earlier t)
    {intent : WriteIntent fmt} (hbuilt : intent.codec.Built) :
    Keeps earlier (execute intent t).table := by
  simp only [execute_eq, FeatureTable.load]
  cases htarget : intent.target with
  | none => exact h
  | some id =>
    simp only
    cases hload : FeatureTable.load id t.table with
    | mk loaded table =>
      cases loaded with
      | error failure => exact h.of_same rfl (RecordTable.load_error hload)
      | ok stored =>
        obtain ⟨rfl, hrecords⟩ := RecordTable.load_ok hload
        have hloaded : Keeps earlier { t with table } := h.of_same rfl hrecords
        have hplan : (Plan.make intent id (RecordTable.records t.table id)).Storable id :=
          Plan.storable_make hbuilt (fun r hr => (h.kept hr).storable)
        exact keeps_perform hkeep hloaded (WriteIntent.target_ne_empty htarget) hplan

theorem keeps_executeFrom (hkeep : KeepsBodies (RecordTable.keep τ)) (place : Nat)
    {intents : List (WriteIntent fmt)} (hbuilt : ∀ intent ∈ intents, intent.codec.Built)
    (h : Keeps earlier t) : Keeps earlier (executeFrom place t intents).2 := by
  induction intents generalizing place t with
  | nil => exact h
  | cons intent rest ih =>
    have hstep := keeps_execute hkeep h (hbuilt intent List.mem_cons_self)
    simp only [executeFrom]
    split
    · exact hstep
    · exact ih (place + 1) (fun other hmem => hbuilt other (List.mem_cons_of_mem _ hmem)) hstep

/-- A batch keeps the table so, and adds what it has allocated to the tokens. -/
theorem keeping_request (hkeep : KeepsBodies (RecordTable.keep τ)) {tokens : List String}
    {table : τ} (h : Keeping tokens (RecordTable.records table)) (config : StoreConfig)
    {request : WriteRequest fmt} (hbuilt : ∀ intent ∈ request, intent.codec.Built) :
    Keeping (tokens ++ allocatedBy config request table)
      (RecordTable.records (applyBatch table (config.arrange request).1).2) := by
  have hagenda : ∀ intent ∈ (config.agenda request).map Prod.snd, intent.codec.Built := by
    intro intent hmem
    have hperm := (config.agenda_perm request).map Prod.snd
    rw [WriteRequest.map_snd_numbered] at hperm
    obtain ⟨submitted, hsubmitted, rfl⟩ := List.mem_map.mp (hperm.mem_iff.mp hmem)
    exact (hbuilt submitted hsubmitted).sync
  have hstart : Keeps tokens ({ table } : Tallied τ) := by
    rw [Keeps, List.append_nil]
    exact h
  have hdone := keeps_executeFrom hkeep 0 hagenda hstart
  obtain ⟨-, htable⟩ := executeFrom_tallied 0 ({ table } : Tallied τ)
    ((config.agenda request).map Prod.snd)
  rw [Keeps, htable] at hdone
  rw [allocatedBy, applyBatch_arrange, applyBatch_arrange]
  exact hdone

end Batch

end FeatureStore
