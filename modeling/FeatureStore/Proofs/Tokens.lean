-- SUMMARY: Version tokens: how they are told apart, and which of them a batch allocates.
import FeatureStore.Proofs.Ledger
import FeatureStore.Proofs.Submission
import FeatureStore.Proofs.Tally
import Mathlib.Algebra.Ring.Nat
import Mathlib.Data.List.Basic

/-!
# Tokens

A token is a text, and two tokens of a collection are equal only if they have the same
batch and the same write: the digits of a number contain no colon. A counter that has
not reached its limit therefore gives out a new token each time.

What a batch allocates on a steady table is a first piece of the versions that the table
has to give out, and what it leaves is the rest.
-/

namespace FeatureStore

open Stream'

/-! ## Tokens are told apart by their numbers -/

theorem colon_notMem_toDigits (n : Nat) : ':' ∉ Nat.toDigits 10 n := by
  intro hmem
  have hdigit := Nat.isDigit_of_mem_toDigits (by decide) (by decide) hmem
  exact absurd hdigit (by decide)

theorem toDigits_inj {m n : Nat} (h : Nat.toDigits 10 m = Nat.toDigits 10 n) : m = n := by
  have hvalue := congrArg (fun digits => Nat.ofDigitChars 10 digits 0) h
  simpa only [Nat.ofDigitChars_ten_toDigits] using hvalue

theorem toList_versionToken (collection : String) (batch write : Nat) :
    (versionToken collection batch write).toList
      = collection.toList ++ ':' :: (Nat.toDigits 10 batch ++ ':' :: Nat.toDigits 10 write) := by
  simp [versionToken, String.toList_append, ← Nat.toList_repr]

theorem versionToken_inj {collection : String} {batch batch' write write' : Nat}
    (h : versionToken collection batch write = versionToken collection batch' write') :
    batch = batch' ∧ write = write' := by
  have hlist := congrArg String.toList h
  rw [toList_versionToken, toList_versionToken] at hlist
  have htail := List.append_cancel_left hlist
  simp only [List.cons.injEq, true_and] at htail
  obtain ⟨hbatch, -, hwrite⟩ := (List.append_cons_inj_of_notMem
    (colon_notMem_toDigits batch) (colon_notMem_toDigits write)).mp htail
  exact ⟨toDigits_inj hbatch, toDigits_inj hwrite⟩

/-! ## What a counter gives out -/

/-- A counter below its limit goes up by one. -/
theorem nextCount_eq {n : Nat} (h : n + 1 < 2 ^ 64) : nextCount n = n + 1 := by
  simp only [nextCount, UInt64.size]
  omega

theorem nextCount_lt (n : Nat) : nextCount n < 2 ^ 64 := by
  simp only [nextCount, UInt64.size]
  omega

theorem le_nextCount {n : Nat} (h : n < 2 ^ 64) : n ≤ nextCount n := by
  simp only [nextCount, UInt64.size]
  omega

theorem get_iterate_nextCount (i : Nat) {n : Nat} (h : n + i < 2 ^ 64) :
    (iterate nextCount n).get i = n + i := by
  induction i generalizing n with
  | zero => rfl
  | succ i ih =>
    rw [iterate_eq, get_succ_cons, nextCount_eq (by omega), ih (by omega)]
    omega

theorem get_counterVersions (collection : String) (batch : Nat) {i : Nat} (h : i + 1 < 2 ^ 64) :
    (counterVersions collection batch 0).get i = versionToken collection batch (i + 1) := by
  rw [counterVersions, get_map, nextCount_eq (n := 0) (by omega), Nat.zero_add, get_iterate_nextCount i (by omega), Nat.add_comm]

/-- The first tokens of a counter. -/
theorem eq_of_append_counterVersions {collection : String} {batch : Nat} {tokens : List String}
    {rest : Stream' String} (h : tokens ++ₛ rest = counterVersions collection batch 0)
    (hlength : tokens.length < 2 ^ 64) :
    tokens = (List.range' 1 tokens.length).map (versionToken collection batch) := by
  apply List.ext_getElem
  · simp
  · intro i hi _
    have hget := congrArg (fun versions => versions.get i) h
    simp only [get_append_left _ _ _ hi, get_counterVersions collection batch (i := i) (by omega)]
      at hget
    rw [hget, List.getElem_map, List.getElem_range']
    congr 1
    omega

theorem nodup_map_versionToken (collection : String) (batch : Nat) {writes : List Nat}
    (h : writes.Nodup) : (writes.map (versionToken collection batch)).Nodup :=
  List.pairwise_map.mpr (h.imp (fun hne heq => hne (versionToken_inj heq).2))

/-- The tokens of a batch, followed by those of later ones: none is there twice, and none has
    the number of an earlier batch. -/
theorem nodup_append_later {collection : String} {batch : Nat} {first later : List String}
    (hfirst : first = (List.range' 1 first.length).map (versionToken collection batch))
    (hnodup : later.Nodup)
    (hlater : ∀ token ∈ later,
      ∃ other write, batch < other ∧ token = versionToken collection other write) :
    (first ++ later).Nodup ∧
      ∀ token ∈ first ++ later,
        ∃ other write, batch ≤ other ∧ token = versionToken collection other write := by
  have hnumbered : ∀ token ∈ first, ∃ write, token = versionToken collection batch write := by
    intro token htoken
    rw [hfirst] at htoken
    obtain ⟨write, -, rfl⟩ := List.mem_map.mp htoken
    exact ⟨write, rfl⟩
  simp only [List.nodup_append, List.mem_append]
  refine ⟨⟨?_, hnodup, ?_⟩, ?_⟩
  · rw [hfirst]
    exact nodup_map_versionToken _ _ List.nodup_range'
  · intro token htoken other hother heq
    obtain ⟨write, rfl⟩ := hnumbered token htoken
    obtain ⟨number, write', hlt, rfl⟩ := hlater other hother
    exact absurd (versionToken_inj heq).1 (Nat.ne_of_lt hlt)
  · rintro token (htoken | htoken)
    · obtain ⟨write, rfl⟩ := hnumbered token htoken
      exact ⟨batch, write, Nat.le_refl batch, rfl⟩
    · obtain ⟨number, write, hlt, rfl⟩ := hlater token htoken
      exact ⟨number, write, Nat.le_of_lt hlt, rfl⟩

/-! ## What a batch allocates -/

variable {fmt : Format}

namespace Batch.Plan

/-- A plan has a token among its results exactly when it takes a version. -/
theorem token_effect {plan : Plan} (h : plan.Labelled) (keep : Body → Body)
    (stored : Option StoredRecord) (version : String) :
    (plan.effect keep stored version).results.filterMap ExecutedResult.token
      = if (plan.effect keep stored version).wrote then [version] else [] := by
  cases plan with
  | answer result =>
    simp [effect, ExecutedResult.token_eq_none h]
  | purge parts => rfl
  | write op record thenPurge =>
    have hop : op.writes = true := h
    cases thenPurge with
    | false => simp [effect, ExecutedResult.token_executed, stamp, hop]
    | true =>
      have hpurged : ExecutedOp.purged.writes = false := rfl
      simp [effect, ExecutedResult.token_executed, stamp, hop, hpurged]

end Batch.Plan

theorem Batch.Attempt.token_results {τ : Type} [FeatureTable τ] (attempt : Batch.Attempt fmt τ) :
    attempt.results.filterMap ExecutedResult.token
      = attempt.step.results.filterMap ExecutedResult.token := by
  simp only [Batch.Attempt.results]
  split <;> simp [List.filterMap_map, Function.comp_def]

namespace Ledger

variable (keep : Body → Body)

theorem token_execute (intent : WriteIntent fmt) (ledger : Ledger) :
    (ledger.execute keep intent).1.filterMap ExecutedResult.token
      ++ₛ (ledger.execute keep intent).2.versions = ledger.versions := by
  unfold execute
  split
  · rfl
  · next id _ =>
    have htokens : (ledger.effect keep intent id).results.filterMap ExecutedResult.token
        = if (ledger.effect keep intent id).wrote then [ledger.versions.head] else [] :=
      Batch.Plan.token_effect (Batch.Plan.labelled_make intent id _) keep _ _
    simp only [after, htokens]
    cases (ledger.effect keep intent id).wrote with
    | true => exact append_stream_head_tail ledger.versions
    | false => rfl

/-- The tokens of a run are those that it takes from its versions. -/
theorem token_executeFrom (place : Nat) (intents : List (WriteIntent fmt)) (ledger : Ledger) :
    (ledger.executeFrom keep place intents).1.filterMap ExecutedResult.token
      ++ₛ (ledger.executeFrom keep place intents).2.versions = ledger.versions := by
  induction intents generalizing place ledger with
  | nil => rfl
  | cons intent rest ih =>
    have hstep := token_execute keep intent ledger
    simp only [executeFrom, Batch.filterMap_token_reported, List.filterMap_append,
      append_append_stream, ih]
    exact hstep

end Ledger

variable {τ : Type} [FeatureTable τ] [SteadyTable τ]

/-- On a steady table a batch is not stopped, and it allocates the first of the versions
    that the table has to give out. -/
theorem allocatedBy_steady (config : StoreConfig) (request : WriteRequest fmt) {table : τ}
    (hsound : SteadyTable.sound table) (hrecords : Identified (RecordTable.records table)) :
    let done := applyBatch table (config.arrange request).1
    done.1.failure = none ∧
      allocatedBy config request table = done.1.results.filterMap ExecutedResult.token ∧
      allocatedBy config request table ++ₛ SteadyTable.versions done.2
        = SteadyTable.versions table := by
  obtain ⟨table', hexecute, -, hledger⟩ :=
    SteadyTable.executeFrom_ledger 0 (config.arrange request).1 hsound hrecords
  have hfailure : (Batch.executeFrom 0 table (config.arrange request).1).1.failure = none := by
    rw [hexecute]
  have hallocated : allocatedBy config request table
      = (Batch.executeFrom 0 table (config.arrange request).1).1.results.filterMap
          ExecutedResult.token :=
    Batch.allocated_executeFrom (t := { table }) hfailure
  have htokens := Ledger.token_executeFrom (RecordTable.keep τ) 0 (config.arrange request).1
    (SteadyTable.ledger table)
  rw [← hledger] at htokens
  refine ⟨hfailure, hallocated, ?_⟩
  rw [hallocated, hexecute, applyBatch, hexecute]
  exact htokens

/-- What a batch allocates is what its attempts report. -/
theorem allocatedBy_attempts (config : StoreConfig) (request : WriteRequest fmt) {table : τ}
    (hsound : SteadyTable.sound table) (hrecords : Identified (RecordTable.records table)) :
    allocatedBy config request table
      = ((Batch.requestAttempts config request table).flatMap Batch.Attempt.results).filterMap
          ExecutedResult.token := by
  obtain ⟨-, hallocated, -⟩ := allocatedBy_steady config request hsound hrecords
  rw [hallocated, Batch.applyBatch_arrange, Batch.executeFrom_attempts]
  rfl

namespace MemoryStore

/-- The store at the beginning of its next batch. -/
def begun (s : MemoryStore) : MemoryStore := { s with batch := nextCount s.batch, writes := 0 }

/-- The versions that a batch allocates. -/
def allocated (s : MemoryStore) (request : WriteRequest fmt) : List String :=
  if s.closed then [] else allocatedBy s.config request s.begun

/-- A batch counts its writes from one on. -/
theorem allocated_eq {s : MemoryStore} (request : WriteRequest fmt) (hrecords : Identified s.get)
    (hlength : (s.allocated request).length < 2 ^ 64) :
    s.allocated request
      = (List.range' 1 (s.allocated request).length).map
          (versionToken s.config.collection (nextCount s.batch)) := by
  by_cases hclosed : s.closed = true
  · simp [allocated, hclosed]
  · have hallocated : s.allocated request = allocatedBy s.config request s.begun := if_neg hclosed
    rw [hallocated] at hlength ⊢
    have hbegun : SteadyTable.sound s.begun := trivial
    obtain ⟨-, -, hversions⟩ := allocatedBy_steady s.config request hbegun hrecords
    exact eq_of_append_counterVersions hversions hlength

end MemoryStore

end FeatureStore
