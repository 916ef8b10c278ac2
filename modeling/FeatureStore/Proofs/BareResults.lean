-- SUMMARY: What the results of a batch show of intents that ask for no bodies, also where the batch is stopped.
import FeatureStore.Proofs.Accounts
import Mathlib.Data.List.Basic

/-!
# Bare results

An intent can ask for results that show no more of a feature than its id and its version. That
changes nothing of what a batch does: beside the same batch with all bodies, the table ends the
same, the failure is the same, and each result is the same or has lost its body, as its own intent
has asked for.

One result keeps its body all the same. Bodies are taken out when an intent has been executed, and
the intent that the table has stopped has not been; so the deletion is shown in full where the
second step of a purge fails.
-/

namespace FeatureStore

variable {fmt : Format}

/-- Neither a body nor a geometry nor a type. -/
structure Parts.Bare (parts : Parts) : Prop where
  json : parts.json = none
  geometry : parts.geometry = .neither
  featureType : parts.featureType = none
  propertiesType : parts.propertiesType = none

theorem Parts.bare_identity (parts : Parts) : parts.identity.Bare := ⟨rfl, rfl, rfl, rfl⟩

namespace ExecutedResult

/-- The result shows no more than the id and the version of a feature. -/
def Bare (result : ExecutedResult) : Prop := ∀ parts, result.feature = some parts → parts.Bare

theorem bare_withoutBody (result : ExecutedResult) : result.withoutBody.Bare := by
  intro parts hparts
  obtain ⟨full, -, rfl⟩ := Option.map_eq_some_iff.mp hparts
  exact full.bare_identity

@[simp] theorem withoutBody_withoutBody (result : ExecutedResult) :
    result.withoutBody.withoutBody = result.withoutBody := by
  cases hfeature : result.feature <;> simp [withoutBody, Parts.identity, hfeature]

/-- The result with its body left out if its intent is to have bare results. -/
def leaveOut (bare : Nat → Bool) (result : ExecutedResult) : ExecutedResult :=
  if bare result.intent then result.withoutBody else result

@[simp] theorem withoutBody_leaveOut (bare : Nat → Bool) (result : ExecutedResult) :
    (result.leaveOut bare).withoutBody = result.withoutBody := by
  unfold leaveOut
  split
  · exact result.withoutBody_withoutBody
  · rfl

end ExecutedResult

def WriteIntent.withBodies (intent : WriteIntent fmt) : WriteIntent fmt :=
  { intent with noResult := false }

namespace Batch

variable {τ : Type} [FeatureTable τ]

/-- What is done for an intent does not depend on what its results are to show. -/
theorem execute_withBodies (intent : WriteIntent fmt) (table : τ) :
    execute intent.withBodies table = execute intent table := by
  rw [execute_eq, execute_eq]
  rfl

/-! ## Attempts beside those with bodies -/

def Attempt.withBodies (attempt : Attempt fmt τ) : Attempt fmt τ :=
  { attempt with intent := attempt.intent.withBodies }

namespace Attempt

theorem step_withBodies (attempt : Attempt fmt τ) : attempt.withBodies.step = attempt.step :=
  execute_withBodies attempt.intent attempt.before

theorem failure_withBodies (attempt : Attempt fmt τ) :
    attempt.withBodies.failure = attempt.failure := by
  unfold failure
  rw [step_withBodies]

theorem results_withBodies (attempt : Attempt fmt τ) :
    attempt.withBodies.results
      = attempt.step.results.map (fun result => result.forIntent attempt.place) := by
  have hbodies : attempt.withBodies.intent.noResult = false := rfl
  simp only [results, hbodies, step_withBodies, Bool.and_false, Bool.false_eq_true, if_false]
  rfl

/-- An attempt has the results of that with bodies, left without them if its intent asks for that
    and was not stopped. -/
theorem results_leaveOut (attempt : Attempt fmt τ) {bare : Nat → Bool}
    (h : bare attempt.place = (attempt.failure.isNone && attempt.intent.noResult)) :
    attempt.results = attempt.withBodies.results.map (ExecutedResult.leaveOut bare) := by
  rw [results_withBodies, results, ← h]
  cases hbare : bare attempt.place <;>
    simp [ExecutedResult.leaveOut, ExecutedResult.forIntent, hbare]

/-- An intent that asks for bare results has them, unless its purge is stopped after the deletion. -/
theorem bare_or_interrupted {attempt : Attempt fmt τ} (hbare : attempt.intent.noResult = true)
    {result : ExecutedResult} (h : result ∈ attempt.results) :
    result.Bare ∨
      (attempt.intent.op = .purge ∧ result.op = .deleted ∧
        ∃ failure, attempt.failure = some failure ∧
          ∃ id before, FeatureTable.purge id before = (.error failure, attempt.step.table)) := by
  cases hfailure : attempt.failure with
  | none =>
    left
    simp only [results, hfailure, hbare, Option.isNone_none, Bool.and_self, if_true] at h
    obtain ⟨full, -, rfl⟩ := List.mem_map.mp h
    exact full.bare_withoutBody
  | some failure =>
    right
    rcases attempt.accounted.2 failure hfailure with
      hnil | ⟨hop, ⟨deleted, hresults, hdeleted⟩, hpurge⟩
    · rw [hnil] at h
      cases h
    · rw [hresults] at h
      obtain rfl := List.mem_singleton.mp h
      exact ⟨hop, hdeleted, failure, rfl, hpurge⟩

end Attempt

/-- A batch with bodies in all its results attempts the same. -/
theorem attempts_withBodies (place : Nat) (table : τ) (agenda : List (Nat × WriteIntent fmt)) :
    attempts place table (agenda.map (Prod.map id WriteIntent.withBodies))
      = (attempts place table agenda).map Attempt.withBodies := by
  induction agenda generalizing place table with
  | nil => rfl
  | cons entry rest ih =>
    cases hwritten : (execute entry.2 table).written with
    | error failure =>
      rw [attempts_cons_of_error hwritten, List.map_cons,
        attempts_cons_of_error (by rw [Prod.map_snd, execute_withBodies]; exact hwritten)]
      rfl
    | ok written =>
      rw [attempts_cons_of_ok hwritten, List.map_cons,
        attempts_cons_of_ok (by rw [Prod.map_snd, execute_withBodies]; exact hwritten),
        Prod.map_snd, execute_withBodies, ih]
      rfl

/-- The attempts that are not stopped are at the places before the number of completed intents, and
    the one that is stopped is at the next place. -/
theorem place_of_mem_attempts {place : Nat} {table : τ} {agenda : List (Nat × WriteIntent fmt)}
    {attempt : Attempt fmt τ} (h : attempt ∈ attempts place table agenda) :
    let next := place + completed table (agenda.map Prod.snd)
    (attempt.failure = none → attempt.place < next) ∧
      ∀ failure, attempt.failure = some failure → attempt.place = next := by
  induction agenda generalizing place table with
  | nil => cases h
  | cons entry rest ih =>
    rw [List.map_cons, completed]
    cases hwritten : (execute entry.2 table).written with
    | error failure =>
      rw [attempts_cons_of_error hwritten] at h
      obtain rfl := List.mem_singleton.mp h
      simp [Attempt.failure, Attempt.step, hwritten]
    | ok written =>
      rw [attempts_cons_of_ok hwritten] at h
      rcases List.mem_cons.mp h with rfl | h
      · simp [Attempt.failure, Attempt.step, hwritten]
      · have hlater := ih h
        rw [Nat.add_assoc, Nat.add_comm 1] at hlater
        exact hlater

/-- The intent of an attempt is the one at its place. -/
theorem getElem?_place {table : τ} {agenda : List (Nat × WriteIntent fmt)}
    {attempt : Attempt fmt τ} (h : attempt ∈ attempts 0 table agenda) :
    (agenda.map Prod.snd)[attempt.place]? = some attempt.intent := by
  obtain ⟨k, hk⟩ := List.mem_iff_getElem?.mp h
  obtain ⟨hplace, hagenda⟩ := attempts_getElem? hk
  rw [hplace, Nat.zero_add, List.getElem?_map, hagenda, Option.map_some]

/-- The results of an attempt are left bare if its intent asks for that and was not stopped. -/
theorem leftBare_of_mem_attempts {table : τ} {agenda : List (Nat × WriteIntent fmt)}
    {attempt : Attempt fmt τ} (h : attempt ∈ attempts 0 table agenda) :
    leftBare (completed table (agenda.map Prod.snd)) (agenda.map Prod.snd) attempt.place
      = (attempt.failure.isNone && attempt.intent.noResult) := by
  obtain ⟨hcompleted, hstopped⟩ := place_of_mem_attempts h
  rw [Nat.zero_add] at hcompleted hstopped
  rw [leftBare, getElem?_place h, Option.any_some]
  cases hfailure : attempt.failure with
  | none => rw [decide_eq_true (hcompleted hfailure), Option.isNone_none]
  | some failure =>
    rw [decide_eq_false (by rw [hstopped failure hfailure]; exact Nat.lt_irrefl _),
      Option.isNone_some]

/-- A batch that is stopped has the failure of the attempt that is stopped, and leaves the table of
    that attempt. -/
theorem executeFrom_of_stopped {place : Nat} {table : τ} {agenda : List (Nat × WriteIntent fmt)}
    {attempt : Attempt fmt τ} (h : attempt ∈ attempts place table agenda) {failure : StoreError}
    (hfailure : attempt.failure = some failure) :
    (executeFrom place table (agenda.map Prod.snd)).1.failure = some failure ∧
      (executeFrom place table (agenda.map Prod.snd)).2 = attempt.step.table := by
  induction agenda generalizing place table with
  | nil => cases h
  | cons entry rest ih =>
    rw [List.map_cons]
    cases hwritten : (execute entry.2 table).written with
    | error stopped =>
      rw [attempts_cons_of_error hwritten] at h
      obtain rfl := List.mem_singleton.mp h
      obtain rfl : stopped = failure := by
        simpa [Attempt.failure, Attempt.step, hwritten] using hfailure
      rw [executeFrom_cons_of_error hwritten]
      exact ⟨rfl, rfl⟩
    | ok written =>
      rw [attempts_cons_of_ok hwritten] at h
      rcases List.mem_cons.mp h with rfl | h
      · simp [Attempt.failure, Attempt.step, hwritten] at hfailure
      · rw [executeFrom_cons_of_ok hwritten]
        exact ih h

/-- A batch beside the same batch with bodies in all results. -/
theorem executeFrom_withBodies (table : τ) (agenda : List (Nat × WriteIntent fmt)) :
    let intents := agenda.map Prod.snd
    let done := executeFrom 0 table intents
    let full := executeFrom 0 table (intents.map WriteIntent.withBodies)
    done.2 = full.2 ∧ done.1.failure = full.1.failure ∧
      done.1.results
        = full.1.results.map (.leaveOut (leftBare (completed table intents) intents)) := by
  intro intents done full
  have hagenda : intents.map WriteIntent.withBodies
      = (agenda.map (Prod.map id WriteIntent.withBodies)).map Prod.snd := by
    simp [intents]
  have hfailures : (fun attempt : Attempt fmt τ => attempt.withBodies.failure) = Attempt.failure :=
    funext Attempt.failure_withBodies
  simp only [done, full, hagenda, intents, executeFrom_attempts, executeFrom_table,
    attempts_withBodies]
  refine ⟨?_, ?_, ?_⟩
  · cases hlast : (attempts 0 table agenda).getLast? <;> simp [hlast, Attempt.step_withBodies]
  · rw [List.findSome?_map, Function.comp_def, hfailures]
  · rw [List.map_flatMap, List.flatMap_map]
    refine List.flatMap_congr fun attempt hattempt => ?_
    exact attempt.results_leaveOut (leftBare_of_mem_attempts hattempt)

/-- A result for an intent that asks for bare results is bare, unless it is the deletion for a purge
    that has stopped the batch. -/
theorem bare_or_stopped {table : τ} {agenda : List (Nat × WriteIntent fmt)}
    {result : ExecutedResult} {intent : WriteIntent fmt}
    (h : result ∈ (executeFrom 0 table (agenda.map Prod.snd)).1.results)
    (hintent : (agenda.map Prod.snd)[result.intent]? = some intent)
    (hbare : intent.noResult = true) :
    let intents := agenda.map Prod.snd
    let done := executeFrom 0 table intents
    result.Bare ∨
      (result.intent = completed table intents ∧ intent.op = .purge ∧ result.op = .deleted ∧
        ∃ failure, done.1.failure = some failure ∧
          ∃ id before, FeatureTable.purge id before = (.error failure, done.2)) := by
  intro intents done
  rw [executeFrom_attempts] at h
  obtain ⟨attempt, hattempt, hresult⟩ := List.mem_flatMap.mp h
  have hplace : result.intent = attempt.place := by
    obtain ⟨f, hresults, hf⟩ := attempt.results_eq_map
    rw [hresults] at hresult
    obtain ⟨original, -, rfl⟩ := List.mem_map.mp hresult
    exact (hf original).2.2
  rw [hplace, getElem?_place hattempt] at hintent
  cases hintent
  -- A result with a body is that of an attempt which failed, and a batch stops at the first one.
  rcases attempt.bare_or_interrupted hbare hresult with
    hbare | ⟨hop, hdeleted, failure, hfailure, hpurge⟩
  · exact .inl hbare
  · obtain ⟨hreported, htable⟩ := executeFrom_of_stopped hattempt hfailure
    have hstopped := (place_of_mem_attempts hattempt).2 failure hfailure
    refine .inr ⟨?_, hop, hdeleted, failure, hreported, ?_⟩
    · rw [hplace, hstopped, Nat.zero_add]
    · rwa [htable]

end Batch

/-- That an intent asks for bare results changes nothing but its own results, in any batch on any
    table. Beside the same batch with bodies in all results, the table ends the same and the failure
    is the same. The results are the same too, except that those of the completed intents that ask
    for it have no body; an id and a version they have all the same. A result for an intent that
    asks for bare results has a body only if it is the deletion for a purge that the table has then
    stopped. -/
theorem bodies_are_left_out {τ : Type} [FeatureTable τ] (table : τ)
    (intents : List (WriteIntent fmt)) :
    let done := applyBatch table intents
    let full := applyBatch table (intents.map WriteIntent.withBodies)
    let completed := Batch.completed table intents
    done.2 = full.2 ∧ done.1.failure = full.1.failure ∧
    done.1.results = full.1.results.map (.leaveOut (Batch.leftBare completed intents)) ∧
    done.1.results.map ExecutedResult.withoutBody
      = full.1.results.map ExecutedResult.withoutBody ∧
    ∀ result ∈ done.1.results, ∀ intent, intents[result.intent]? = some intent →
      intent.noResult = true →
        result.Bare ∨
          (result.intent = completed ∧ intent.op = .purge ∧ result.op = .deleted ∧
            ∃ failure, done.1.failure = some failure ∧
              ∃ id before, FeatureTable.purge id before = (.error failure, done.2)) := by
  -- Attempts carry places of submission, which play no part here.
  obtain ⟨agenda, rfl⟩ : ∃ agenda : List (Nat × WriteIntent fmt), agenda.map Prod.snd = intents :=
    ⟨intents.map (Prod.mk 0), by simp [Function.comp_def]⟩
  intro done full completed
  obtain ⟨htable, hfailure, hresults⟩ := Batch.executeFrom_withBodies table agenda
  refine ⟨htable, hfailure, hresults, ?_, ?_⟩
  · rw [show done.1.results = _ from hresults, List.map_map]
    exact List.map_congr_left fun result _ => result.withoutBody_leaveOut _
  · intro result hresult intent hintent hno
    exact Batch.bare_or_stopped hresult hintent hno

/-- A purge that asks for bare results is stopped after the deletion, which is shown with the body. -/
theorem stopped_purge_shows_body :
    let record : StoredRecord :=
      { parts := { id := some "a", version := some "t", json := some "[]" }, deleted := false }
    let table : LimitedTable :=
      { records := Dictionary.empty.insert "a" record, budget := { purge := some 0 } }
    let purge : WriteIntent .geo := { WriteIntent.ofId .purge "a" (some "t") with noResult := true }
    let results := (applyBatch table [purge]).1.results
    results.map ExecutedResult.op = [.deleted] ∧ results.map ExecutedResult.intent = [0] ∧
      results.map (fun result => result.feature.bind Parts.json) = [some "[]"] := by
  decide

end FeatureStore
