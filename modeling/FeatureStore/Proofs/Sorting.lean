-- SUMMARY: Sorting the intents of a batch by id does not show in what the batch does.
import FeatureStore.Proofs.Reordering
import FeatureStore.Proofs.Runs

/-!
# Sorting is invisible

A store executes a batch in the order of submission or in the order of the ids. The two
executions answer alike and leave the same records, but for the tokens, which the writes
get in the order of execution: so the tokens of the one are matched with those of the
other. In a store that calls have led to, no new token is held by a record, and the old
tokens stay as they are.
-/

namespace FeatureStore

variable {fmt : Format}

namespace Batch

/-! ## All answers together -/

/-- The pairs match each token of one list with one of the other. -/
structure Matched (pairs : List (String × String)) (tokens tokens' : List String) : Prop where
  fst : (pairs.map Prod.fst).Perm tokens
  snd : (pairs.map Prod.snd).Perm tokens'

variable {same : String → String → Prop} {answers answers' : Nat → List ExecutedResult} {n : Nat}

/-- Answers that correspond one by one do so together. -/
theorem like_answers
    (h : ∀ i < n, List.Forall₂ (ExecutedResult.Like same) (answers i) (answers' i)) :
    List.Forall₂ (ExecutedResult.Like same) ((List.range n).flatMap answers)
      ((List.range n).flatMap answers') := by
  induction n with
  | zero => exact .nil
  | succ n ih =>
    have hlast := h n (Nat.lt_succ_self n)
    have hinit := ih (fun i hi => h i (Nat.lt_succ_of_lt hi))
    simp only [List.range_succ, List.flatMap_append, List.flatMap_singleton]
    exact List.rel_append hinit hlast

/-- Corresponding answers report as many tokens. -/
theorem length_tokens {rs ss : List ExecutedResult}
    (h : List.Forall₂ (ExecutedResult.Like same) rs ss) :
    (rs.filterMap ExecutedResult.token).length = (ss.filterMap ExecutedResult.token).length := by
  have htokens : List.Forall₂ same (rs.filterMap ExecutedResult.token)
      (ss.filterMap ExecutedResult.token) :=
    List.rel_filterMap (fun _ _ hlike => ExecutedResult.Like.token hlike) h
  exact htokens.length_eq

theorem matched_tokenPairs
    (h : ∀ i < n, List.Forall₂ (ExecutedResult.Like same) (answers i) (answers' i)) :
    Matched (tokenPairs n answers answers')
      (((List.range n).flatMap answers).filterMap ExecutedResult.token)
      (((List.range n).flatMap answers').filterMap ExecutedResult.token) := by
  have hlength : ∀ i ∈ List.range n, ((answers i).filterMap ExecutedResult.token).length
      = ((answers' i).filterMap ExecutedResult.token).length :=
    fun i hi => length_tokens (h i (List.mem_range.mp hi))
  constructor
  · rw [tokenPairs, List.map_flatMap, List.filterMap_flatMap]
    rw [List.flatMap_congr (fun i hi => List.map_fst_zip (Nat.le_of_eq (hlength i hi)))]
  · rw [tokenPairs, List.map_flatMap, List.filterMap_flatMap]
    rw [List.flatMap_congr (fun i hi => List.map_snd_zip (Nat.le_of_eq (hlength i hi).symm))]

/-- The answers to a request report the tokens that it allocates. -/
theorem perm_allocatedBy {τ : Type} [FeatureTable τ] [SteadyTable τ] (config : StoreConfig)
    (request : WriteRequest fmt) {table : τ} (hsound : SteadyTable.sound table)
    (hid : Identified (RecordTable.records table)) :
    (((List.range request.length).flatMap
        (fun i => answersTo i (requestAttempts config request table))).filterMap
          ExecutedResult.token).Perm (allocatedBy config request table) := by
  rw [allocatedBy_attempts config request hsound hid]
  exact (perm_answersTo config request table).filterMap _

end Batch

namespace MemoryStore

open Batch

/-! ## Reachable stores -/

/-- The stores that calls lead to. -/
inductive Reachable : MemoryStore → Prop
  | empty (config : StoreConfig) : Reachable (ofConfig config)
  | execute {s : MemoryStore} {fmt : Format} (request : WriteRequest fmt) :
    Reachable s → Reachable (s.afterBatch request)
  | close {s : MemoryStore} : Reachable s → Reachable s.close

/-- The records of the store have tokens, and every token has the number of a batch that
    has begun. -/
structure Numbered (s : MemoryStore) : Prop where
  identified : Identified s.get
  versioned : Versioned s.get
  counted : s.batch < 2 ^ 64
  begun : ∀ id token, heldBy s.get id = some token →
    ∃ batch ≤ s.batch, ∃ write, token = versionToken s.config.collection batch write

/-- A batch allocates tokens with its own number. -/
theorem mem_allocated {s : MemoryStore} {request : WriteRequest fmt} (hid : Identified s.get)
    {token : String} (h : token ∈ s.allocated request) :
    ∃ write, token = versionToken s.config.collection (nextCount s.batch) write := by
  unfold allocated at h
  split at h
  · cases h
  · have hbegun : SteadyTable.sound s.begun := trivial
    obtain ⟨-, -, hversions⟩ := allocatedBy_steady s.config request hbegun hid
    obtain ⟨i, hi, rfl⟩ := List.mem_iff_getElem.mp h
    have hget := Stream'.get_append_left i _
      (SteadyTable.versions (applyBatch s.begun (s.config.arrange request).1).2) hi
    rw [hversions] at hget
    exact ⟨_, hget.symm⟩

theorem Numbered.afterBatch {s : MemoryStore} (h : s.Numbered) (request : WriteRequest fmt) :
    (s.afterBatch request).Numbered := by
  by_cases hclosed : s.closed = true
  · rw [afterBatch_closed request hclosed]
    exact h
  · obtain ⟨-, hheld, htokens, hid, hversion⟩ :=
      history_afterBatch request hclosed h.identified h.versioned
    obtain ⟨hconfig, hbatch, -⟩ := frame_afterBatch request hclosed
    refine ⟨hid, hversion, hbatch ▸ nextCount_lt s.batch, ?_⟩
    intro id token htoken
    rw [hheld] at htoken
    rw [hconfig, hbatch]
    rcases Change.lastWrote_or_of_replay htoken with ⟨before, after, hchanges, -⟩ | ⟨hold, -⟩
    · have hmem : token ∈ s.allocated request := by
        have hreport : (s.chapter request).allocated = s.allocated request := rfl
        rw [← hreport, ← htokens, hchanges]
        exact List.mem_filterMap.mpr ⟨.wrote id token, by simp, rfl⟩
      obtain ⟨write, rfl⟩ := mem_allocated h.identified hmem
      exact ⟨nextCount s.batch, Nat.le_refl _, write, rfl⟩
    · obtain ⟨batch, hle, write, rfl⟩ := h.begun id token hold
      exact ⟨batch, Nat.le_trans hle (le_nextCount h.counted), write, rfl⟩

theorem Reachable.numbered {s : MemoryStore} (h : Reachable s) : s.Numbered := by
  induction h with
  | empty config =>
    have hempty : ∀ id, (ofConfig config).get id = none := fun _ => rfl
    have hcounted : (ofConfig config).batch < 2 ^ 64 := Nat.two_pow_pos 64
    refine ⟨?_, ?_, hcounted, ?_⟩
    · intro id record hrecord
      simp [hempty] at hrecord
    · intro id record hrecord
      simp [hempty] at hrecord
    · intro id token htoken
      simp [heldBy, hempty] at htoken
  | execute request _ ih => exact ih.afterBatch request
  | close _ ih => exact ⟨ih.identified, ih.versioned, ih.counted, ih.begun⟩

/-- The tokens of a batch are new, unless the count of the batches is exhausted. -/
theorem Numbered.allocated_fresh {s : MemoryStore} (h : s.Numbered) {request : WriteRequest fmt}
    (hbatch : s.batch + 1 < 2 ^ 64) (hlength : (s.allocated request).length < 2 ^ 64) :
    (s.allocated request).Nodup ∧
      ∀ token ∈ s.allocated request, ∀ id, heldBy s.get id ≠ some token := by
  constructor
  · rw [allocated_eq request h.identified hlength]
    exact nodup_map_versionToken _ _ List.nodup_range'
  · intro token htoken id hheld
    obtain ⟨write, rfl⟩ := mem_allocated h.identified htoken
    obtain ⟨batch, hle, write', heq⟩ := h.begun id _ hheld
    have hnext : nextCount s.batch = batch := (versionToken_inj heq).1
    rw [nextCount_eq hbatch] at hnext
    omega

/-! ## The two executions of a request -/

/-- The store with sorting by id switched on or off. -/
def sorting (s : MemoryStore) (sorted : Bool) : MemoryStore :=
  { s with config := s.config.withSortWritesById sorted }

theorem Numbered.sorting {s : MemoryStore} (h : s.Numbered) (sorted : Bool) :
    (s.sorting sorted).Numbered :=
  ⟨h.identified, h.versioned, h.counted, h.begun⟩

/-- The results of a request, in the order of submission. -/
def results (s : MemoryStore) (request : WriteRequest fmt) : List ExecutedResult :=
  if s.closed then []
  else (List.range request.length).flatMap
    (fun i => answersTo i (requestAttempts s.config request s.begun))

/-- The rows of the outcome show the results. -/
theorem codecs_execute {σ : Type} (s : MemoryStore) (request : WriteRequest fmt) :
    let outcome : WriteOutcome σ fmt := (s.execute request).1
    outcome.cursor.codecs = (s.results request).map ExecutedResult.toCodec := by
  intro outcome
  by_cases hclosed : s.closed = true
  · simp only [outcome, execute, results, if_pos hclosed]
    rfl
  · simp only [outcome, execute, results, if_neg hclosed]
    exact (@codecs_executeRequest fmt σ MemoryStore _ s.config request s.begun).1

/-- A batch in an open store does not fail. -/
theorem failure_execute {σ : Type} {s : MemoryStore} (hid : Identified s.get)
    (request : WriteRequest fmt) :
    let outcome : WriteOutcome σ fmt := (s.execute request).1
    outcome.failure = if s.closed then some .closed else none := by
  intro outcome
  by_cases hclosed : s.closed = true
  · simp only [outcome, execute, if_pos hclosed]
    rfl
  · have hbegun : SteadyTable.sound s.begun := trivial
    have hfailure := (@codecs_executeRequest fmt σ MemoryStore _ s.config request s.begun).2
    have hnone : (requestAttempts s.config request s.begun).findSome? Attempt.failure = none := by
      rw [List.findSome?_eq_none_iff]
      intro attempt hattempt
      exact (requestAttempts_steady s.config request hbegun hid attempt hattempt).step_eq.1
    simp only [outcome, execute, if_neg hclosed]
    exact hfailure.trans hnone

theorem allocated_perm {s : MemoryStore} (hid : Identified s.get) (request : WriteRequest fmt) :
    ((s.results request).filterMap ExecutedResult.token).Perm (s.allocated request) := by
  unfold results allocated
  split
  · exact .nil
  · have hbegun : SteadyTable.sound s.begun := trivial
    exact perm_allocatedBy s.config request hbegun hid

/-- With sorting and without it the results and the records are the same but for the tokens, and
    these are matched by the pairs. -/
structure LikeSorted (s : MemoryStore) (request : WriteRequest fmt)
    (pairs : List (String × String)) : Prop where
  tokens : Matched pairs ((s.sorting false).allocated request) ((s.sorting true).allocated request)
  results : List.Forall₂ (ExecutedResult.Like (Renamed pairs (heldBy s.get)))
    ((s.sorting false).results request) ((s.sorting true).results request)
  records : ∀ id, Option.Rel (StoredRecord.Like (Renamed pairs (heldBy s.get)))
    (((s.sorting false).afterBatch request).get id) (((s.sorting true).afterBatch request).get id)

theorem likeSorted_of_closed {s : MemoryStore} (hclosed : s.closed = true)
    (request : WriteRequest fmt) : s.LikeSorted request [] := by
  have hclosed' : ∀ sorted, (s.sorting sorted).closed = true := fun _ => hclosed
  have htokens : ∀ sorted, (s.sorting sorted).allocated request = [] :=
    fun sorted => if_pos (hclosed' sorted)
  have hresults : ∀ sorted, (s.sorting sorted).results request = [] :=
    fun sorted => if_pos (hclosed' sorted)
  refine ⟨⟨by simp [htokens], by simp [htokens]⟩, ?_, fun id => ?_⟩
  · rw [hresults, hresults]
    exact .nil
  · rw [afterBatch_closed request (hclosed' false), afterBatch_closed request (hclosed' true)]
    exact like_held [] s.get id

theorem likeSorted_of_open {s : MemoryStore} (hopen : ¬ s.closed = true) (hid : Identified s.get)
    {request : WriteRequest fmt}
    (hguards : ∀ intent ∈ request, ∀ guard, intent.version.1 = some guard →
      ∀ sorted, guard ∉ (s.sorting sorted).allocated request) :
    ∃ pairs, s.LikeSorted request pairs := by
  have hopen' : ∀ sorted, ¬ (s.sorting sorted).closed = true := fun _ => hopen
  have hallocated : ∀ sorted, (s.sorting sorted).allocated request
      = allocatedBy (s.sorting sorted).config request (s.sorting sorted).begun :=
    fun sorted => if_neg (hopen' sorted)
  have hresults : ∀ sorted, (s.sorting sorted).results request
      = (List.range request.length).flatMap (fun i => answersTo i
          (requestAttempts (s.sorting sorted).config request (s.sorting sorted).begun)) :=
    fun sorted => if_neg (hopen' sorted)
  have hafter : ∀ sorted, (s.sorting sorted).afterBatch request
      = (applyBatch (s.sorting sorted).begun
          ((s.sorting sorted).config.arrange request).1).2 := by
    intro sorted
    rw [applyBatch_arrange]
    exact afterBatch_open request (hopen' sorted)
  have hbegun : ∀ sorted, SteadyTable.sound (s.sorting sorted).begun := fun _ => trivial
  have hguards' : ∀ intent ∈ request, ∀ guard, intent.version.1 = some guard →
      guard ∉ allocatedBy (s.sorting false).config request (s.sorting false).begun ∧
      guard ∉ allocatedBy (s.sorting true).config request (s.sorting true).begun := by
    intro intent hintent guard hguard
    rw [← hallocated, ← hallocated]
    exact ⟨hguards intent hintent guard hguard false, hguards intent hintent guard hguard true⟩
  -- Both executions are of one request on the same records, and no guard is renamed.
  obtain ⟨hanswers, hrecords⟩ := like_executions (hbegun false) hid (hbegun true) rfl hguards'
  have hmatched := matched_tokenPairs hanswers
  have hlike := like_answers hanswers
  rw [← hresults false, ← hresults true] at hmatched hlike
  refine ⟨_, ⟨?_, ?_⟩, hlike, fun id => ?_⟩
  · exact hmatched.fst.trans (@allocated_perm _ (s.sorting false) hid request)
  · exact hmatched.snd.trans (@allocated_perm _ (s.sorting true) hid request)
  · rw [hafter, hafter]
    exact hrecords id

/-- Sorting the intents of a batch by id does not show in what the batch does. In a store
    that calls have led to, let no guard of a request be a token that the request allocates.
    Then with sorting and without it the request gets the same results, in the order of
    submission, and leaves the same records, but for the tokens. The tokens of the one
    execution are matched with those of the other; they are all different, and new, unless
    a count is exhausted. -/
theorem sorting_is_invisible {σ : Type} {s : MemoryStore} (hreachable : Reachable s)
    (request : WriteRequest fmt)
    (hguards : ∀ intent ∈ request, ∀ guard, intent.version.1 = some guard →
      ∀ sorted, guard ∉ (s.sorting sorted).allocated request) :
    let outcome (sorted : Bool) : WriteOutcome σ fmt := ((s.sorting sorted).execute request).1
    let results (sorted : Bool) := (s.sorting sorted).results request
    let after (sorted : Bool) := (s.sorting sorted).afterBatch request
    let tokens (sorted : Bool) := (s.sorting sorted).allocated request
    ∃ pairs : List (String × String),
      Matched pairs (tokens false) (tokens true) ∧
      (s.batch + 1 < 2 ^ 64 → ∀ sorted, (tokens sorted).length < 2 ^ 64 →
        (tokens sorted).Nodup ∧ ∀ token ∈ tokens sorted, ∀ id, heldBy s.get id ≠ some token) ∧
      (∀ sorted, (outcome sorted).cursor.codecs
        = (results sorted).map ExecutedResult.toCodec) ∧
      (outcome false).failure = (outcome true).failure ∧
      List.Forall₂ (ExecutedResult.Like (Renamed pairs (heldBy s.get)))
        (results false) (results true) ∧
      ∀ id, Option.Rel (StoredRecord.Like (Renamed pairs (heldBy s.get)))
        ((after false).get id) ((after true).get id) := by
  intro outcome results after tokens
  have hnumbered : ∀ sorted, (s.sorting sorted).Numbered := hreachable.numbered.sorting
  have hid : Identified s.get := hreachable.numbered.identified
  have hfresh : s.batch + 1 < 2 ^ 64 → ∀ sorted, (tokens sorted).length < 2 ^ 64 →
      (tokens sorted).Nodup ∧ ∀ token ∈ tokens sorted, ∀ id, heldBy s.get id ≠ some token :=
    fun hbatch sorted hlength => (hnumbered sorted).allocated_fresh hbatch hlength
  have hcodecs : ∀ sorted, (outcome sorted).cursor.codecs
      = (results sorted).map ExecutedResult.toCodec :=
    fun sorted => codecs_execute (s.sorting sorted) request
  have hfailure : (outcome false).failure = (outcome true).failure := by
    have hoff := failure_execute (σ := σ) (hnumbered false).identified request
    have hon := failure_execute (σ := σ) (hnumbered true).identified request
    exact hoff.trans hon.symm
  have hlike : ∃ pairs, s.LikeSorted request pairs := by
    by_cases hclosed : s.closed = true
    · exact ⟨[], likeSorted_of_closed hclosed request⟩
    · exact likeSorted_of_open hclosed hid hguards
  obtain ⟨pairs, htokens, hresults, hrecords⟩ := hlike
  exact ⟨pairs, htokens, hfresh, hcodecs, hfailure, hresults, hrecords⟩

/-- An update of `b` is submitted before a creation of `a`, and sorting has it executed
    after it. Both are answered as without sorting. -/
theorem sorting_is_invisible_of_two_ids :
    let create (id : String) : WriteIntent .geo :=
      .ofCodec .create (.ofParts { id := some id, json := some "" })
    let update : WriteIntent .geo :=
      .ofCodec .update (.ofParts { id := some "b", version := some "c:1:1", json := some "" })
    let s := (ofConfig { collection := "c", sortWritesById := false }).afterBatch [create "b"]
    let request := [update, create "a"]
    (Reachable s ∧ ∀ intent ∈ request, ∀ guard, intent.version.1 = some guard →
        ∀ sorted, guard ∉ (s.sorting sorted).allocated request) ∧
      ∀ sorted, ((s.sorting sorted).results request).map ExecutedResult.op
        = [.updated, .created] := by
  intro create update s request
  have hreachable : Reachable s := (Reachable.empty _).execute [create "b"]
  have hguards : ∀ intent ∈ request, ∀ guard, intent.version.1 = some guard →
      ∀ sorted, guard ∉ (s.sorting sorted).allocated request := by
    intro intent hintent guard hguard sorted hmem
    have hid : Identified (s.sorting sorted).get := hreachable.numbered.identified
    obtain ⟨write, htoken⟩ := mem_allocated hid hmem
    have hfirst : guard = versionToken "c" 1 1 := by
      simp only [request, List.mem_cons, List.not_mem_nil, or_false] at hintent
      rcases hintent with rfl | rfl
      · exact (Option.some.inj hguard).symm
      · cases hguard
    have hbatch : nextCount s.batch = 2 := by decide
    have hsame : 1 = nextCount s.batch := (versionToken_inj (hfirst.symm.trans htoken)).1
    omega
  refine ⟨⟨hreachable, hguards⟩, ?_⟩
  obtain ⟨pairs, -, -, -, -, hresults, -⟩ :=
    sorting_is_invisible (σ := Unit) hreachable request hguards
  have hops := List.rel_map (fun _ _ hlike => ExecutedResult.Like.op hlike) hresults
  rw [List.forall₂_eq_eq_eq] at hops
  have hoff : ((s.sorting false).results request).map ExecutedResult.op
      = [.updated, .created] := by
    decide
  intro sorted
  cases sorted with
  | false => exact hoff
  | true => exact hops.symm.trans hoff

end MemoryStore

end FeatureStore
