-- SUMMARY: Sorting by id and back: stable sorts, and the answers of a batch in the order of submission.
import FeatureStore.Proofs.Attempts
import FeatureStore.Store.Execution

/-!
# Answers in the order of submission

A stable sort changes nothing about the members of one rank: it leaves them as they are
and in their order. That settles both sorts of a batch. Sorting the intents by id keeps
the intents of each id in their order, and sorting the results by the places of
submission puts the answers to the first intent before those to the second, and so on,
each as it was given.
-/

namespace FeatureStore

/-! ## Stable sorts -/

section StableSort

variable {α : Type}

/-- A stable sort keeps members that may stand in their order. -/
theorem filter_mergeSort {le : α → α → Bool} (htrans : ∀ a b c, le a b → le b c → le a c)
    (htotal : ∀ a b, le a b || le b a) (p : α → Bool) {l : List α}
    (h : (l.filter p).Pairwise (fun a b => le a b)) :
    (l.mergeSort le).filter p = l.filter p := by
  have hsub : (l.filter p).Sublist (l.mergeSort le) :=
    List.sublist_mergeSort htrans htotal h List.filter_sublist
  have hfilter : ((l.filter p).filter p).Sublist ((l.mergeSort le).filter p) := hsub.filter p
  simp only [List.filter_filter, Bool.and_self] at hfilter
  have hlength : (l.filter p).length = ((l.mergeSort le).filter p).length :=
    ((List.mergeSort_perm l le).filter p).length_eq.symm
  exact (hfilter.eq_of_length hlength).symm

/-- A list in the order of its ranks begins with the members of the low ranks. -/
theorem filter_lt_succ (rank : α → Nat) (n : Nat) {l : List α}
    (h : l.Pairwise (fun a b => rank a ≤ rank b)) :
    l.filter (fun a => rank a < n + 1)
      = l.filter (fun a => rank a < n) ++ l.filter (fun a => rank a = n) := by
  induction l with
  | nil => rfl
  | cons a rest ih =>
    obtain ⟨hhead, hrest⟩ := List.pairwise_cons.mp h
    have ih := ih hrest
    -- The list ascends, so after a member of rank n no lower rank follows.
    rcases Nat.lt_trichotomy (rank a) n with hlt | heq | hgt
    · have hsucc : rank a < n + 1 := by omega
      have hne : rank a ≠ n := by omega
      simp only [List.filter_cons, hlt, hsucc, hne, decide_true, decide_false, if_true,
        Bool.false_eq_true, if_false, ih, List.cons_append]
    · have hnone : rest.filter (fun b => rank b < n) = [] := by
        rw [List.filter_eq_nil_iff]
        intro b hb
        have := hhead b hb
        simp only [decide_eq_true_eq]
        omega
      subst heq
      have hsucc : rank a < rank a + 1 := by omega
      have hlt : ¬ rank a < rank a := by omega
      simp only [List.filter_cons, hsucc, hlt, decide_true, decide_false, if_true,
        Bool.false_eq_true, if_false, ih, hnone, List.nil_append]
    · have hsucc : ¬ rank a < n + 1 := by omega
      have hlt : ¬ rank a < n := by omega
      have hne : rank a ≠ n := by omega
      simp only [List.filter_cons, hlt, hsucc, hne, decide_false, Bool.false_eq_true, if_false, ih]

/-- A list in the order of its ranks is put together from its members of each rank. -/
theorem eq_flatMap_ranks (rank : α → Nat) (n : Nat) {l : List α}
    (hsorted : l.Pairwise (fun a b => rank a ≤ rank b)) (hrank : ∀ a ∈ l, rank a < n) :
    l = (List.range n).flatMap (fun i => l.filter (fun a => rank a = i)) := by
  have hbelow : ∀ m, l.filter (fun a => rank a < m)
      = (List.range m).flatMap (fun i => l.filter (fun a => rank a = i)) := by
    intro m
    induction m with
    | zero => simp
    | succ m ih => rw [filter_lt_succ rank m hsorted, List.range_succ, List.flatMap_append, ih]; simp
  rw [← hbelow n, List.filter_eq_self.mpr]
  simpa using hrank

/-- A stable sort by rank puts the members of each rank together. -/
theorem mergeSort_eq_flatMap_ranks (rank : α → Nat) (n : Nat) {l : List α}
    (hrank : ∀ a ∈ l, rank a < n) :
    l.mergeSort (fun a b => rank a ≤ rank b)
      = (List.range n).flatMap (fun i => l.filter (fun a => rank a = i)) := by
  have htrans : ∀ a b c : α, decide (rank a ≤ rank b) → decide (rank b ≤ rank c) →
      decide (rank a ≤ rank c) := by
    intro a b c hab hbc
    simp only [decide_eq_true_eq] at hab hbc ⊢
    exact Nat.le_trans hab hbc
  have htotal : ∀ a b : α, decide (rank a ≤ rank b) || decide (rank b ≤ rank a) := by
    intro a b
    simpa using Nat.le_total (rank a) (rank b)
  have hsorted := List.pairwise_mergeSort htrans htotal l
  rw [eq_flatMap_ranks rank n (l := l.mergeSort _) (by simpa using hsorted) (by simpa using hrank)]
  congr 1
  funext i
  apply filter_mergeSort htrans htotal
  apply List.Pairwise.imp_of_mem (R := fun _ _ => True)
  · intro a b ha hb _
    simp only [List.mem_filter, decide_eq_true_eq] at ha hb
    simp [ha.2, hb.2]
  · exact List.pairwise_of_forall (fun _ _ => trivial)

/-- Where each part has one rank, the members of a rank are the parts of that rank. -/
theorem filter_flatMap_ranks {β : Type} (key : α → Nat) (rank : β → Nat) (parts : α → List β)
    {l : List α} (h : ∀ a ∈ l, ∀ b ∈ parts a, rank b = key a) (i : Nat) :
    (l.flatMap parts).filter (fun b => rank b = i)
      = (l.filter (fun a => key a = i)).flatMap parts := by
  induction l with
  | nil => rfl
  | cons a rest ih =>
    have hrest := ih (fun a' ha' => h a' (List.mem_cons_of_mem _ ha'))
    have hhead := h a List.mem_cons_self
    rw [List.flatMap_cons, List.filter_append, hrest]
    by_cases hkey : key a = i
    · have hall : (parts a).filter (fun b => rank b = i) = parts a := by
        rw [List.filter_eq_self]
        intro b hb
        simp [hhead b hb, hkey]
      simp [hkey, hall]
    · have hnone : (parts a).filter (fun b => rank b = i) = [] := by
        rw [List.filter_eq_nil_iff]
        intro b hb
        simp [hhead b hb, hkey]
      simp [hkey, hnone]

/-- Where no rank comes twice, a member is alone with its rank. -/
theorem filter_eq_singleton (key : α → Nat) {l : List α} (h : (l.map key).Nodup) {a : α}
    (ha : a ∈ l) : l.filter (fun b => key b = key a) = [a] := by
  induction l with
  | nil => cases ha
  | cons b rest ih =>
    obtain ⟨hnot, hrest⟩ := List.nodup_cons.mp h
    rcases List.mem_cons.mp ha with rfl | hmem
    · have hnone : rest.filter (fun b => key b = key a) = [] := by
        rw [List.filter_eq_nil_iff]
        intro b hb hkey
        exact hnot (List.mem_map.mpr ⟨b, hb, by simpa using hkey⟩)
      simp [hnone]
    · have hne : key b ≠ key a := fun heq => hnot (heq ▸ List.mem_map_of_mem hmem)
      simp [hne, ih hrest hmem]

end StableSort

/-! ## The agenda of a request -/

variable {fmt : Format}

namespace WriteRequest

/-- Whether the id of an intent allows it to stand before another. -/
def mayPrecede (a b : Nat × WriteIntent fmt) : Bool :=
  idLe a.2.codec.parts.id b.2.codec.parts.id

theorem mayPrecede_trans (a b c : Nat × WriteIntent fmt) (hab : mayPrecede a b)
    (hbc : mayPrecede b c) : mayPrecede a c := by
  unfold mayPrecede at *
  generalize a.2.codec.parts.id = x at *
  generalize b.2.codec.parts.id = y at *
  generalize c.2.codec.parts.id = z at *
  cases x with
  | none => rfl
  | some x =>
    cases y with
    | none => cases hab
    | some y =>
      cases z with
      | none => cases hbc
      | some z =>
        simp only [idLe, decide_eq_true_eq] at *
        exact String.le_trans hab hbc

theorem mayPrecede_total (a b : Nat × WriteIntent fmt) : mayPrecede a b || mayPrecede b a := by
  unfold mayPrecede
  generalize a.2.codec.parts.id = x
  generalize b.2.codec.parts.id = y
  cases x with
  | none => rfl
  | some x =>
    cases y with
    | none => rfl
    | some y => simpa [idLe] using String.le_total x y

theorem map_fst_numbered (request : WriteRequest fmt) :
    (numbered request).map Prod.fst = List.range request.length := by
  simp only [numbered, List.map_map, List.range_eq_range', ← List.zipIdx_map_snd 0 request]
  rfl

theorem map_snd_numbered (request : WriteRequest fmt) :
    (numbered request).map Prod.snd = request.map WriteIntent.sync := by
  have hfst := congrArg (List.map WriteIntent.sync) (List.zipIdx_map_fst 0 request)
  rw [← hfst, numbered, List.map_map, List.map_map]
  rfl

/-- A numbered intent is the one that was submitted at its place. -/
theorem getElem?_of_mem_numbered {request : WriteRequest fmt} {entry : Nat × WriteIntent fmt}
    (h : entry ∈ numbered request) : (request[entry.1]?).map WriteIntent.sync = some entry.2 := by
  obtain ⟨⟨intent, place⟩, hmem, rfl⟩ := List.mem_map.mp h
  have := List.mem_zipIdx_iff_getElem?.mp hmem
  simp only at this
  simp [this]

/-- Intents of one id keep their order when a request is sorted. -/
theorem filter_sorted (request : WriteRequest fmt) {p : Nat × WriteIntent fmt → Bool}
    (h : ∀ a ∈ numbered request, ∀ b ∈ numbered request, p a → p b →
      a.2.codec.parts.id = b.2.codec.parts.id) :
    ((numbered request).mergeSort mayPrecede).filter p = (numbered request).filter p := by
  apply filter_mergeSort mayPrecede_trans mayPrecede_total
  apply List.Pairwise.imp_of_mem (R := fun _ _ => True)
  · intro a b ha hb _
    obtain ⟨hamem, hap⟩ := List.mem_filter.mp ha
    obtain ⟨hbmem, hbp⟩ := List.mem_filter.mp hb
    have hid := h a hamem b hbmem hap hbp
    have hself := mayPrecede_total b b
    rw [Bool.or_self] at hself
    unfold mayPrecede at hself ⊢
    rwa [hid]
  · exact List.pairwise_of_forall (fun _ _ => trivial)

/-- An intent that has been read is executed for the id that its parts name. -/
theorem id_of_target {request : WriteRequest fmt} {entry : Nat × WriteIntent fmt}
    (h : entry ∈ numbered request) {id : String} (htarget : entry.2.target = some id) :
    entry.2.codec.parts.id = some id := by
  obtain ⟨⟨intent, place⟩, -, rfl⟩ := List.mem_map.mp h
  simp only [WriteIntent.target, WriteIntent.sync_sync, Option.filter_eq_some_iff] at htarget
  exact htarget.1

end WriteRequest

/-- The intents in the order of execution, with their places of submission. -/
def StoreConfig.agenda (config : StoreConfig) (request : WriteRequest fmt) :
    List (Nat × WriteIntent fmt) :=
  if config.sortWritesById then (WriteRequest.numbered request).mergeSort WriteRequest.mayPrecede
  else WriteRequest.numbered request

namespace StoreConfig

theorem agenda_perm (config : StoreConfig) (request : WriteRequest fmt) :
    (config.agenda request).Perm (WriteRequest.numbered request) := by
  unfold agenda
  split
  · exact List.mergeSort_perm _ _
  · exact .refl _

/-- Intents that are submitted in the order of their ids are executed in this order. -/
theorem agenda_of_sorted (config : StoreConfig) {request : WriteRequest fmt}
    (h : (WriteRequest.numbered request).Pairwise
      (fun a b => WriteRequest.mayPrecede a b = true)) :
    config.agenda request = WriteRequest.numbered request := by
  unfold agenda
  split
  · exact List.mergeSort_of_pairwise h
  · rfl

/-- Every intent is executed once. -/
theorem agenda_places (config : StoreConfig) (request : WriteRequest fmt) :
    ((config.agenda request).map Prod.fst).Perm (List.range request.length) := by
  rw [← WriteRequest.map_fst_numbered]
  exact (config.agenda_perm request).map Prod.fst

/-- The intents that are executed for one id are executed in the order of submission. -/
theorem agenda_target (config : StoreConfig) (request : WriteRequest fmt) (id : String) :
    (config.agenda request).filter (fun entry => entry.2.target = some id)
      = (WriteRequest.numbered request).filter (fun entry => entry.2.target = some id) := by
  unfold agenda
  split
  · apply WriteRequest.filter_sorted
    intro a ha b hb hatarget hbtarget
    rw [WriteRequest.id_of_target ha (of_decide_eq_true hatarget),
      WriteRequest.id_of_target hb (of_decide_eq_true hbtarget)]
  · rfl

end StoreConfig

namespace Batch

variable {τ : Type} [FeatureTable τ]

theorem executeFrom_map_sync (place : Nat) (table : τ) (intents : List (WriteIntent fmt)) :
    executeFrom place table (intents.map WriteIntent.sync) = executeFrom place table intents := by
  induction intents generalizing place table with
  | nil => rfl
  | cons intent rest ih =>
    simp only [List.map_cons, executeFrom, execute_sync, WriteIntent.noResult_sync, ih]

def requestAttempts (config : StoreConfig) (request : WriteRequest fmt) (table : τ) :
    List (Attempt fmt τ) :=
  attempts 0 table (config.agenda request)

/-- The results for the intent that was submitted at a place. -/
def answersTo (submitted : Nat) (attempts : List (Attempt fmt τ)) : List ExecutedResult :=
  (attempts.filter (fun attempt => attempt.submitted = submitted)).flatMap Attempt.results

/-- Executing the arranged intents is executing the agenda. -/
theorem applyBatch_arrange (config : StoreConfig) (request : WriteRequest fmt) (table : τ) :
    applyBatch table (config.arrange request).1
      = executeFrom 0 table ((config.agenda request).map Prod.snd) := by
  unfold applyBatch StoreConfig.arrange StoreConfig.agenda
  split
  · rfl
  · rw [WriteRequest.map_snd_numbered, executeFrom_map_sync]

/-- The rank of a result is the place of submission of its attempt. -/
theorem rank_of_mem_results {config : StoreConfig} {request : WriteRequest fmt} {table : τ}
    {attempt : Attempt fmt τ} (h : attempt ∈ requestAttempts config request table)
    {result : ExecutedResult} (hresult : result ∈ attempt.results) :
    WriteOutcome.rank ⟨(config.agenda request).map Prod.fst⟩ result = attempt.submitted := by
  obtain ⟨k, hk⟩ := List.mem_iff_getElem?.mp h
  obtain ⟨hplace, hagenda⟩ := attempts_getElem? hk
  obtain ⟨f, hresults, hf⟩ := attempt.results_eq_map
  rw [hresults] at hresult
  obtain ⟨original, -, rfl⟩ := List.mem_map.mp hresult
  have hintent : (f original).intent = k := by rw [(hf original).2.2, hplace, Nat.zero_add]
  simp [WriteOutcome.rank, SubmissionOrder.submittedIndex, hintent, hagenda]

/-- The submitted places of the attempts are those of the agenda, up to where it stopped. -/
theorem submitted_agenda (config : StoreConfig) (request : WriteRequest fmt) (table : τ) :
    (requestAttempts config request table).map Attempt.submitted
      <+: (config.agenda request).map Prod.fst := by
  have hprefix := (attempts_agenda 0 table (config.agenda request)).map Prod.fst
  rw [List.map_map] at hprefix
  exact hprefix

theorem submitted_lt {config : StoreConfig} {request : WriteRequest fmt} {table : τ}
    {attempt : Attempt fmt τ} (h : attempt ∈ requestAttempts config request table) :
    attempt.submitted < request.length := by
  have hmem := (submitted_agenda config request table).subset (List.mem_map_of_mem h)
  exact List.mem_range.mp ((config.agenda_places request).mem_iff.mp hmem)

theorem submitted_nodup (config : StoreConfig) (request : WriteRequest fmt) (table : τ) :
    ((requestAttempts config request table).map Attempt.submitted).Nodup :=
  ((config.agenda_places request).nodup_iff.mpr List.nodup_range).sublist
    (submitted_agenda config request table).sublist

/-- The answers to an intent are the results of the attempt at it. -/
theorem answersTo_eq_results {config : StoreConfig} {request : WriteRequest fmt} {table : τ}
    {attempt : Attempt fmt τ} (h : attempt ∈ requestAttempts config request table) :
    answersTo attempt.submitted (requestAttempts config request table) = attempt.results := by
  rw [answersTo, filter_eq_singleton Attempt.submitted (submitted_nodup config request table) h]
  simp

/-- The answers in the order of submission are the results of all attempts. -/
theorem perm_answersTo (config : StoreConfig)
    (request : WriteRequest fmt) (table : τ) :
    ((List.range request.length).flatMap
        (fun i => answersTo i (requestAttempts config request table))).Perm
      ((requestAttempts config request table).flatMap Attempt.results) := by
  have hsorted := mergeSort_eq_flatMap_ranks Attempt.submitted request.length
    (l := requestAttempts config request table) (fun attempt => submitted_lt)
  have hperm := List.mergeSort_perm (requestAttempts config request table)
    (fun a b => a.submitted ≤ b.submitted)
  rw [hsorted] at hperm
  have hresults := hperm.flatMap_right Attempt.results
  rw [List.flatMap_assoc] at hresults
  exact hresults

end Batch

open Batch in
/-- The rows of an outcome are the answers to the intents, in the order of submission. -/
theorem codecs_executeRequest {σ τ : Type} [FeatureTable τ] (config : StoreConfig)
    (request : WriteRequest fmt) (table : τ) :
    let outcome : WriteOutcome σ fmt := (executeRequest config request table).1
    let attempts := requestAttempts config request table
    outcome.cursor.codecs
        = ((List.range request.length).flatMap (fun i => answersTo i attempts)).map
            ExecutedResult.toCodec ∧
      outcome.failure = attempts.findSome? Attempt.failure := by
  intro outcome attempts
  have hreport : (applyBatch table (config.arrange request).1).1
      = { results := attempts.flatMap Attempt.results
          failure := attempts.findSome? Attempt.failure } := by
    rw [applyBatch_arrange, executeFrom_attempts]
    rfl
  have houtcome : outcome = .ofResults (attempts.flatMap Attempt.results)
      (config.arrange request).2 (attempts.findSome? Attempt.failure) := by
    simp only [outcome, executeRequest, hreport]
  have hsubmitted : ∀ attempt ∈ attempts, attempt.submitted < request.length :=
    fun attempt => submitted_lt
  -- Without sorting the attempts are in the order of submission, and with it the results are
  -- put back into it.
  cases hsort : config.sortWritesById with
  | false =>
    have harrange : (config.arrange request).2 = none := by simp [StoreConfig.arrange, hsort]
    have hascending : attempts.Pairwise (fun a b => a.submitted ≤ b.submitted) := by
      have hprefix := submitted_agenda config request table
      simp only [StoreConfig.agenda, hsort, Bool.false_eq_true, if_false,
        WriteRequest.map_fst_numbered] at hprefix
      have hrange := (List.pairwise_lt_range (n := request.length)).sublist hprefix.sublist
      exact (List.pairwise_map.mp hrange).imp Nat.le_of_lt
    rw [houtcome, harrange]
    refine ⟨?_, rfl⟩
    have hsplit := eq_flatMap_ranks Attempt.submitted request.length hascending hsubmitted
    simp only [WriteOutcome.ofResults, HeapCursor.ofCodecs]
    conv => lhs; rw [hsplit, List.flatMap_assoc]
    rfl
  | true =>
    have harrange : (config.arrange request).2
        = some ⟨(config.agenda request).map Prod.fst⟩ := by
      simp only [StoreConfig.arrange, StoreConfig.agenda, hsort, if_true]
      rfl
    have hrank : ∀ attempt ∈ attempts, ∀ result ∈ attempt.results,
        WriteOutcome.rank ⟨(config.agenda request).map Prod.fst⟩ result = attempt.submitted :=
      fun attempt hattempt result => rank_of_mem_results hattempt
    rw [houtcome, harrange]
    refine ⟨?_, rfl⟩
    have hlt : ∀ result ∈ attempts.flatMap Attempt.results,
        WriteOutcome.rank ⟨(config.agenda request).map Prod.fst⟩ result < request.length := by
      intro result hresult
      obtain ⟨attempt, hattempt, hmem⟩ := List.mem_flatMap.mp hresult
      rw [hrank attempt hattempt result hmem]
      exact hsubmitted attempt hattempt
    have hsorted := mergeSort_eq_flatMap_ranks _ request.length hlt
    simp only [filter_flatMap_ranks Attempt.submitted _ Attempt.results hrank] at hsorted
    exact congrArg (List.map ExecutedResult.toCodec) hsorted

/-! ## Every intent is answered once -/

namespace Batch

variable {τ : Type} [FeatureTable τ] {config : StoreConfig} {request : WriteRequest fmt}
  {table : τ}

/-- The intent of an attempt is the one of the agenda at its place. -/
theorem eq_of_agenda {place submitted : Nat} {intent : WriteIntent fmt} {attempt : Attempt fmt τ}
    (hattempt : (requestAttempts config request table)[place]? = some attempt)
    (hagenda : (config.agenda request)[place]? = some (submitted, intent)) :
    attempt.submitted = submitted ∧ attempt.intent = intent ∧ attempt.place = place := by
  obtain ⟨hplace, hentry⟩ := attempts_getElem? hattempt
  rw [hentry] at hagenda
  cases hagenda
  exact ⟨rfl, rfl, by omega⟩

/-- An intent that was not attempted has no answer. -/
theorem answersTo_eq_nil {place submitted : Nat} {intent : WriteIntent fmt}
    (hagenda : (config.agenda request)[place]? = some (submitted, intent))
    (hplace : (requestAttempts config request table).length ≤ place) :
    answersTo submitted (requestAttempts config request table) = [] := by
  have hnone : (requestAttempts config request table).filter
      (fun attempt => attempt.submitted = submitted) = [] := by
    rw [List.filter_eq_nil_iff]
    intro attempt hattempt hsubmitted
    obtain ⟨k, hk⟩ := List.mem_iff_getElem?.mp hattempt
    obtain ⟨-, hentry⟩ := attempts_getElem? hk
    have hlt : k < (requestAttempts config request table).length :=
      (List.getElem?_eq_some_iff.mp hk).1
    have hnodup : ((config.agenda request).map Prod.fst).Nodup :=
      (config.agenda_places request).nodup_iff.mpr List.nodup_range
    have heq : attempt.submitted = submitted := by simpa using hsubmitted
    have hfst : ((config.agenda request).map Prod.fst)[k]?
        = ((config.agenda request).map Prod.fst)[place]? := by
      simp [hentry, hagenda, heq]
    have hk' : k < ((config.agenda request).map Prod.fst).length := by
      rw [List.length_map]
      exact (List.getElem?_eq_some_iff.mp hentry).1
    have := (List.getElem?_inj hk' hnodup).mp hfst
    omega
  simp [answersTo, hnone]

theorem answers_of_attempt {place submitted : Nat} {intent : WriteIntent fmt}
    {attempt : Attempt fmt τ}
    (hattempt : (requestAttempts config request table)[place]? = some attempt)
    (hagenda : (config.agenda request)[place]? = some (submitted, intent)) :
    answersTo submitted (requestAttempts config request table) = attempt.results ∧
      (∀ result ∈ attempt.results, result.intent = place) ∧
      (attempt.failure = none → Answered intent.op attempt.results) ∧
      ∀ failure, attempt.failure = some failure →
        Interrupted intent.op failure attempt.step.table attempt.results := by
  obtain ⟨rfl, rfl, rfl⟩ := eq_of_agenda hattempt hagenda
  have hmem : attempt ∈ requestAttempts config request table := List.mem_of_getElem? hattempt
  refine ⟨answersTo_eq_results hmem, ?_, attempt.accounted⟩
  obtain ⟨f, hresults, hf⟩ := attempt.results_eq_map
  intro result hresult
  rw [hresults] at hresult
  obtain ⟨original, -, rfl⟩ := List.mem_map.mp hresult
  exact (hf original).2.2

/-- The agenda has an entry for each intent of the request. -/
theorem length_agenda (config : StoreConfig) (request : WriteRequest fmt) :
    (config.agenda request).length = request.length := by
  simpa using (config.agenda_places request).length_eq

theorem intent_of_agenda {place submitted : Nat} {intent : WriteIntent fmt}
    (hagenda : (config.agenda request)[place]? = some (submitted, intent)) :
    (request[submitted]?).map WriteIntent.sync = some intent :=
  WriteRequest.getElem?_of_mem_numbered
    ((config.agenda_perm request).mem_iff.mp (List.mem_of_getElem? hagenda))

/-- If no attempt is stopped then there is one at every place. -/
theorem exists_attempt_of_complete
    (h : (requestAttempts config request table).findSome? Attempt.failure = none) {place : Nat}
    (hplace : place < request.length) :
    ∃ attempt, (requestAttempts config request table)[place]? = some attempt ∧
      attempt.failure = none := by
  have hall : (requestAttempts config request table).length = request.length := by
    rw [← length_agenda config, ← congrArg List.length (attempts_complete h), List.length_map]
    rfl
  have hlt : place < (requestAttempts config request table).length := by rwa [hall]
  exact ⟨_, List.getElem?_eq_getElem hlt, List.findSome?_eq_none_iff.mp h _ (List.getElem_mem hlt)⟩

/-- If the table stops an attempt then that is the last one, and the batch ends with its table. -/
theorem exists_stopped {σ : Type} {failure : StoreError}
    (h : (requestAttempts config request table).findSome? Attempt.failure = some failure) :
    ∃ executed last, executed < request.length ∧
      (requestAttempts config request table).length = executed + 1 ∧
      (requestAttempts config request table)[executed]? = some last ∧
      last.failure = some failure ∧
      (executeRequest config request table : WriteOutcome σ fmt × τ).2 = last.step.table ∧
      ∀ place < executed, ∃ attempt,
        (requestAttempts config request table)[place]? = some attempt ∧ attempt.failure = none := by
  obtain ⟨earlier, last, hattempts, hearlier, hlast⟩ := attempts_stopped h
  have hlength : (requestAttempts config request table).length = earlier.length + 1 := by
    rw [requestAttempts, hattempts, List.length_append, List.length_singleton]
  refine ⟨earlier.length, last, ?_, hlength, ?_, hlast, ?_, ?_⟩
  · have hle := (attempts_agenda 0 table (config.agenda request)).length_le
    rw [List.length_map, length_agenda] at hle
    exact Nat.lt_of_succ_le (Nat.le_trans (Nat.le_of_eq hlength.symm) hle)
  · rw [requestAttempts, hattempts]
    simp
  · have htable := executeFrom_table 0 table (config.agenda request)
    rw [hattempts, ← applyBatch_arrange] at htable
    simpa [executeRequest] using htable
  · intro place hplace
    refine ⟨earlier[place], ?_, hearlier _ (List.getElem_mem hplace)⟩
    rw [requestAttempts, hattempts, List.getElem?_append_left hplace,
      List.getElem?_eq_getElem hplace]

end Batch

open Batch in
/-- Every intent is answered once, in the order of submission. The rows of an outcome are
    the answers to the first intent, then those to the second, and so on. With `executed`
    intents executed before a failure, if there was one, an intent executed earlier has one
    answer or the two of a purge, the one that failed has none or the deletion of a purge,
    and a later one has none. -/
theorem executeRequest_answers_once {σ τ : Type} [FeatureTable τ] (config : StoreConfig)
    (request : WriteRequest fmt) (table : τ) :
    let done : WriteOutcome σ fmt × τ := executeRequest config request table
    let answers (submitted : Nat) := answersTo submitted (requestAttempts config request table)
    done.1.cursor.codecs
        = ((List.range request.length).flatMap answers).map ExecutedResult.toCodec ∧
      ((config.agenda request).map Prod.fst).Perm (List.range request.length) ∧
      ∃ executed ≤ request.length, (done.1.failure = none ↔ executed = request.length) ∧
        ∀ place submitted intent, (config.agenda request)[place]? = some (submitted, intent) →
          (request[submitted]?).map WriteIntent.sync = some intent ∧
          (∀ result ∈ answers submitted, result.intent = place) ∧
          (place < executed → Answered intent.op (answers submitted)) ∧
          (place = executed → ∃ failure, done.1.failure = some failure ∧
            Interrupted intent.op failure done.2 (answers submitted)) ∧
          (executed < place → answers submitted = []) := by
  intro done answers
  obtain ⟨hcodecs, hfailure⟩ := @codecs_executeRequest fmt σ τ _ config request table
  refine ⟨hcodecs, config.agenda_places request, ?_⟩
  cases hstopped : (requestAttempts config request table).findSome? Attempt.failure with
  | none =>
    refine ⟨request.length, Nat.le_refl _, by simp [done, hfailure, hstopped], ?_⟩
    intro place submitted intent hagenda
    have hlt : place < request.length := by
      rw [← length_agenda config]
      exact (List.getElem?_eq_some_iff.mp hagenda).1
    obtain ⟨attempt, hattempt, hdone⟩ := exists_attempt_of_complete hstopped hlt
    obtain ⟨hanswers, htagged, hanswered, -⟩ := answers_of_attempt hattempt hagenda
    simp only [answers, hanswers]
    exact ⟨intent_of_agenda hagenda, htagged, fun _ => hanswered hdone, by omega, by omega⟩
  | some failure =>
    obtain ⟨executed, last, hlt, hlength, hat, hlast, htable, hearlier⟩ :=
      exists_stopped (σ := σ) hstopped
    refine ⟨executed, Nat.le_of_lt hlt, by simp [done, hfailure, hstopped]; omega, ?_⟩
    intro place submitted intent hagenda
    have hrequest := intent_of_agenda hagenda
    -- The batch was stopped at one place: before it all is done, and after it nothing.
    rcases Nat.lt_trichotomy place executed with hbefore | rfl | hafter
    · obtain ⟨attempt, hattempt, hdone⟩ := hearlier place hbefore
      obtain ⟨hanswers, htagged, hanswered, -⟩ := answers_of_attempt hattempt hagenda
      simp only [answers, hanswers]
      exact ⟨hrequest, htagged, fun _ => hanswered hdone, by omega, by omega⟩
    · obtain ⟨hanswers, htagged, -, hinterrupted⟩ := answers_of_attempt hat hagenda
      simp only [answers, hanswers, done, htable]
      exact ⟨hrequest, htagged, by omega,
        fun _ => ⟨failure, hfailure.trans hstopped, hinterrupted failure hlast⟩, by omega⟩
    · have hlate : (requestAttempts config request table).length ≤ place := by omega
      have hnone := answersTo_eq_nil hagenda hlate
      simp only [answers, hnone]
      exact ⟨hrequest, by simp, by omega, by omega, fun _ => trivial⟩

end FeatureStore
