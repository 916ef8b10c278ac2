-- SUMMARY: The ranks of an outcome by its ids are known exactly when they give back the order of its rows.
import FeatureStore.Proofs.Accounts
import FeatureStore.Proofs.InputOrder

/-!
# Ranks by id

The outcome of a sorted batch knows the rank of each id, which is that of the first row with
this id, unless the rows would not be in the order of these ranks. The one pass that assigns
the ranks stops when the rank of a row would be lower than the one before it. That happens
when an id comes back after another one: the results of one intent are all for one id, so
different ids have different ranks. Apart from that only rows without an id keep the ranks
from being known.
-/

namespace FeatureStore

variable {σ τ : Type} {fmt : Format}

/-! ## Lists in which equal members stand together -/

/-- Whatever stands between two equal members is equal to them. -/
def Contiguous {α : Type} (xs : List α) : Prop :=
  ∀ (i j k : Nat) (x : α), i < j → j < k → xs[i]? = some x → xs[k]? = some x → xs[j]? = some x

theorem contiguous_replicate {α : Type} (n : Nat) (x : α) : Contiguous (List.replicate n x) := by
  intro i j k y _ hjk _ hk
  rw [List.getElem?_replicate] at hk ⊢
  split at hk
  next hlt => rwa [if_pos (Nat.lt_trans hjk hlt)]
  next => cases hk

/-! ## The rank of the first result with an id -/

namespace WriteOutcome

variable {order : SubmissionOrder} {results done rest : List ExecutedResult}

/-- The rank of the first result with an id. -/
def firstRank? (order : SubmissionOrder) (results : List ExecutedResult) (id : String) :
    Option Nat :=
  (results.find? (fun result => decide (result.id = some id))).map (rank order)

def rankById (order : SubmissionOrder) (results : List ExecutedResult) (result : ExecutedResult) :
    Nat :=
  (result.id.bind (firstRank? order results)).getD 0

/-- A result with an id either is the first one with it or comes later. -/
theorem exists_first (order : SubmissionOrder) {i : Nat} {result : ExecutedResult}
    (h : results[i]? = some result) {id : String} (hid : result.id = some id) :
    ∃ place first, place ≤ i ∧ results[place]? = some first ∧ first.id = some id ∧
      firstRank? order results id = some (rank order first) := by
  cases hfind : results.find? (fun result => decide (result.id = some id)) with
  | none =>
    have hnone := List.find?_eq_none.mp hfind result (List.mem_of_getElem? h)
    exact absurd (decide_eq_true hid) hnone
  | some first =>
    obtain ⟨hfirst, place, hplace, rfl, hbefore⟩ := List.find?_eq_some_iff_getElem.mp hfind
    refine ⟨place, results[place], ?_, List.getElem?_eq_getElem hplace, of_decide_eq_true hfirst, ?_⟩
    · refine Nat.le_of_not_lt fun hlt => ?_
      have hearlier := hbefore i hlt
      obtain ⟨hi, rfl⟩ := List.getElem?_eq_some_iff.mp h
      simp [hid] at hearlier
    · rw [firstRank?, hfind, Option.map_some]

theorem firstRank?_append (order : SubmissionOrder) (done rest : List ExecutedResult)
    (id : String) :
    firstRank? order (done ++ rest) id = (firstRank? order done id).or (firstRank? order rest id) := by
  rw [firstRank?, firstRank?, firstRank?, List.find?_append, Option.map_or]

theorem firstRank?_cons {result : ExecutedResult} (id : String) :
    firstRank? order (result :: rest) id
      = if result.id = some id then some (rank order result) else firstRank? order rest id := by
  simp only [firstRank?, List.find?_cons]
  by_cases hid : result.id = some id
  · simp [hid]
  · simp [hid]

/-- So the rank of a result by its id is that of a result which is not later. -/
theorem exists_rankById (hids : ∀ result ∈ results, result.id.isSome = true) {i : Nat}
    {result : ExecutedResult} (h : results[i]? = some result) :
    ∃ place first, place ≤ i ∧ results[place]? = some first ∧ first.id = result.id ∧
      rankById order results result = rank order first := by
  obtain ⟨id, hid⟩ := Option.isSome_iff_exists.mp (hids result (List.mem_of_getElem? h))
  obtain ⟨place, first, hle, hplace, hfirst, hrank⟩ := exists_first order h hid
  refine ⟨place, first, hle, hplace, hfirst.trans hid.symm, ?_⟩
  rw [rankById, hid, Option.bind_some, hrank, Option.getD_some]

/-- The ranks are those of the first results with their ids. -/
def Known (order : SubmissionOrder) (done : List ExecutedResult) (ranks : Keyed Nat) : Prop :=
  ∀ id, ranks.find? id = firstRank? order done id

namespace Known

variable {ranks : Keyed Nat} {result : ExecutedResult} {id : String}

theorem firstRank?_eq (h : Known order done ranks) (hid : result.id = some id) :
    firstRank? order (done ++ result :: rest) id
      = some ((ranks.find? id).getD (rank order result)) := by
  rw [firstRank?_append, firstRank?_cons, if_pos hid, ← h id]
  cases ranks.find? id <;> rfl

theorem rankById_eq (h : Known order done ranks) (hid : result.id = some id) :
    rankById order (done ++ result :: rest) result = (ranks.find? id).getD (rank order result) := by
  rw [rankById, hid, Option.bind_some, h.firstRank?_eq hid, Option.getD_some]

/-- An id that has a rank keeps it, and any other gets that of its result. -/
theorem insert (h : Known order done ranks) (hid : result.id = some id) :
    Known order (done ++ [result])
      (ranks.insert id ((ranks.find? id).getD (rank order result))) := by
  intro other
  rw [Keyed.find?_insert]
  split
  next hsame =>
    subst hsame
    exact (h.firstRank?_eq hid).symm
  next hother =>
    have hne : result.id ≠ some other := fun heq => hother (Option.some.inj (hid.symm.trans heq))
    rw [firstRank?_append, firstRank?_cons, if_neg hne, h other]
    exact Option.or_none.symm

end Known

/-- The pass over the results ends with the rank of the first result with each id. -/
theorem known_ranksFrom {ranks final : Keyed Nat} {previous : Nat} (h : Known order done ranks)
    (hfinal : ranksFrom order ranks previous rest = some final) :
    Known order (done ++ rest) final := by
  induction rest generalizing ranks previous done with
  | nil =>
    cases hfinal
    rwa [List.append_nil]
  | cons result rest ih =>
    simp only [ranksFrom] at hfinal
    split at hfinal
    · cases hfinal
    next id hid =>
      split at hfinal
      · cases hfinal
      · have hknown := ih (h.insert hid) hfinal
        rwa [List.append_assoc] at hknown

/-- It gets there if all results have ids and their ranks by id ascend. -/
theorem isSome_ranksFrom {ranks : Keyed Nat} {previous : Nat} (h : Known order done ranks) :
    (ranksFrom order ranks previous rest).isSome = true ↔
      (∀ result ∈ rest, result.id.isSome = true) ∧
        (previous :: rest.map (rankById order (done ++ rest))).IsChain (· ≤ ·) := by
  induction rest generalizing ranks previous done with
  | nil => simp [ranksFrom]
  | cons result rest ih =>
    simp only [ranksFrom, List.forall_mem_cons]
    split
    next hnone => simp [hnone]
    next id hid =>
      have hrest (next : Nat) := @ih (done ++ [result]) _ next (h.insert hid)
      simp only [List.append_assoc, List.singleton_append] at hrest
      rw [List.map_cons, List.isChain_cons_cons, h.rankById_eq hid, hid]
      split
      next hlower => simp [Nat.not_le_of_lt hlower]
      next hascends => simp [hrest, Nat.le_of_not_lt hascends]

/-! ## Ranks that ascend -/

/-- In an order of ranks in which no two ids share a rank, the ranks by id ascend if and only if
    equal ids stand together. -/
theorem pairwise_rankById (hids : ∀ result ∈ results, result.id.isSome = true)
    (hsorted : results.Pairwise (fun a b => rank order a ≤ rank order b))
    (hshared : ∀ a ∈ results, ∀ b ∈ results, rank order a = rank order b → a.id = b.id) :
    (results.map (rankById order results)).Pairwise (· ≤ ·)
      ↔ Contiguous (results.map ExecutedResult.id) := by
  have hle {i j : Nat} {a b : ExecutedResult} (hij : i < j) (ha : results[i]? = some a)
      (hb : results[j]? = some b) : rank order a ≤ rank order b := by
    obtain ⟨hi, rfl⟩ := List.getElem?_eq_some_iff.mp ha
    obtain ⟨hj, rfl⟩ := List.getElem?_eq_some_iff.mp hb
    exact List.pairwise_iff_getElem.mp hsorted i j hi hj hij
  have hsame {a b : ExecutedResult} (hid : a.id = b.id) :
      rankById order results a = rankById order results b := by
    rw [rankById, rankById, hid]
  rw [List.pairwise_map, List.pairwise_iff_getElem]
  constructor
  · intro hascends i j k id hij hjk hi hk
    rw [List.getElem?_map, Option.map_eq_some_iff] at hi hk
    obtain ⟨a, ha, hida⟩ := hi
    obtain ⟨c, hc, hidc⟩ := hk
    obtain ⟨hklt, rfl⟩ := List.getElem?_eq_some_iff.mp hc
    have hjlt : j < results.length := Nat.lt_trans hjk hklt
    obtain ⟨hilt, rfl⟩ := List.getElem?_eq_some_iff.mp ha
    -- The rank by id cannot leave that of the equal ids around it.
    have hbefore := hascends i j hilt hjlt hij
    have hafter := hascends j k hjlt hklt hjk
    have haround := hsame (hida.trans hidc.symm)
    obtain ⟨_, first, -, hfirst, hidfirst, hrank⟩ := exists_rankById hids ha
    obtain ⟨_, other, -, hother, hidother, hrankother⟩ :=
      exists_rankById hids (List.getElem?_eq_getElem hjlt)
    have hranks : rank order first = rank order other := by
      rw [← hrank, ← hrankother]
      exact Nat.le_antisymm hbefore (hafter.trans_eq haround.symm)
    have hids := hshared first (List.mem_of_getElem? hfirst) other (List.mem_of_getElem? hother) hranks
    rw [List.getElem?_map, List.getElem?_eq_getElem hjlt, Option.map_some, ← hidother, ← hids,
      hidfirst, hida]
  · intro htogether i j hi hj hij
    obtain ⟨p, first, hp, hfirst, hidfirst, hrank⟩ :=
      exists_rankById hids (List.getElem?_eq_getElem hi)
    obtain ⟨q, other, hq, hother, hidother, hrankother⟩ :=
      exists_rankById hids (List.getElem?_eq_getElem hj)
    rcases Nat.lt_trichotomy p q with hlt | rfl | hgt
    · rw [hrank, hrankother]
      exact hle hlt hfirst hother
    · obtain rfl : first = other := Option.some.inj (hfirst.symm.trans hother)
      rw [hrank, hrankother]
    · -- The id of the later result is also that of one before the earlier result.
      have hids := htogether q i j other.id (Nat.lt_of_lt_of_le hgt hp) hij
        (by rw [List.getElem?_map, hother, Option.map_some])
        (by rw [List.getElem?_map, List.getElem?_eq_getElem hj, Option.map_some, hidother])
      rw [List.getElem?_map, List.getElem?_eq_getElem hi, Option.map_some] at hids
      exact Nat.le_of_eq (hsame ((Option.some.inj hids).trans hidother))

end WriteOutcome

/-! ## The ids of results -/

/-- The result is for an id, or for none, and so is the feature that it shows. -/
structure ExecutedResult.IsFor (id : Option String) (result : ExecutedResult) : Prop where
  named : result.id = id
  shown : ∀ parts, result.feature = some parts → parts.id = id

namespace ExecutedResult.IsFor

variable {id : Option String} {result : ExecutedResult}

theorem executed {op : ExecutedOp} {parts : Parts} (h : parts.id = id) :
    (executed op parts).IsFor id :=
  ⟨h, fun shown hshown => by rwa [← Option.some.inj hshown]⟩

theorem withoutFeature {op : ExecutedOp} {cause : Option ErrorCause} {intent : Nat} :
    IsFor id { op, id, cause, intent } :=
  ⟨rfl, fun _ hshown => by cases hshown⟩

theorem forIntent (h : result.IsFor id) (place : Nat) : (result.forIntent place).IsFor id :=
  ⟨h.named, h.shown⟩

theorem withoutBody (h : result.IsFor id) : result.withoutBody.IsFor id := by
  refine ⟨h.named, fun parts hparts => ?_⟩
  obtain ⟨whole, hwhole, rfl⟩ := Option.map_eq_some_iff.mp hparts
  exact h.shown whole hwhole

/-- The row that shows the result has the id of the result. -/
theorem id_toCodec (h : result.IsFor id) : (result.toCodec : Codec fmt).id.1 = result.id := by
  have hsync : (result.toCodec : Codec fmt).sync = result.toCodec := Codec.sync_of_decoded rfl
  change (result.toCodec : Codec fmt).sync.parts.id = result.id
  rw [hsync]
  change (result.feature.getD {}).id.or result.id = result.id
  cases hfeature : result.feature with
  | none => rfl
  | some parts =>
    rw [Option.getD_some, h.shown parts hfeature, h.named]
    cases id <;> rfl

end ExecutedResult.IsFor

namespace Batch

variable {id : String} {plan : Plan} {intent : WriteIntent fmt}

/-- All results of a step are for an id, or for none. -/
def Step.AreFor (id : Option String) (step : Step τ) : Prop :=
  ∀ result ∈ step.results, result.IsFor id

theorem areFor_singleton {target : Option String} {result : ExecutedResult} {step : Step τ}
    (h : result.IsFor target) (hstep : step.results = [result]) : step.AreFor target := by
  intro other hother
  rw [hstep, List.mem_singleton] at hother
  exact hother ▸ h

theorem areFor_stop {target : Option String} (failure : StoreError) (table : τ) :
    (stop failure table).AreFor target := fun _ hresult => by cases hresult

variable [FeatureTable τ]

theorem areFor_write {op : ExecutedOp} {record : StoredRecord} (h : record.parts.id = some id)
    (table : τ) : (write op record table).AreFor (some id) := by
  have hstamp (version : String) : (stamp record version).parts.id = some id := h
  rw [write_eq]
  split
  · exact areFor_stop _ _
  · split
    · exact areFor_stop _ _
    · exact areFor_singleton (.executed (hstamp _)) rfl

theorem areFor_purgeAfter {results : List ExecutedResult} {parts : Parts} (h : parts.id = some id)
    (hresults : ∀ result ∈ results, result.IsFor (some id)) (table : τ) :
    (Plan.purgeAfter results id parts table).AreFor (some id) := by
  unfold Plan.purgeAfter
  split
  · exact hresults
  · intro result hresult
    rcases List.mem_append.mp hresult with hbefore | hpurged
    · exact hresults result hbefore
    · rw [List.mem_singleton.mp hpurged]
      exact .executed h

/-- An answer is for the id that the plan is made for. -/
def Plan.AnswersFor (id : String) : Plan → Prop
  | .answer result => result.IsFor (some id)
  | .write _ _ _ | .purge _ => True

theorem Plan.answersFor_store (op : ExecutedOp) (intent : WriteIntent fmt) (id : String) :
    (Plan.store op intent id).AnswersFor id := by
  unfold Plan.store
  split
  · exact .withoutFeature
  · trivial

theorem Plan.answersFor_make {stored : Option StoredRecord}
    (h : ∀ record, stored = some record → record.parts.id = some id) :
    (Plan.make intent id stored).AnswersFor id := by
  have hcurrent (withCurrent : Bool) (parts : Parts)
      (hparts : (if withCurrent then stored.map StoredRecord.parts else none) = some parts) :
      parts.id = some id := by
    split at hparts
    · obtain ⟨record, hrecord, rfl⟩ := Option.map_eq_some_iff.mp hparts
      exact h record hrecord
    · cases hparts
  unfold Plan.make
  cases Resolution.resolve intent.view.1 (.ofRecord? stored) with
  | retain withCurrent => exact ⟨rfl, hcurrent withCurrent⟩
  | fail cause withCurrent => exact ⟨rfl, hcurrent withCurrent⟩
  | create => exact Plan.answersFor_store .created intent id
  | update => exact Plan.answersFor_store .updated intent id
  | delete => trivial
  | restore => trivial
  | purge => trivial

theorem areFor_perform (hanswers : plan.AnswersFor id) (hkeyed : plan.KeyedBy id) (table : τ) :
    (plan.perform id table).AreFor (some id) := by
  cases plan with
  | answer result => exact areFor_singleton hanswers rfl
  | purge parts => exact areFor_purgeAfter hkeyed (fun _ hresult => by cases hresult) table
  | write op record thenPurge =>
    have hwrite : (write op record table).AreFor (some id) := areFor_write hkeyed table
    simp only [Plan.perform]
    split
    · next written hwritten =>
      split
      · obtain ⟨version, rfl⟩ := exists_stamp_of_write hwritten
        apply areFor_purgeAfter
        · exact hkeyed
        · exact hwrite
      · exact hwrite
    · exact hwrite

/-- Reporting a result changes nothing about whom it is for. -/
theorem Attempt.isFor_of_areFor {attempt : Attempt fmt τ} {target : Option String}
    (h : attempt.step.AreFor target) : ∀ result ∈ attempt.results, result.IsFor target := by
  have hplaced (result : ExecutedResult)
      (hresult : result ∈ attempt.step.results.map (fun r => r.forIntent attempt.place)) :
      result.IsFor target := by
    obtain ⟨original, horiginal, rfl⟩ := List.mem_map.mp hresult
    exact (h original horiginal).forIntent _
  intro result hresult
  unfold Attempt.results at hresult
  split at hresult
  · obtain ⟨placed, hmem, rfl⟩ := List.mem_map.mp hresult
    exact (hplaced placed hmem).withoutBody
  · exact hplaced result hresult

variable [RecordTable τ] {table : τ}

/-- The results of an intent are for the id that it is executed for. -/
theorem areFor_execute (h : Identified (RecordTable.records table)) (intent : WriteIntent fmt) :
    (execute intent table).AreFor intent.target := by
  rw [execute_eq]
  cases intent.target with
  | none => exact areFor_singleton .withoutFeature rfl
  | some id =>
    simp only
    split
    next failure after hload => exact areFor_stop failure after
    next stored after hload =>
      obtain ⟨rfl, -⟩ := RecordTable.load_ok hload
      exact areFor_perform (Plan.answersFor_make (h id)) (Plan.keyedBy_make intent (h id)) after

/-- A batch leaves records that carry their keys as ids, so this is so of each attempt. -/
theorem areFor_attempts (h : Identified (RecordTable.records table)) (place : Nat)
    (agenda : List (Nat × WriteIntent fmt)) :
    ∀ attempt ∈ attempts place table agenda, attempt.step.AreFor attempt.intent.target := by
  induction agenda generalizing place table with
  | nil => exact fun _ hattempt => by cases hattempt
  | cons entry rest ih =>
    obtain ⟨submitted, intent⟩ := entry
    have htold : (execute intent table).Told _ place (fun _ => false) :=
      told_execute (Tells.refl h) intent
    intro attempt hattempt
    rw [attempts] at hattempt
    rcases List.mem_cons.mp hattempt with rfl | hlater
    · exact areFor_execute h intent
    · split at hlater
      · exact ih htold.identified (place + 1) attempt hlater
      · cases hlater

end Batch

/-! ## The outcome of a request -/

section Outcome

variable [FeatureTable τ] {config : StoreConfig} {table : τ}

open Batch in
/-- The results of a request are for ids or for none, and two results of the same place of
    submission are for the same. -/
theorem isFor_requestAttempts [RecordTable τ] (h : Identified (RecordTable.records table))
    (request : WriteRequest fmt) {result other : ExecutedResult}
    (hresult : result ∈ (requestAttempts config request table).flatMap Attempt.results)
    (hother : other ∈ (requestAttempts config request table).flatMap Attempt.results)
    (hrank : WriteOutcome.rank ⟨(config.agenda request).map Prod.fst⟩ result
      = WriteOutcome.rank ⟨(config.agenda request).map Prod.fst⟩ other) :
    result.IsFor result.id ∧ result.id = other.id := by
  obtain ⟨attempt, hattempt, hmem⟩ := List.mem_flatMap.mp hresult
  obtain ⟨last, hlast, hmemlast⟩ := List.mem_flatMap.mp hother
  have hfor := Attempt.isFor_of_areFor (areFor_attempts h 0 _ attempt hattempt)
  rw [rank_of_mem_results hattempt hmem, rank_of_mem_results hlast hmemlast] at hrank
  have hsame : attempt = last :=
    List.inj_on_of_nodup_map (submitted_nodup config request table) hattempt hlast hrank
  subst hsame
  have hnamed := hfor result hmem
  exact ⟨hnamed.named ▸ hnamed, hnamed.named.trans (hfor other hmemlast).named.symm⟩

namespace WriteOutcome

variable {order : SubmissionOrder} {results : List ExecutedResult} {final : Keyed Nat}

/-- The rank of a row that shows a result is that of the first result with its id. -/
theorem rank?_toCodec (hfor : ∀ result ∈ results, result.IsFor result.id)
    (hids : ∀ result ∈ results, result.id.isSome = true) (hknown : Known order results final)
    {result : ExecutedResult} (hresult : result ∈ results) :
    (result.toCodec : Codec fmt).rank? final = some (rankById order results result) := by
  obtain ⟨id, hid⟩ := Option.isSome_iff_exists.mp (hids result hresult)
  obtain ⟨i, hi⟩ := List.mem_iff_getElem?.mp hresult
  obtain ⟨place, first, -, -, -, hrank⟩ := exists_first order hi hid
  rw [Codec.rank?, (hfor result hresult).id_toCodec, rankById, hid, Option.bind_some,
    Option.bind_some, hknown id, hrank, Option.getD_some]

/-- Rows whose ranks by id ascend are in their order already. -/
theorem restoreInputOrder_of_ascending (hfor : ∀ result ∈ results, result.IsFor result.id)
    (hids : ∀ result ∈ results, result.id.isSome = true) (hknown : Known order results final)
    (hascends : (results.map (rankById order results)).Pairwise (· ≤ ·)) :
    let cursor : HeapCursor σ fmt :=
      { codecs := results.map ExecutedResult.toCodec, inputOrder := some final }
    cursor.restoreInputOrder = (true, cursor) := by
  intro cursor
  have hrank {result : ExecutedResult} (hresult : result ∈ results) :
      (result.toCodec : Codec fmt).rank final = rankById order results result := by
    rw [Codec.rank, rank?_toCodec hfor hids hknown hresult, Option.getD_some]
  have hranks (row : Codec fmt) (hrow : row ∈ cursor.codecs) :
      row.rank? final = some (row.rank final) := by
    obtain ⟨result, hresult, rfl⟩ := List.mem_map.mp hrow
    rw [rank?_toCodec hfor hids hknown hresult, hrank hresult]
  have hsorted : cursor.codecs.Pairwise
      (fun a b => decide (a.rank final ≤ b.rank final) = true) := by
    refine List.pairwise_map.mpr ((List.pairwise_map.mp hascends).imp_of_mem ?_)
    intro a b ha hb hle
    rw [hrank ha, hrank hb]
    exact decide_eq_true hle
  have hdecoded : cursor.codecs.map Codec.sync = cursor.codecs := by
    rw [List.map_map]
    exact List.map_congr_left fun _ _ => Codec.sync_of_decoded rfl
  rw [HeapCursor.restoreInputOrder_of_ranks rfl hranks, List.mergeSort_of_pairwise hsorted, hdecoded]

/-- Rows of results in the order of ranks, where results of the same rank are for the same. -/
theorem hasInputOrder_iff_contiguous (hfor : ∀ result ∈ results, result.IsFor result.id)
    (hsorted : results.Pairwise (fun a b => rank order a ≤ rank order b))
    (hshared : ∀ a ∈ results, ∀ b ∈ results, rank order a = rank order b → a.id = b.id) :
    let cursor : HeapCursor σ fmt :=
      { codecs := results.map ExecutedResult.toCodec, inputOrder := ranksById order results }
    let ids := cursor.codecs.map (fun row => row.id.1)
    (cursor.hasInputOrder = true ↔ (∀ id ∈ ids, id.isSome = true) ∧ Contiguous ids) ∧
    (cursor.hasInputOrder = true → cursor.restoreInputOrder = (true, cursor)) := by
  intro cursor ids
  have hids : ids = results.map ExecutedResult.id := by
    rw [show ids = results.map (fun result => (result.toCodec : Codec fmt).id.1) from List.map_map]
    exact List.map_congr_left fun result hresult => (hfor result hresult).id_toCodec
  have hnone : Known order [] [] := fun _ => rfl
  have hsome := @isSome_ranksFrom order [] results [] 0 hnone
  -- The ranks are kept if they ascend, and each id has the rank of its first result.
  have hchain : (0 :: results.map (rankById order results)).IsChain (· ≤ ·)
      ↔ (results.map (rankById order results)).Pairwise (· ≤ ·) := by
    rw [List.isChain_iff_pairwise, List.pairwise_cons]
    exact and_iff_right fun _ _ => Nat.zero_le _
  rw [List.nil_append, hchain] at hsome
  refine ⟨?_, fun hknown => ?_⟩
  · rw [hids, List.forall_mem_map]
    refine hsome.trans ⟨fun ⟨hall, hascends⟩ => ⟨hall, ?_⟩, fun ⟨hall, htogether⟩ => ⟨hall, ?_⟩⟩
    · exact (pairwise_rankById hall hsorted hshared).mp hascends
    · exact (pairwise_rankById hall hsorted hshared).mpr htogether
  · obtain ⟨final, hfinal⟩ := Option.isSome_iff_exists.mp hknown
    obtain ⟨hall, hascends⟩ := hsome.mp hknown
    have hcursor : cursor
        = { codecs := results.map ExecutedResult.toCodec, inputOrder := some final } :=
      congrArg (fun order? => ({ codecs := results.map ExecutedResult.toCodec
                                 inputOrder := order? } : HeapCursor σ fmt)) hfinal
    rw [hcursor]
    exact restoreInputOrder_of_ascending hfor hall (known_ranksFrom hnone hfinal) hascends

end WriteOutcome

open Batch in
/-- The outcome of a sorted request is that of the results of its attempts. -/
theorem executeRequest_of_sorted (hsort : config.sortWritesById = true)
    (request : WriteRequest fmt) (table : τ) :
    ((executeRequest config request table).1 : WriteOutcome σ fmt)
      = .ofResults ((requestAttempts config request table).flatMap Attempt.results)
          (some ⟨(config.agenda request).map Prod.fst⟩)
          ((requestAttempts config request table).findSome? Attempt.failure) := by
  have harrange : (config.arrange request).2 = some ⟨(config.agenda request).map Prod.fst⟩ := by
    simp only [StoreConfig.arrange, StoreConfig.agenda, hsort, if_true]
    rfl
  simp only [executeRequest, harrange, applyBatch_arrange, executeFrom_attempts]
  rfl

/-- The outcome of a sorted request knows the order of its rows exactly when every row has an id
    and the rows of each id stand together, and then restoring the order changes nothing. -/
theorem order_is_known_iff_contiguous [RecordTable τ] (hsort : config.sortWritesById = true)
    (hrecords : Identified (RecordTable.records table)) (request : WriteRequest fmt) :
    let outcome : WriteOutcome σ fmt := (executeRequest config request table).1
    let ids := outcome.cursor.codecs.map (fun row => row.id.1)
    (outcome.cursor.hasInputOrder = true ↔
      (∀ id ∈ ids, id.isSome = true) ∧ Contiguous ids) ∧
    (outcome.cursor.hasInputOrder = true →
      outcome.cursor.restoreInputOrder = (true, outcome.cursor)) := by
  intro outcome ids
  let order : SubmissionOrder := ⟨(config.agenda request).map Prod.fst⟩
  let reported := (Batch.requestAttempts config request table).flatMap Batch.Attempt.results
  let results := reported.mergeSort (WriteOutcome.rankLe order)
  have houtcome : outcome.cursor
      = { codecs := results.map ExecutedResult.toCodec
          inputOrder := WriteOutcome.ranksById order results } :=
    congrArg WriteOutcome.cursor (executeRequest_of_sorted hsort request table)
  have hmem {result : ExecutedResult} (hresult : result ∈ results) : result ∈ reported :=
    List.mem_mergeSort.mp hresult
  have hsorted : results.Pairwise
      (fun a b => WriteOutcome.rank order a ≤ WriteOutcome.rank order b) :=
    pairwise_sorted (WriteOutcome.rank order) reported
  simp only [ids, houtcome]
  refine WriteOutcome.hasInputOrder_iff_contiguous ?_ hsorted ?_
  · intro result hresult
    exact (isFor_requestAttempts hrecords request (hmem hresult) (hmem hresult) rfl).1
  · intro a ha b hb hrank
    exact (isFor_requestAttempts hrecords request (hmem ha) (hmem hb) hrank).2

/-- A purge has two results, which stand together. -/
theorem order_is_known_of_a_purge :
    let create : WriteIntent .geo :=
      .ofCodec .create (.ofParts { id := some "a", json := some "" })
    let config : StoreConfig := { collection := "c", sortWritesById := true }
    let request : WriteRequest .geo := [create, .ofId .purge "a" none]
    let outcome : WriteOutcome Unit .geo :=
      (executeRequest config request (MemoryStore.ofConfig config)).1
    outcome.cursor.codecs.map (fun row => row.id.1) = [some "a", some "a", some "a"] ∧
      outcome.cursor.restoreInputOrder = (true, outcome.cursor) := by
  intro create config request outcome
  have hrecords : Identified (RecordTable.records (MemoryStore.ofConfig config)) :=
    fun _ _ hrecord => by cases hrecord
  have hattempts : Batch.requestAttempts config request (MemoryStore.ofConfig config)
      = Batch.attempts 0 (MemoryStore.ofConfig config) (WriteRequest.numbered request) := by
    rw [Batch.requestAttempts, config.agenda_of_sorted (by decide)]
  have hcodecs := (codecs_executeRequest (σ := Unit) config request (MemoryStore.ofConfig config)).1
  rw [hattempts] at hcodecs
  have hids : outcome.cursor.codecs.map (fun row => row.id.1) = [some "a", some "a", some "a"] := by
    refine (congrArg (List.map fun row => row.id.1) hcodecs).trans ?_
    decide +kernel
  have hsort : config.sortWritesById = true := rfl
  obtain ⟨hknown, hrestores⟩ := order_is_known_iff_contiguous (σ := Unit) hsort hrecords request
  refine ⟨hids, hrestores (hknown.mpr ?_)⟩
  rw [hids]
  exact ⟨by decide, contiguous_replicate 3 (some "a")⟩

end Outcome

end FeatureStore
