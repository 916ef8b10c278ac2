-- SUMMARY: Sorting a request by id: the order of the intents, where each was submitted, and sorting once more.
import FeatureStore.Proofs.ByteOrder
import FeatureStore.Proofs.Submission
import Mathlib.Data.List.Nodup

/-!
# Sorted requests

A request is sorted by the ids that are read of its intents. An intent without an id comes
before every other, ids ascend by their UTF-8 bytes, and intents of one id stay in the order in
which they were submitted. Sorting carries the places of submission along, so that each place of
execution has one place of submission, and each place of submission one of execution.

Reading an id derives the parts of the feature, and nothing more is derived the second time. So
a request that has been sorted comes through another sort as it is, each intent in its place.
-/

namespace FeatureStore

variable {fmt : Format}

namespace WriteRequest

/-- There is no first id, or there are two and the UTF-8 bytes of the first are not above those
    of the second. -/
def IdAtMost : Option String → Option String → Prop
  | none, _ => True
  | some _, none => False
  | some a, some b => utf8Bytes a ≤ utf8Bytes b

theorem idLe_iff {a b : Option String} : idLe a b = true ↔ IdAtMost a b := by
  cases a with
  | none => exact ⟨fun _ => trivial, fun _ => rfl⟩
  | some a =>
    cases b with
    | none => exact iff_of_false Bool.false_ne_true id
    | some b => exact decide_eq_true_iff.trans utf8Bytes_le.symm

variable {request : WriteRequest fmt}

/-! ## Intents with their places -/

/-- The intents in the order of their ids, each with its place of submission. -/
def sortedEntries (request : WriteRequest fmt) : List (Nat × WriteIntent fmt) :=
  (numbered request).mergeSort mayPrecede

theorem sortById_eq (request : WriteRequest fmt) :
    request.sortById
      = ((sortedEntries request).map Prod.snd, ⟨(sortedEntries request).map Prod.fst⟩) := rfl

theorem sortedEntries_perm (request : WriteRequest fmt) :
    (sortedEntries request).Perm (numbered request) :=
  List.mergeSort_perm _ _

theorem length_sortedEntries (request : WriteRequest fmt) :
    (sortedEntries request).length = request.length := by
  rw [(sortedEntries_perm request).length_eq, numbered, List.length_map, List.length_zipIdx]

/-- The places of submission are all there, each once. -/
theorem places_perm (request : WriteRequest fmt) :
    ((sortedEntries request).map Prod.fst).Perm (List.range request.length) := by
  rw [← map_fst_numbered]
  exact (sortedEntries_perm request).map Prod.fst

/-- An entry holds the intent that was submitted at its place. -/
theorem intent_of_mem_sortedEntries {entry : Nat × WriteIntent fmt}
    (h : entry ∈ sortedEntries request) :
    (request[entry.1]?).map WriteIntent.sync = some entry.2 :=
  getElem?_of_mem_numbered ((sortedEntries_perm request).mem_iff.mp h)

/-- The parts of every intent have been derived. -/
theorem sync_of_mem_numbered {entry : Nat × WriteIntent fmt} (h : entry ∈ numbered request) :
    entry.2.sync = entry.2 := by
  obtain ⟨⟨intent, place⟩, -, rfl⟩ := List.mem_map.mp h
  exact WriteIntent.sync_sync intent

/-- So the id that is read of an intent is the one that its parts name. -/
theorem id_of_mem_sortedEntries {entry : Nat × WriteIntent fmt}
    (h : entry ∈ sortedEntries request) : entry.2.id.1 = entry.2.codec.parts.id := by
  have hsync := sync_of_mem_numbered ((sortedEntries_perm request).mem_iff.mp h)
  rw [WriteIntent.id, hsync]

theorem ascending_sortedEntries (request : WriteRequest fmt) :
    (sortedEntries request).Pairwise (fun a b => IdAtMost a.2.id.1 b.2.id.1) := by
  have hsorted := List.pairwise_mergeSort mayPrecede_trans mayPrecede_total (numbered request)
  refine List.Pairwise.imp_of_mem ?_ hsorted
  intro a b ha hb hle
  rw [id_of_mem_sortedEntries ha, id_of_mem_sortedEntries hb]
  exact idLe_iff.mp hle

/-- Before they are sorted, the entries stand in the order of their places. -/
theorem ascending_numbered (request : WriteRequest fmt) :
    (numbered request).Pairwise (fun a b => a.1 < b.1) := by
  rw [← List.pairwise_map (f := Prod.fst) (R := (· < ·)), map_fst_numbered]
  exact List.pairwise_lt_range

/-- Intents of one id stay in the order of submission. -/
theorem stable_sortedEntries (request : WriteRequest fmt) :
    (sortedEntries request).Pairwise (fun a b => a.2.id.1 = b.2.id.1 → a.1 < b.1) := by
  have hone (id : Option String) : (sortedEntries request).Pairwise
      (fun a b => a.2.codec.parts.id = id → b.2.codec.parts.id = id → a.1 < b.1) := by
    have hkept : (sortedEntries request).filter (fun entry => entry.2.codec.parts.id = id)
        = (numbered request).filter (fun entry => entry.2.codec.parts.id = id) := by
      refine filter_sorted request fun a _ b _ ha hb => ?_
      exact (of_decide_eq_true ha).trans (of_decide_eq_true hb).symm
    have hascending := (ascending_numbered request).filter
      (fun entry => decide (entry.2.codec.parts.id = id))
    rw [← hkept] at hascending
    simpa only [List.pairwise_filter, decide_eq_true_eq] using hascending
  rw [List.pairwise_iff_getElem]
  intro j k hj hk hlt hsame
  rw [id_of_mem_sortedEntries (List.getElem_mem hj), id_of_mem_sortedEntries (List.getElem_mem hk)]
    at hsame
  exact List.pairwise_iff_getElem.mp (hone _) j k hj hk hlt hsame rfl

/-- Entries that are in order already are not moved. -/
theorem sortedEntries_of_ascending
    (h : request.Pairwise (fun a b => IdAtMost a.id.1 b.id.1)) :
    sortedEntries request = numbered request := by
  refine List.mergeSort_of_pairwise ?_
  have hintents : ((numbered request).map Prod.snd).Pairwise
      (fun a b => idLe a.codec.parts.id b.codec.parts.id = true) := by
    rw [map_snd_numbered, List.pairwise_map]
    exact h.imp fun hle => idLe_iff.mpr hle
  exact List.pairwise_map.mp hintents

/-! ## The request and its order -/

/-- The intents are those of the request in the order of their ids, and the order tells where
    each of them was submitted. -/
structure Sorts (request sorted : WriteRequest fmt) (order : SubmissionOrder) : Prop where
  intents : sorted.Perm (request.map (fun intent => intent.id.2))
  ascending : sorted.Pairwise (fun a b => IdAtMost a.id.1 b.id.1)
  submitted : ∀ k < request.length, ∃ i < request.length, order.submittedIndex k = some i ∧
    ∃ intent, request[i]? = some intent ∧ sorted[k]? = some intent.id.2
  stable : ∀ j k, j < k → ∀ a b, sorted[j]? = some a → sorted[k]? = some b → a.id.1 = b.id.1 →
    ∃ i i', order.submittedIndex j = some i ∧ order.submittedIndex k = some i' ∧ i < i'
  executed : ∀ i < request.length, ∃! k, order.submittedIndex k = some i
  beyond : ∀ k, request.length ≤ k → order.submittedIndex k = none

theorem sorts_sortById (request : WriteRequest fmt) :
    Sorts request request.sortById.1 request.sortById.2 := by
  have hlength := length_sortedEntries request
  have hplaces := places_perm request
  have hentry {k : Nat} (hk : k < request.length) :
      ∃ entry ∈ sortedEntries request, (sortedEntries request)[k]? = some entry :=
    ⟨_, List.getElem_mem (hlength ▸ hk), List.getElem?_eq_getElem _⟩
  rw [sortById_eq]
  exact {
    intents := by
      have hintents := (sortedEntries_perm request).map Prod.snd
      rwa [map_snd_numbered] at hintents
    ascending := List.pairwise_map.mpr (ascending_sortedEntries request)
    submitted := by
      intro k hk
      obtain ⟨entry, hmem, hget⟩ := hentry hk
      obtain ⟨intent, hintent, hsync⟩ :=
        Option.map_eq_some_iff.mp (intent_of_mem_sortedEntries hmem)
      refine ⟨entry.1, ?_, ?_, intent, hintent, ?_⟩
      · exact List.mem_range.mp (hplaces.mem_iff.mp (List.mem_map_of_mem hmem))
      · simp only [SubmissionOrder.submittedIndex, List.getElem?_map, hget, Option.map_some]
      · simp only [List.getElem?_map, hget, Option.map_some]
        exact congrArg some hsync.symm
    stable := by
      intro j k hlt a b ha hb hsame
      rw [List.getElem?_map] at ha hb
      obtain ⟨first, hfirst, rfl⟩ := Option.map_eq_some_iff.mp ha
      obtain ⟨second, hsecond, rfl⟩ := Option.map_eq_some_iff.mp hb
      refine ⟨first.1, second.1, ?_, ?_, ?_⟩
      · simp only [SubmissionOrder.submittedIndex, List.getElem?_map, hfirst, Option.map_some]
      · simp only [SubmissionOrder.submittedIndex, List.getElem?_map, hsecond, Option.map_some]
      · obtain ⟨hj, rfl⟩ := List.getElem?_eq_some_iff.mp hfirst
        obtain ⟨hk, rfl⟩ := List.getElem?_eq_some_iff.mp hsecond
        exact List.pairwise_iff_getElem.mp (stable_sortedEntries request) j k hj hk hlt hsame
    executed := by
      intro i hi
      have hmem := hplaces.mem_iff.mpr (List.mem_range.mpr hi)
      have hnodup := hplaces.nodup_iff.mpr List.nodup_range
      obtain ⟨k, hk⟩ := List.mem_iff_getElem?.mp hmem
      refine ⟨k, hk, fun k' hk' => ?_⟩
      obtain ⟨hlt, -⟩ := List.getElem?_eq_some_iff.mp hk'
      exact (List.getElem?_inj hlt hnodup).mp (hk'.trans hk.symm)
    beyond := by
      intro k hk
      refine List.getElem?_eq_none ?_
      rw [List.length_map, hlength]
      exact hk }

/-- A request whose ids ascend stays in its order. -/
theorem sortById_of_ascending (h : request.Pairwise (fun a b => IdAtMost a.id.1 b.id.1)) :
    request.sortById = (request.map WriteIntent.sync, ⟨List.range request.length⟩) := by
  rw [sortById_eq, sortedEntries_of_ascending h, map_snd_numbered, map_fst_numbered]

/-- Nothing is left to be derived of a request that has been sorted. -/
theorem map_sync_sortById (request : WriteRequest fmt) :
    request.sortById.1.map WriteIntent.sync = request.sortById.1 := by
  rw [sortById_eq, List.map_map]
  refine List.map_congr_left fun entry hentry => ?_
  exact sync_of_mem_numbered ((sortedEntries_perm request).mem_iff.mp hentry)

theorem length_sortById (request : WriteRequest fmt) :
    request.sortById.1.length = request.length := by
  rw [sortById_eq, List.length_map, length_sortedEntries]

/-- Sorting a request by id is a stable sort, and the order that it returns leads back: the
    intents are those that were submitted, in the order of the ids that are read of them, and
    each place of execution stands for one place of submission. A request that is in order
    already gets the order of its places, and is left as it is, read. -/
theorem sorts_stably (request : WriteRequest fmt) :
    Sorts request request.sortById.1 request.sortById.2 ∧
    (request.Pairwise (fun a b => IdAtMost a.id.1 b.id.1) →
      request.sortById
        = (request.map (fun intent => intent.id.2), ⟨List.range request.length⟩)) ∧
    request.sortById.1.sortById = (request.sortById.1, ⟨List.range request.length⟩) := by
  have hsorts := sorts_sortById request
  refine ⟨hsorts, sortById_of_ascending, ?_⟩
  rw [sortById_of_ascending hsorts.ascending, map_sync_sortById, length_sortById]

/-- An intent without an id, one with an id and two with another, in this order. -/
theorem sorts_stably_of_four_intents :
    let request : WriteRequest .geo :=
      [.ofCodec .delete {}, .ofId .delete "a" none, .ofId .delete "b" (some "v1"),
        .ofId .delete "b" none]
    request.Pairwise (fun a b => IdAtMost a.id.1 b.id.1) ∧
      request.sortById = (request.map (fun intent => intent.id.2), ⟨[0, 1, 2, 3]⟩) := by
  intro request
  have hle : request.Pairwise (fun a b => idLe a.id.1 b.id.1 = true) := by decide
  have hascending : request.Pairwise (fun a b => IdAtMost a.id.1 b.id.1) :=
    hle.imp fun hbefore => idLe_iff.mp hbefore
  exact ⟨hascending, (sorts_stably request).2.1 hascending⟩

end WriteRequest

end FeatureStore
