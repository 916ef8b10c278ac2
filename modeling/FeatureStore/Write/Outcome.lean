-- SUMMARY: The outcome of a batch: its results as rows in submission order.
import FeatureStore.Cursor.Heap
import FeatureStore.Write.Request
import FeatureStore.Write.Result

/-!
# Outcomes

The outcome of a batch is a cursor over its results and the failure that stopped it,
if one did. When the intents were executed in another order than they were submitted
in, the results are put back into submission order. The cursor then also learns
the rank of each id, so that a reader who reorders the rows can restore the order;
but only if ranking the rows by their ids gives this order at all.
-/

namespace FeatureStore

structure WriteOutcome (σ : Type) (fmt : Format) where
  cursor : HeapCursor σ fmt
  failure : Option StoreError := none

namespace WriteOutcome

/-- The rank of a result without a place of submission. It comes last. -/
def lastRank : Nat := UInt64.size - 1

/-- The rank of a result: the place of submission of its intent. -/
def rank (order : SubmissionOrder) (result : ExecutedResult) : Nat :=
  (order.submittedIndex result.intent).getD lastRank

/-- Whether a result may stand before another. -/
def rankLe (order : SubmissionOrder) (a b : ExecutedResult) : Bool :=
  decide (rank order a ≤ rank order b)

/-- Give each id the rank of its first result. Fails when a result has no id, or when
    the ranks of the rows would not ascend. -/
def ranksFrom (order : SubmissionOrder) (ranks : Keyed Nat) (previous : Nat) :
    List ExecutedResult → Option (Keyed Nat)
  | [] => some ranks
  | result :: rest =>
    match result.id with
    | none => none
    | some id =>
      let ranked := (ranks.find? id).getD (rank order result)
      if ranked < previous then none
      else ranksFrom order (ranks.insert id ranked) ranked rest

/-- The rank of each id, if ranking by id gives the order of the results. -/
def ranksById (order : SubmissionOrder) (results : List ExecutedResult) : Option (Keyed Nat) :=
  ranksFrom order [] 0 results

/-- The outcome of the given results, with the order in which their intents were
    submitted if that was not the order of execution. -/
def ofResults {σ : Type} {fmt : Format} (results : List ExecutedResult)
    (order : Option SubmissionOrder) (failure : Option StoreError) : WriteOutcome σ fmt :=
  match order with
  | none => { cursor := .ofCodecs (results.map ExecutedResult.toCodec), failure }
  | some order =>
    let results := results.mergeSort (rankLe order)
    { cursor := {
        codecs := results.map ExecutedResult.toCodec
        inputOrder := ranksById order results }
      failure }

def failed {σ : Type} {fmt : Format} (failure : StoreError) : WriteOutcome σ fmt :=
  ofResults [] none (some failure)

def isSuccess {σ : Type} {fmt : Format} (outcome : WriteOutcome σ fmt) : Bool :=
  outcome.failure.isNone

end WriteOutcome

end FeatureStore
