-- SUMMARY: Batches of write intents, and sorting them by id.
import FeatureStore.Write.Intent

/-!
# Requests

A request is a batch of intents in the order in which they were submitted. A store
may execute it in the order of the ids, so that writers who touch the same features
meet them in the same order. The submission order then says where each executed
intent stood in the request, also for intents without an id.
-/

namespace FeatureStore

abbrev WriteRequest (fmt : Format) := List (WriteIntent fmt)

/-- Where each executed intent was submitted, by its place of execution. -/
structure SubmissionOrder where
  submitted : List Nat
deriving DecidableEq, Repr

namespace SubmissionOrder

/-- The place of submission of the intent executed at a place. -/
def submittedIndex (order : SubmissionOrder) (executed : Nat) : Option Nat :=
  order.submitted[executed]?

def length (order : SubmissionOrder) : Nat := order.submitted.length

def isEmpty (order : SubmissionOrder) : Bool := order.submitted.isEmpty

end SubmissionOrder

namespace WriteRequest

variable {fmt : Format}

/-- The order of ids. No id comes before every id. -/
def idLe : Option String → Option String → Bool
  | none, _ => true
  | some _, none => false
  | some a, some b => decide (a ≤ b)

/-- Each intent with its place, after its id has been read. -/
def numbered (request : WriteRequest fmt) : List (Nat × WriteIntent fmt) :=
  request.zipIdx.map (fun (intent, place) => (place, intent.sync))

/-- Sort the intents by id. Intents of one id keep their order. -/
def sortById (request : WriteRequest fmt) : WriteRequest fmt × SubmissionOrder :=
  let sorted := (numbered request).mergeSort
    (fun a b => idLe a.2.codec.parts.id b.2.codec.parts.id)
  (sorted.map Prod.snd, ⟨sorted.map Prod.fst⟩)

end WriteRequest

end FeatureStore
