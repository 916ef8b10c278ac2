-- SUMMARY: Executing a request on a table in the order that the settings ask for.
import FeatureStore.Store.Batch
import FeatureStore.Store.Config
import FeatureStore.Write.Outcome

/-!
# Execution

A store executes a request in the order of submission or in the order of the ids, as
its settings say, and always reports in the order of submission.
-/

namespace FeatureStore

variable {fmt : Format}

/-- The intents in the order of execution, with the order of submission when they had
    to be sorted. -/
def StoreConfig.arrange (config : StoreConfig) (request : WriteRequest fmt) :
    WriteRequest fmt × Option SubmissionOrder :=
  if config.sortWritesById then
    let (sorted, order) := WriteRequest.sortById request
    (sorted, some order)
  else (request, none)

def executeRequest {σ τ : Type} [FeatureTable τ] (config : StoreConfig)
    (request : WriteRequest fmt) (table : τ) : WriteOutcome σ fmt × τ :=
  let (intents, order) := config.arrange request
  let (report, table) := applyBatch table intents
  (.ofResults report.results order report.failure, table)

end FeatureStore
