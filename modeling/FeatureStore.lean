import FeatureStore.Codec.Action
import FeatureStore.Codec.Retarget
import FeatureStore.Cursor.Basic
import FeatureStore.Json.Printing
import FeatureStore.Json.Reading
import FeatureStore.Proofs.Accounts
import FeatureStore.Proofs.BinaryLayout
import FeatureStore.Proofs.Paging
import FeatureStore.Proofs.Rules
import FeatureStore.Proofs.Sorting
import FeatureStore.Sample
import FeatureStore.Store.Limited
import FeatureStore.Store.Session
import FeatureStore.Proofs.Agreement
import FeatureStore.Proofs.SharedDatabase
import FeatureStore.Proofs.JsonText
import FeatureStore.Proofs.Embedding
import FeatureStore.Proofs.RoundTrip
import FeatureStore.Proofs.Deeds
import FeatureStore.Proofs.FeatureRows
import FeatureStore.Proofs.ReadBack
import FeatureStore.Proofs.Retargeting
import FeatureStore.Proofs.Coherence
import FeatureStore.Proofs.Moves
import FeatureStore.Proofs.Lookahead
import FeatureStore.Proofs.Ahead
import FeatureStore.Proofs.Materializing
import FeatureStore.Proofs.Releasing
import FeatureStore.Proofs.LengthFields
import FeatureStore.Proofs.FeaturePassage
import FeatureStore.Proofs.EmbeddedForms
import FeatureStore.Proofs.ObjectPassage
import FeatureStore.Proofs.Building
import FeatureStore.Proofs.StoredRecords
import FeatureStore.Proofs.ReachedRecords
import FeatureStore.Proofs.DeepBodies
import FeatureStore.Proofs.LazyReads
import FeatureStore.Proofs.Rehoming
import FeatureStore.Proofs.Tags
import FeatureStore.Proofs.DerivedForms
import FeatureStore.Proofs.Previews
import FeatureStore.Proofs.Decisions
import FeatureStore.Proofs.Policies
import FeatureStore.Proofs.BareResults
import FeatureStore.Proofs.GapPositions
import FeatureStore.Proofs.PairedForms
import FeatureStore.Proofs.InputOrder
import FeatureStore.Proofs.MarkedRecords
import FeatureStore.Proofs.RanksById
import FeatureStore.Proofs.Retries
import FeatureStore.Proofs.ByteOrder
import FeatureStore.Proofs.SortedRequests
import FeatureStore.Proofs.AddedRows
import FeatureStore.Proofs.LastWritten
