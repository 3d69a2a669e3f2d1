import RowForest.Filter.Predicate
import RowForest.Proofs.Read.Strategies
import RowForest.Read.Transaction
import RowForest.Value.Feed
import RowForest.Proofs.Key.ByteOrder
import RowForest.Proofs.Store.Batches
import RowForest.Proofs.Store.Matching
import RowForest.Proofs.Store.Deletion
import RowForest.Proofs.Store.Ranges
import RowForest.Proofs.Store.Selection
import RowForest.Proofs.Store.RowWrites
import RowForest.Proofs.Schema.References
import RowForest.Proofs.Plan.Contents
import RowForest.Proofs.Eval.Sorting
import RowForest.Proofs.Filter.Meaning
import RowForest.Proofs.Filter.Predicate
import RowForest.Proofs.Read.Visibility
import RowForest.Proofs.Plan.Correlation
import RowForest.Proofs.Read.BatchLookups
import RowForest.Proofs.Read.FullReads
import RowForest.Proofs.Read.Paging
import RowForest.Proofs.Read.Protocol
import RowForest.Proofs.Filter.Wildcard
import RowForest.Proofs.Filter.Constants
import RowForest.Proofs.Filter.Reading
import RowForest.Proofs.Read.Statements
import RowForest.Proofs.Sql.Identifier
import RowForest.Proofs.Filter.Boolean
import RowForest.Proofs.Value.Feed
import RowForest.Proofs.RowFormat.Prefix
import RowForest.Proofs.Schema.Kinship
import RowForest.Proofs.Schema.Undo
import RowForest.Proofs.Eval.Membership
import RowForest.Proofs.Eval.Segments
import RowForest.Proofs.Store.Overlay
import RowForest.Proofs.Value.Order
import RowForest.Proofs.Key.Canonical
