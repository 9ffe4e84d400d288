import Concordance.Index.Writer
import Concordance.Query.Json
import Concordance.Query.Meaning
import Concordance.Search.Searcher
import Concordance.Proofs.Chunks
import Concordance.Proofs.Varint
import Concordance.Proofs.Ascending
import Concordance.Proofs.Posting
import Concordance.Proofs.PostingCalls
import Concordance.Proofs.Contract
import Concordance.Proofs.Heap
import Concordance.Proofs.Boolean
import Concordance.Proofs.Leaves
import Concordance.Proofs.Catalog
import Concordance.Proofs.Provider
import Concordance.Proofs.MultiTerm
import Concordance.Proofs.QueryMeaning
import Concordance.Proofs.Compile
import Concordance.Proofs.Grouping
import Concordance.Proofs.Writer
import Concordance.Proofs.Dictionary
import Concordance.Proofs.Storage
import Concordance.Proofs.Commit
import Concordance.Proofs.Documents
import Concordance.Proofs.Calls
import Concordance.Proofs.Build
import Concordance.Proofs.TopK
import Concordance.Proofs.Ordering
import Concordance.Proofs.Stage
import Concordance.Proofs.Failing
import Concordance.Proofs.Rewind
import Concordance.Proofs.Scratch
import Concordance.Proofs.RewindTree
import Concordance.Proofs.Reset
import Concordance.Proofs.QueryScore
import Concordance.Proofs.Search
import Concordance.Proofs.Collect
import Concordance.Proofs.Merge
import Concordance.Proofs.Execute
import Concordance.Proofs.Recoding
import Concordance.Proofs.RecodedSearch
import Concordance.Proofs.Numeral
import Concordance.Proofs.JsonText
import Concordance.Proofs.QueryJson
import Concordance.Proofs.Filtering
import Concordance.Proofs.Enumeration
import Concordance.Proofs.Rounding
import Concordance.Proofs.ValueOrder
import Concordance.Proofs.MaximumScore
import Concordance.Proofs.PostingSteps
import Concordance.Proofs.PostingArithmetic
import Concordance.Proofs.PostingCut
import Concordance.Proofs.DictionaryCalls
import Concordance.Proofs.PostingSkips
import Concordance.Proofs.DocumentFrequency
import Concordance.Proofs.RepeatedTerms
import Concordance.Proofs.CostCalls
import Concordance.Proofs.Cost
import Concordance.Proofs.ScoreContexts
