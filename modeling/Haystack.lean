import Haystack.InvertedStore.CrashRun
import Haystack.InvertedStore.Refcount
import Haystack.InvertedStore.Batches
import Haystack.InvertedStore.TableErrors
import Haystack.InvertedStore.ReadPaths
import Haystack.InvertedStore.SealedHead
import Haystack.InvertedStore.PostingLog
import Haystack.IdTable.Stability
import Haystack.InvertedIndex.CrashSafety
import Haystack.InvertedIndex.Accounting
import Haystack.Documents.Counting
import Haystack.InvertedStore.MergeAnswers
import Haystack.Registry.Allocation
import Haystack.Indexer.Confinement
import Haystack.Indexer.Shutdown
import Haystack.Indexer.Refresh
import Haystack.Searcher.Budget
import Haystack.Searcher.ResultSet
import Haystack.Searcher.SearchFiles
import Haystack.Engine.WholeWord
import Haystack.VectorStore.Builders
import Haystack.VectorStore.Footprint
import Haystack.VectorStore.Reclamation
import Haystack.VectorStore.AttrRoundTrip
import Haystack.Tokenizer.Grammar
import Haystack.Tokenizer.Segmenter
import Haystack.Tokenizer.Suffix
import Haystack.Collection.Faithful
import Haystack.Engine.Literal
import Haystack.Kv.PebbleBatch
import Haystack.VectorStore.Visited
import Haystack.VectorStore.TopK
