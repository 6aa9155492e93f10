import TextSearch.Text.Occurrence
import TextSearch.Text.ByteFilter
import TextSearch.Utf8.Boundary
import TextSearch.Utf8.WellFormed
import TextSearch.Utf8.Whitespace
import TextSearch.Step
import TextSearch.FiniteStream
import TextSearch.TwoWay.Scan
import TextSearch.Searcher
import TextSearch.Range.Lines
import TextSearch.Range.Hits
import TextSearch.Find
import TextSearch.Trim
import TextSearch.Replace
import TextSearch.Version
import TextSearch.Scripting
import TextSearch.Workload.Benchmark
import TextSearch.Proofs.Word.Period
import TextSearch.Proofs.Word.SuffixOrder
import TextSearch.Proofs.Word.SuffixScan
import TextSearch.Proofs.TwoWay.Factorization
import TextSearch.Proofs.TwoWay.Alignment
import TextSearch.Proofs.TwoWay.Backward
import TextSearch.Proofs.TwoWay.Forward
import TextSearch.Proofs.TwoWay.Criticality
import TextSearch.Proofs.Interleaving
import TextSearch.Proofs.Deque
import TextSearch.Proofs.Utf8.Run
import TextSearch.Proofs.Utf8.Roundtrip
import TextSearch.Proofs.Text.Coverage
import TextSearch.Proofs.TwoWay.Search
import TextSearch.Proofs.TwoWay.Streams
import TextSearch.Proofs.TwoWay.Fence
import TextSearch.Proofs.TwoWay.MaximalSuffix
import TextSearch.Proofs.TwoWay.Safety
import TextSearch.Proofs.Text.Fence
import TextSearch.Proofs.Utf8.Digits
import TextSearch.Proofs.Utf8.Decoding
import TextSearch.Proofs.Utf8.Spelling
import TextSearch.Proofs.Utf8.Boundary
import TextSearch.Proofs.Text.Sweep
import TextSearch.Proofs.TwoWay.Widening
import TextSearch.Proofs.Searcher.Calls
import TextSearch.Proofs.Searcher.Substring
import TextSearch.Proofs.Searcher.Memory
import TextSearch.Proofs.Searcher.Character
import TextSearch.Proofs.Drained
import TextSearch.Proofs.Text.Parting
import TextSearch.Proofs.Searcher.Boundary
import TextSearch.Proofs.Searcher.Matches
import TextSearch.Proofs.Find
import TextSearch.Proofs.Range.Pieces
import TextSearch.Proofs.Range.BothEnds
import TextSearch.Proofs.Text.Packing
import TextSearch.Proofs.Workload.Engine
import TextSearch.Proofs.Workload.Sample
import TextSearch.Proofs.Workload.Corpus
import TextSearch.Proofs.Range.Counted
import TextSearch.Proofs.Replace
import TextSearch.Proofs.Searcher.Rune
import TextSearch.Proofs.Range.Terminated
import TextSearch.Proofs.Interchange
import TextSearch.Proofs.Utf8.Cuts
import TextSearch.Proofs.Searcher.Aligned
import TextSearch.Proofs.Range.Delivered
import TextSearch.Proofs.WellFormed
import TextSearch.Proofs.Utf8.Offsets
import TextSearch.Proofs.Utf8.Walks
import TextSearch.Proofs.EmptyNeedle
import TextSearch.Proofs.Removal
import TextSearch.Proofs.Trim
import TextSearch.Proofs.Stripping
import TextSearch.Proofs.Lines
import TextSearch.Proofs.Words
import TextSearch.Proofs.Refusals
import TextSearch.Proofs.Range.Exhaustion
