import SourceMap.Builder
import SourceMap.Exchange
import SourceMap.Proofs.Chaining
import SourceMap.Proofs.Flattening
import SourceMap.Proofs.Reading
import SourceMap.Proofs.RoundTrip
import SourceMap.Proofs.Serializing
import SourceMap.Proofs.WordEntry
import SourceMap.Proofs.Rebuilding
import SourceMap.Proofs.Covering
import SourceMap.Proofs.ExactMatch
import SourceMap.Proofs.SourceNames
import SourceMap.Proofs.Operations
import SourceMap.Proofs.Detour
import SourceMap.Proofs.Record
import SourceMap.Proofs.Retracing
import SourceMap.Proofs.AllPlaces
import SourceMap.Proofs.LastColumns
import SourceMap.Proofs.Contents
import SourceMap.Proofs.Ties
import SourceMap.Proofs.Quantities
import SourceMap.Proofs.Acceptance
import SourceMap.Proofs.Delegation
import SourceMap.Proofs.Embedding
import SourceMap.Proofs.Spelling
import SourceMap.Proofs.Lookups
import SourceMap.Proofs.Runs
import SourceMap.Proofs.Canonical
import SourceMap.Proofs.SameAnswers
import SourceMap.Proofs.Interruption
import SourceMap.Proofs.Resolution
import SourceMap.Proofs.Idempotence
import SourceMap.Proofs.Rewriting
import SourceMap.Proofs.InPlace
import SourceMap.Proofs.Ways
import SourceMap.Proofs.Fields
import SourceMap.Proofs.Interning
import SourceMap.Proofs.Splitting
import SourceMap.Proofs.Coordinates
import SourceMap.Proofs.Probing
import SourceMap.Proofs.MappingLog
