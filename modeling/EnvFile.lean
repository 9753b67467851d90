import EnvFile.Text
import EnvFile.Position
import EnvFile.OrderedMap
import EnvFile.Utf8
import EnvFile.Value.Token
import EnvFile.Value.Escape
import EnvFile.Value.Occurrence
import EnvFile.Definition
import EnvFile.Problem
import EnvFile.Diagnostic
import EnvFile.Source.Cursor
import EnvFile.Source.Value
import EnvFile.Source.Reading
import EnvFile.Binding
import EnvFile.Resolution.Splice
import EnvFile.Resolution.Basic
import EnvFile.Resolution.Linking
import EnvFile.Resolution.Settling
import EnvFile.Environment.Memory
import EnvFile.Environment.Process
import EnvFile.Failure
import EnvFile.ByteStream
import EnvFile.Report
import EnvFile.Evaluator
import EnvFile.Loading
import EnvFile.Proofs.Value.Decoding
import EnvFile.Proofs.Value.Seal
import EnvFile.Proofs.Value.Parity
import EnvFile.Proofs.Value.Segments
import EnvFile.Proofs.Value.Places
import EnvFile.Proofs.Value.Protection
import EnvFile.Proofs.Dependency.Expansion
import EnvFile.Proofs.Evaluation.Cycles
import EnvFile.Proofs.Evaluation.Expansion
import EnvFile.Proofs.Evaluation.RoundTrip
import EnvFile.Proofs.Resolution.Confluence
import EnvFile.Proofs.Source.Canonical
import EnvFile.Proofs.Source.Appending
import EnvFile.Proofs.Source.Coordinates
import EnvFile.Proofs.Evaluation.Publication
import EnvFile.Proofs.Resolution.Operations
import EnvFile.Proofs.Resolution.Rewriting
import EnvFile.Proofs.Resolution.Convergence
import EnvFile.Proofs.Resolution.Cutting
import EnvFile.Proofs.Resolution.Tables
import EnvFile.Proofs.Resolution.Completion
import EnvFile.Proofs.Resolution.Externals
import EnvFile.Proofs.Evaluation.Repetition
import EnvFile.Proofs.Evaluation.Requests
import EnvFile.Proofs.Evaluation.Plain
import EnvFile.Proofs.Resolution.Keeping
import EnvFile.Proofs.Resolution.Passing
import EnvFile.Proofs.Resolution.Ordering
import EnvFile.Proofs.Source.LineEnds
