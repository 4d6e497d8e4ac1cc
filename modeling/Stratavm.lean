import Stratavm.ReplayVm.Integrity
import Stratavm.ReplayVm.Typing
import Stratavm.ReplayVm.OwnerCache
import Stratavm.Wire.Session
import Stratavm.Wire.Queue
import Stratavm.Wire.Polling
import Stratavm.SchemaRegistry.RoundTrip
import Stratavm.SchemaRegistry.Migration
import Stratavm.Builder.RoundTrip
import Stratavm.ReplayVm.Atomic
import Stratavm.ReplayVm.Frozen
import Stratavm.ReplayVm.NodeLimit
import Stratavm.ReplayVm.ForwardRef
import Stratavm.ReplayVm.NameIndex
import Stratavm.ReplayVm.Fields
import Stratavm.Validator.Strict
import Stratavm.ReplayVm.Edges
import Stratavm.ReplayVm.Accounts
import Stratavm.Query.Grammar
import Stratavm.Loader
import Stratavm.Diff.Reproduce
import Stratavm.Diff.Exact
import Stratavm.Diff.Malformed
import Stratavm.Compactor.LiveUpdates
import Stratavm.Compactor.Idempotent
import Stratavm.Wire.Burst
import Stratavm.Query.Lexing
import Stratavm.FieldIndex.Exact
import Stratavm.FieldIndex.Agree
import Stratavm.XrefIndex.Inverse
import Stratavm.Section.Unknown
import Stratavm.SchemaRegistry.Frame
import Stratavm.Bytes.Varint
import Stratavm.Bytes.Sequence
import Stratavm.Value.Codecs
import Stratavm.AtomPool.Intern
import Stratavm.Lib.Enumerate
import Stratavm.SchemaRegistry.NameRange
import Stratavm.SchemaRegistry.Plan
import Stratavm.Validator.Modes
import Stratavm.Query.Spans
import Stratavm.Bytes.Streams
import Stratavm.Lib.Extends
import Stratavm.Lib.Stricter
import Stratavm.Lib.Triple
import Stratavm.Loader.Bounds
import Stratavm.Loader.Limits
import Stratavm.ReplayVm.History
import Stratavm.ReplayVm.Linking
import Stratavm.ReplayVm.Streams
import Stratavm.Diff.Normal
import Stratavm.Query.Compose
import Stratavm.SchemaRegistry.Normal
import Stratavm.Wire.History
import Stratavm.Wire.Progress
import Stratavm.Loader.Built
import Stratavm.Loader.Graph
import Stratavm.ReplayVm.Stale
import Stratavm.Compactor.References
import Stratavm.Loader.Compacted
import Stratavm.Diff.Symmetry
import Stratavm.Builder.Contents
import Stratavm.Bytes.Shortest
import Stratavm.Loader.Reread
import Stratavm.Loader.Rewritten
import Stratavm.SchemaRegistry.Path
import Stratavm.Lib.Weigh
import Stratavm.Loader.Linear
