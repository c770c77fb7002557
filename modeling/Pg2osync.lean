import Pg2osync.Json
import Pg2osync.Core
import Pg2osync.Register
import Pg2osync.Sink
import Pg2osync.Postgres
import Pg2osync.PostgresConvergence
import Pg2osync.Meilisearch
import Pg2osync.MeilisearchOrder
import Pg2osync.Bulk
import Pg2osync.BulkHonesty
import Pg2osync.SinkLoop
import Pg2osync.AckSafety
import Pg2osync.Transition
import Pg2osync.Interleave
import Pg2osync.Concurrency
import Pg2osync.WriteConflict
import Pg2osync.ConcurrencyInvariant
import Pg2osync.ConcurrencySafety
import Pg2osync.Quarantine
import Pg2osync.RejectsReplay
import Pg2osync.LoadProgress
import Pg2osync.LoadAttempts
import Pg2osync.LoadSafety
import Pg2osync.Mapping
import Pg2osync.Materialize
import Pg2osync.Engine
import Pg2osync.LoadWindow
import Pg2osync.LoadWindowSafety
import Pg2osync.Evolution
import Pg2osync.Mirror
import Pg2osync.Filtered
import Pg2osync.Completion
import Pg2osync.FilteredMirror
import Pg2osync.OpenTransaction
import Pg2osync.VersionBase
import Pg2osync.Children
import Pg2osync.Classify
import Pg2osync.WatchedParents
import Pg2osync.LoadGap
import Pg2osync.LoadPipe
import Pg2osync.LoadPipeSafety
import Pg2osync.MarkOrder
import Pg2osync.Superseded
import Pg2osync.LoadBarrier
import Pg2osync.LoadBarrierSafety
import Pg2osync.EngineRows
import Pg2osync.PollLoad
import Pg2osync.PollLoadSafety
import Pg2osync.CommitWait
import Pg2osync.AckCompleteness
import Pg2osync.Config
import Pg2osync.IndexOverlap
import Pg2osync.Glob
import Pg2osync.IndexClaims
import Pg2osync.Decimal
import Pg2osync.Filter
import Pg2osync.Validate
import Pg2osync.RuleSet
import Pg2osync.Shadowing
import Pg2osync.Reload
import Pg2osync.ReloadCompleteness
import Pg2osync.RefusedSettings
import Pg2osync.FailedEdits
import Pg2osync.IndexSharing
import Pg2osync.Workspace
import Pg2osync.RunningSections
import Pg2osync.SuspendedSettings
import Pg2osync.ReadYourWrites
import Pg2osync.RowIdentity
import Pg2osync.ParentKeys
import Pg2osync.Encoding
import Pg2osync.TypeMap
import Pg2osync.Emission
import Pg2osync.Held
import Pg2osync.Drift
import Pg2osync.Statement
import Pg2osync.BinlogRow
import Pg2osync.BinlogStream
import Pg2osync.WalStream
import Pg2osync.Brackets
import Pg2osync.Routes
import Pg2osync.LogOrder
import Pg2osync.Layouts
import Pg2osync.LogPositions
import Pg2osync.AckOrder
import Pg2osync.DurablePosition
import Pg2osync.StreamedIntegers
import Pg2osync.StreamedTimes
import Pg2osync.CatchUp
import Pg2osync.PagedDelete
import Pg2osync.FannedRows
import Pg2osync.Qdrant
import Pg2osync.AdmittedTables
import Pg2osync.DocumentIds
import Pg2osync.Reconcile
import Pg2osync.Intervals
import Pg2osync.GtidSet
import Pg2osync.GtidForms
import Pg2osync.GtidTracker
import Pg2osync.StoredPosition
import Pg2osync.PollStream
import Pg2osync.NumberText
import Pg2osync.Reshape
import Pg2osync.PackedDecimal
import Pg2osync.Walk
import Pg2osync.BinaryJson
import Pg2osync.JsonEncoding
import Pg2osync.JsonTotality
import Pg2osync.JsonForm
import Pg2osync.JsonDecoding
import Pg2osync.OpaqueValues
import Pg2osync.TruncateStatement
import Pg2osync.TruncateReading
import Pg2osync.TruncateRecognition
import Pg2osync.Faults
import Pg2osync.CheckedReader
import Pg2osync.CheckedValues
import Pg2osync.ValueExtents
import Pg2osync.Packets
import Pg2osync.RowExtents
import Pg2osync.PacketTotality
import Pg2osync.PacketFraming
import Pg2osync.IndexPatterns
import Pg2osync.CopyText
import Pg2osync.ArrayLiterals
import Pg2osync.Formats
import Pg2osync.PgOutput
import Pg2osync.ShortestDecimal
import Pg2osync.FilterForms
import Pg2osync.FilterText
import Pg2osync.FilterReading
import Pg2osync.FilterRoundTrip
import Pg2osync.StreamedStrings
import Pg2osync.ValueReadings
import Pg2osync.EncodedValues
import Pg2osync.EncodedRows
import Pg2osync.Numerals
import Pg2osync.PositionText
import Pg2osync.Renames
import Pg2osync.StateDocuments
import Pg2osync.RejectStore
import Pg2osync.HeldPieces
import Pg2osync.WindowClosing
import Pg2osync.KeysetLoad
