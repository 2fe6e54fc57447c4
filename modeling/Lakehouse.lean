import Lakehouse.Calendar.Instant
import Lakehouse.Calendar.Rfc3339
import Lakehouse.DataFile
import Lakehouse.Datum
import Lakehouse.Filter.Basic
import Lakehouse.Filter.Evidence
import Lakehouse.Form.Files
import Lakehouse.Form.Log
import Lakehouse.Form.Table
import Lakehouse.Hash.Blake3
import Lakehouse.Inspect.Columns
import Lakehouse.Inspect.Rows
import Lakehouse.Inspect.Scan
import Lakehouse.Json.Decoder
import Lakehouse.Json.Reader
import Lakehouse.Json.Value
import Lakehouse.Lineage
import Lakehouse.Log.Action
import Lakehouse.Log.Error
import Lakehouse.Log.Journal
import Lakehouse.Log.Replay
import Lakehouse.Manifest
import Lakehouse.Metadata
import Lakehouse.Parquet.Annotation
import Lakehouse.Parquet.Column
import Lakehouse.Parquet.Footer
import Lakehouse.Parquet.Metrics
import Lakehouse.Parquet.Thrift
import Lakehouse.Partition
import Lakehouse.Proofs.Calendar.Rendering
import Lakehouse.Proofs.Form.Files
import Lakehouse.Proofs.Form.Log
import Lakehouse.Proofs.Form.Table
import Lakehouse.Proofs.Json.Compact
import Lakehouse.Proofs.Json.Decoding
import Lakehouse.Proofs.SortedMap
import Lakehouse.Proofs.Store.Layout
import Lakehouse.Proofs.Store.Path
import Lakehouse.Proofs.Store.Tree
import Lakehouse.Proofs.Text.Numerals
import Lakehouse.Schema
import Lakehouse.Snapshot
import Lakehouse.SortedMap
import Lakehouse.Store.Layout
import Lakehouse.Store.Path
import Lakehouse.Store.Script
import Lakehouse.Store.Tree
import Lakehouse.Table.Changes
import Lakehouse.Table.Failure
import Lakehouse.Table.Intake
import Lakehouse.Table.Operations
import Lakehouse.Table.Session
import Lakehouse.Text.Blank
import Lakehouse.Text.Decimal
import Lakehouse.Text.Hidden
import Lakehouse.Text.Quoted
import Lakehouse.Proofs.Store.Hosting
import Lakehouse.Proofs.Log.Chain
import Lakehouse.Proofs.Log.Appending
import Lakehouse.Proofs.Table.Sessions
import Lakehouse.Proofs.Table.Writing
import Lakehouse.Proofs.Table.Planning
import Lakehouse.Proofs.Table.Operations
import Lakehouse.Proofs.Run.World
import Lakehouse.Proofs.Run.Commits
import Lakehouse.Proofs.Run.Replay
import Lakehouse.Proofs.Run.Stopping
import Lakehouse.Proofs.Table.Loading
import Lakehouse.Proofs.Table.Live
import Lakehouse.Proofs.Table.Catalog
import Lakehouse.Proofs.Log.Extension
import Lakehouse.Proofs.Run.Ledger
import Lakehouse.Proofs.Run.Refinement
import Lakehouse.Proofs.Filter.Truth
import Lakehouse.Proofs.Filter.Evidence
import Lakehouse.Proofs.Run.Keeping
import Lakehouse.Proofs.Run.RowDeletion
import Lakehouse.Proofs.Log.Racing
import Lakehouse.Proofs.Log.Shelves
import Lakehouse.Proofs.Store.Room
import Lakehouse.Proofs.Run.Failing
import Lakehouse.Proofs.Run.Feeding
import Lakehouse.Proofs.Run.Viewing
import Lakehouse.Proofs.Run.Progress
import Lakehouse.Proofs.Lineage
import Lakehouse.Proofs.Table.Lineage
import Lakehouse.Proofs.Run.Origins
import Lakehouse.Proofs.Run.Lineage
import Lakehouse.Proofs.Run.Records
import Lakehouse.Proofs.Counting
import Lakehouse.Proofs.Table.Counting
import Lakehouse.Proofs.Run.Counting
import Lakehouse.Proofs.Table.Refusals
import Lakehouse.Proofs.Table.Alike
import Lakehouse.Proofs.Table.Abreast
import Lakehouse.Proofs.Table.Twins
import Lakehouse.Proofs.Table.Bringing
import Lakehouse.Proofs.Run.Parallel
import Lakehouse.Proofs.Run.Appends
import Lakehouse.Proofs.Log.Acceptance
import Lakehouse.Proofs.Log.Readable
import Lakehouse.Proofs.Run.Readable
import Lakehouse.Proofs.Filter.Typing
import Lakehouse.Proofs.Parquet.Typing
import Lakehouse.Proofs.Table.Typing
import Lakehouse.Proofs.Run.Typing
import Lakehouse.Proofs.Schema
import Lakehouse.Proofs.Filter.Binding
import Lakehouse.Proofs.Filter.Exactness
import Lakehouse.Proofs.Table.Rules
import Lakehouse.Proofs.Run.Course
import Lakehouse.Proofs.Run.Meeting
import Lakehouse.Proofs.Run.Deciding
import Lakehouse.Proofs.Log.Marking
import Lakehouse.Proofs.Run.Pointer
import Lakehouse.Proofs.Store.Grounding
import Lakehouse.Proofs.Table.Filing
import Lakehouse.Proofs.Log.Stranded
import Lakehouse.Proofs.Run.Retrying
import Lakehouse.Proofs.Store.Listing
import Lakehouse.Proofs.Table.Gathering
import Lakehouse.Proofs.Table.Intake
import Lakehouse.Proofs.Run.Intake
import Lakehouse.Proofs.Log.Moments
import Lakehouse.Proofs.Table.Grouping
import Lakehouse.Proofs.Run.Partitions
import Lakehouse.Proofs.Parquet.Directories
import Lakehouse.Proofs.Parquet.Totals
import Lakehouse.Proofs.Parquet.Walk
import Lakehouse.Proofs.Parquet.Delivery
import Lakehouse.Proofs.Parquet.Soundness
import Lakehouse.Proofs.Table.Ancestry
import Lakehouse.Proofs.Table.Summaries
import Lakehouse.Proofs.Store.Searching
import Lakehouse.Proofs.Inspect.Arrays
import Lakehouse.Proofs.Inspect.Rendering
import Lakehouse.Proofs.Run.Scans
import Lakehouse.Proofs.Store.Naming
