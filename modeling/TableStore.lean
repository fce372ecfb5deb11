import TableStore.Bytes
import TableStore.Clock
import TableStore.Command.Arguments
import TableStore.Command.Run
import TableStore.Disk.Basic
import TableStore.Disk.Directory
import TableStore.Disk.FileTree
import TableStore.Disk.Publication
import TableStore.Disk.Workbench
import TableStore.Fault
import TableStore.Filter
import TableStore.Generations
import TableStore.Main
import TableStore.Memory.Basic
import TableStore.Memory.Buffer
import TableStore.Memory.Cursor
import TableStore.Merge.Basic
import TableStore.Merge.Feed
import TableStore.Proofs.Clock
import TableStore.Proofs.Command.Calls
import TableStore.Proofs.Command.Requests
import TableStore.Proofs.Disk.Building
import TableStore.Proofs.Disk.Exact
import TableStore.Proofs.Disk.Files
import TableStore.Proofs.Disk.Gains
import TableStore.Proofs.Disk.Making
import TableStore.Proofs.Disk.Published
import TableStore.Proofs.Disk.Settled
import TableStore.Proofs.Disk.Tidy
import TableStore.Proofs.Disk.Trees
import TableStore.Proofs.Disk.Truncated
import TableStore.Proofs.Generations
import TableStore.Proofs.Memory.Accounts
import TableStore.Proofs.Memory.Buffers
import TableStore.Proofs.Memory.Cursors
import TableStore.Proofs.Memory.History
import TableStore.Proofs.Memory.Order
import TableStore.Proofs.Merge.Continued
import TableStore.Proofs.Merge.Faults
import TableStore.Proofs.Merge.Feeds
import TableStore.Proofs.Merge.Kept
import TableStore.Proofs.Merge.Latest
import TableStore.Proofs.Merge.Live
import TableStore.Proofs.Merge.Losses
import TableStore.Proofs.Merge.Newest
import TableStore.Proofs.Merge.Regrouped
import TableStore.Proofs.Newest
import TableStore.Proofs.Outcome
import TableStore.Proofs.Sorted
import TableStore.Proofs.Stamps
import TableStore.Proofs.Store.Agreement
import TableStore.Proofs.Store.Blind
import TableStore.Proofs.Store.Changes
import TableStore.Proofs.Store.Closing
import TableStore.Proofs.Store.Coherence
import TableStore.Proofs.Store.Compacted
import TableStore.Proofs.Store.Crashes
import TableStore.Proofs.Store.Cursors
import TableStore.Proofs.Store.Damage
import TableStore.Proofs.Store.Deeds
import TableStore.Proofs.Store.Durable
import TableStore.Proofs.Store.Exact
import TableStore.Proofs.Store.Failures
import TableStore.Proofs.Store.Flushing
import TableStore.Proofs.Store.Footprint
import TableStore.Proofs.Store.Freshness
import TableStore.Proofs.Store.Handover
import TableStore.Proofs.Store.Ledger
import TableStore.Proofs.Store.Listing
import TableStore.Proofs.Store.Mirrors
import TableStore.Proofs.Store.Moves
import TableStore.Proofs.Store.Overflow
import TableStore.Proofs.Store.Pipeline
import TableStore.Proofs.Store.Pressure
import TableStore.Proofs.Store.Reading
import TableStore.Proofs.Store.Recovery
import TableStore.Proofs.Store.Refinement
import TableStore.Proofs.Store.Retries
import TableStore.Proofs.Store.Steps
import TableStore.Proofs.Store.Thrift
import TableStore.Proofs.Store.Traversals
import TableStore.Proofs.Store.Visibility
import TableStore.Proofs.Table.Contents
import TableStore.Proofs.Table.Damage
import TableStore.Proofs.Table.Filters
import TableStore.Proofs.Table.Guarded
import TableStore.Proofs.Table.Image
import TableStore.Proofs.Table.Lookup
import TableStore.Proofs.Table.Names
import TableStore.Proofs.Table.Naming
import TableStore.Proofs.Table.Offers
import TableStore.Proofs.Table.Safety
import TableStore.Proofs.Table.Shelves
import TableStore.Proofs.Table.Storable
import TableStore.Proofs.Text.Utf8
import TableStore.Session
import TableStore.Settings.Basic
import TableStore.Settings.Json
import TableStore.Settings.Reading
import TableStore.Store.Basic
import TableStore.Store.Compaction
import TableStore.Store.Flush
import TableStore.Store.Read
import TableStore.Table.Basic
import TableStore.Table.Draft
import TableStore.Table.Name
import TableStore.Table.Record
import TableStore.Text.Decimal
import TableStore.Text.Path
import TableStore.Text.Printable
import TableStore.Text.Quoted
import TableStore.Text.Utf8
import TableStore.Version
