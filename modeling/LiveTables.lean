import LiveTables.Error
import LiveTables.Keys.Run
import LiveTables.Keys.Joining
import LiveTables.Keys.Set
import LiveTables.Keys.Cursor
import LiveTables.Keys.Renumbering
import LiveTables.Keys.Space
import LiveTables.Word
import LiveTables.Keys.Checked
import LiveTables.Column.Cell
import LiveTables.Column.Cells
import LiveTables.Column.Basic
import LiveTables.Column.Encoded
import LiveTables.Column.Exchange
import LiveTables.Column.Fill
import LiveTables.Column.Storage
import LiveTables.Column.Splicing
import LiveTables.Column.Layout
import LiveTables.Column.Copying
import LiveTables.Column.Holding
import LiveTables.Column.Arrays
import LiveTables.Column.Script
import LiveTables.Config
import LiveTables.Feed
import LiveTables.Proofs.Outcome
import LiveTables.Proofs.Keys.Runs
import LiveTables.Proofs.Keys.Space
import LiveTables.Proofs.Keys.Move
import LiveTables.Proofs.Keys.Obstacle
import LiveTables.Proofs.Keys.Renumbering
import LiveTables.Proofs.Column.Fill
import LiveTables.Proofs.Update.Data
import LiveTables.Proofs.Table.Content
import LiveTables.Proofs.Table.Phases
import LiveTables.Proofs.Table.Apply
import LiveTables.Proofs.Keys.Rehearsal
import LiveTables.Proofs.Update.Accepted
import LiveTables.Proofs.Table.Acceptance
import LiveTables.Proofs.Table.Replay
import LiveTables.Proofs.Column.Gather
import LiveTables.Proofs.Column.Overlay
import LiveTables.Proofs.Column.RowByRow
import LiveTables.Proofs.Table.Reading
import LiveTables.Proofs.Table.Export
import LiveTables.Proofs.Table.Stranded
import LiveTables.Proofs.Table.Refusal
import LiveTables.Proofs.Column.Backing
import LiveTables.Proofs.Column.Storage
import LiveTables.Proofs.Column.Kept
import LiveTables.Proofs.Column.Copying
import LiveTables.Proofs.Column.Held
import LiveTables.Proofs.Column.Appending
import LiveTables.Proofs.Column.Layout
import LiveTables.Proofs.Column.PlainArrays
import LiveTables.Proofs.Column.Converting
import LiveTables.Proofs.Column.Weight
import LiveTables.Proofs.Column.RoundTrip
import LiveTables.Proofs.Column.Arrays
import LiveTables.Proofs.Column.Declared
import LiveTables.Proofs.Column.Script
import LiveTables.Proofs.Table.Backing
import LiveTables.Proofs.Feed
import LiveTables.Proofs.Keys.Collecting
import LiveTables.Proofs.Keys.Indices
import LiveTables.Proofs.Keys.Cursor
import LiveTables.Proofs.Keys.Sets
import LiveTables.Proofs.Keys.Growing
import LiveTables.Proofs.Keys.Triples
import LiveTables.Proofs.Update.Batches
import LiveTables.Proofs.Table.Regrouping
import LiveTables.Proofs.Schema
import LiveTables.Proofs.Column.Splicing
import LiveTables.Proofs.Keys.Checked
import LiveTables.Proofs.Keys.Words
