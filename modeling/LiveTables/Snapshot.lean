import LiveTables.Column.Exchange
import LiveTables.Column.Fill
import LiveTables.Schema

/-!
# Snapshots

A `Snapshot` is what a table was at one moment. It knows its rows by position only, and nothing
that happens to the table later changes it.
-/

namespace LiveTables

/-- A table at one moment. -/
structure Snapshot where
  /-- the columns that the table has -/
  schema : Schema
  /-- their cells -/
  columns : List Column
  /-- the number of rows -/
  rows : Nat

/-- A table as arrays, one for each field. -/
structure RecordBatch where
  /-- the number of rows -/
  rows : Nat
  /-- the columns -/
  columns : List (Field × EncodedArray)

namespace Snapshot

/-- The number of columns. -/
def width (s : Snapshot) : Nat := s.columns.length

/-- The column at a position. -/
def column (s : Snapshot) (i : Nat) : Except Error Column :=
  match s.columns[i]? with
  | some c => .ok c
  | none => .error (.invalidArgument (.columnIndex i s.width))

/-- The position of the column of a name. -/
def columnIndex? (s : Snapshot) (name : String) : Option Nat := s.schema.indexOf? name

/-- The column of a name. -/
def columnNamed (s : Snapshot) (name : String) : Except Error Column :=
  match s.columnIndex? name with
  | some i => s.column i
  | none => .error (.invalidArgument (.unknownColumn name))

/-- Copy rows of the column at a position, ascending, to the front of a chunk. -/
def gather (s : Snapshot) (i : Nat) (rows : KeySet) (dest : Chunk) :
    Except Error Unit × Chunk :=
  match s.column i with
  | .ok c => c.gather rows dest
  | .error e => (.error e, dest)

/-- The column at a position as an array. -/
def columnArray (s : Snapshot) (i : Nat) : Except Failure EncodedArray := do
  (← Failure.lift (s.column i)).toArray

/-- The whole snapshot as arrays, each of which has one cell per row. -/
def recordBatch (s : Snapshot) : Except Failure RecordBatch := do
  let arrays ← s.columns.mapM Column.toArray
  if arrays.length = s.schema.width ∧ ∀ a ∈ arrays, a.size = s.rows then
    return ⟨s.rows, s.schema.fields.zip arrays⟩
  else throw (.error (.conversion .unequalColumns))

end Snapshot

end LiveTables
