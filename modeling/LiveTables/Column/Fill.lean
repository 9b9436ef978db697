import LiveTables.Keys.Set
import LiveTables.Column.Basic

/-!
# Copying rows

Rows are copied between a column and a chunk in four ways. *Gathering* reads chosen rows of a column
into the front of a chunk; *scattering* writes the front of a chunk to chosen rows of a column,
which first grows with nulls until it has them. The rows are a set, copied run by run, or a list,
copied one by one in its order.

A copy is made in place: it answers with its outcome and with the thing it wrote to, as that is
afterwards. A copy that broke off half way would leave what it has written so far. Everything is
checked in advance so that none does: the types, whether the chunk has a cell for each row, and
whether the rows can be addressed.
-/

namespace LiveTables

namespace Column

/-! ## Checks -/

/-- Fail if a buffer of `available` cells is too small for `required` rows. -/
def requireRoom (required available : Nat) : Except Error Unit :=
  if available < required then .error (.capacity required available) else .ok ()

/-- Fail if a row lies past the last of `size` rows. -/
def requireRow (size row : Nat) : Except Error Unit :=
  if size ≤ row then .error (.indexOutOfRange row size) else .ok ()

/-- Fail if the first or the last row of a run lies past the last of `size` rows. -/
def requireRun (size : Nat) (r : Run) : Except Error Unit := do
  requireRow size r.start
  requireRow size r.last

/-- Fail if the greatest row of a set lies past the last of `size` rows. -/
def requireSet (size : Nat) (rows : KeySet) : Except Error Unit :=
  match rows.last? with
  | some last => requireRow size last
  | none => .ok ()

/-- Fail if no column can be long enough to have a row. -/
def requireAddressable (row : Nat) : Except Error Unit :=
  if maxKey ≤ row then .error (.invalidArgument (.unaddressableRow row)) else .ok ()

/-! ## Gathering -/

/-- The cell of row `i`. -/
def cellAt (c : Column) (i : Nat) : Except Error Cell :=
  match c.cells.get? i with
  | some x => .ok x
  | none => .error (.indexOutOfRange i c.size)

/-- Copy the rows of runs to a chunk, one run after the other, from cell `i` on. -/
def gatherRuns (c : Column) : List Run → Nat → Chunk → Except Error Unit × Chunk
  | [], _, dest => (.ok (), dest)
  | r :: rs, i, dest =>
    match requireRun c.size r with
    | .ok () => c.gatherRuns rs (i + r.width) (dest.overwrite i (c.cells.slice r))
    | .error e => (.error e, dest)

/-- What has to hold before the rows of a set are gathered. -/
def requireGather (c : Column) (rows : KeySet) (dest : Chunk) : Except Error Unit := do
  c.type.require dest.type
  requireRoom rows.size dest.size
  requireSet c.size rows

/-- Copy the rows of a set, ascending, to the front of a chunk. -/
def gather (c : Column) (rows : KeySet) (dest : Chunk) : Except Error Unit × Chunk :=
  match c.requireGather rows dest with
  | .ok () => c.gatherRuns rows.runs 0 dest
  | .error e => (.error e, dest)

/-- The cells of the rows of a list, for a chunk that has room for them. -/
def cellsFor (c : Column) (rows : List Nat) (dest : Chunk) : Except Error (List Cell) := do
  c.type.require dest.type
  requireRoom rows.length dest.size
  rows.mapM c.cellAt

/-- Copy the rows of a list, in its order, to the front of a chunk. -/
def gatherEach (c : Column) (rows : List Nat) (dest : Chunk) : Except Error Unit × Chunk :=
  match c.cellsFor rows dest with
  | .ok found => (.ok (), dest.overwrite 0 found)
  | .error e => (.error e, dest)

/-! ## Scattering -/

/-- The column with nulls added until it has row `last`. -/
def growFor (c : Column) (last : Nat) : Column := { c with cells := c.cells.growTo (last + 1) }

/-- Copy cells to the rows of runs, the next cells to the next run. -/
def scatterRuns : List Run → List Cell → Column → Except Error Unit × Column
  | [], _, c => (.ok (), c)
  | r :: rs, source, c =>
    match requireRun c.size r with
    | .ok () =>
      scatterRuns rs (source.drop r.width)
        { c with cells := c.cells.overwrite r.start (source.take r.width) }
    | .error e => (.error e, c)

/-- What has to hold before a chunk is scattered to the rows of a set. Answers with the greatest
row. -/
def requireScatter (c : Column) (source : Chunk) (rows : KeySet) :
    Except Error (Option Nat) := do
  c.type.require source.type
  requireRoom rows.size source.size
  return rows.last?

/-- Copy the front of a chunk to the rows of a set, ascending. -/
def scatter (c : Column) (source : Chunk) (rows : KeySet) : Except Error Unit × Column :=
  match c.requireScatter source rows with
  | .ok (some last) => scatterRuns rows.runs source.cells (c.growFor last)
  | .ok none => (.ok (), c)
  | .error e => (.error e, c)

/-- Copy cells to the rows of a list, the next cell to the next row. -/
def scatterRows : List Nat → List Cell → Column → Except Error Unit × Column
  | row :: rows, x :: source, c =>
    match requireRow c.size row with
    | .ok () => scatterRows rows source { c with cells := c.cells.set row x }
    | .error e => (.error e, c)
  | _, _, c => (.ok (), c)

/-- What has to hold before a chunk is scattered to the rows of a list. Answers with the greatest
row. -/
def requireScatterEach (c : Column) (source : Chunk) (rows : List Nat) :
    Except Error (Option Nat) := do
  c.type.require source.type
  requireRoom rows.length source.size
  rows.max?.forM requireAddressable
  return rows.max?

/-- Copy the front of a chunk to the rows of a list, in its order. -/
def scatterEach (c : Column) (source : Chunk) (rows : List Nat) : Except Error Unit × Column :=
  match c.requireScatterEach source rows with
  | .ok (some last) => scatterRows rows source.cells (c.growFor last)
  | .ok none => (.ok (), c)
  | .error e => (.error e, c)

end Column

end LiveTables
