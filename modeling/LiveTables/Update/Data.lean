import LiveTables.Column.Exchange
import LiveTables.Schema
import LiveTables.Update.Basic

/-!
# The data of an update

The batches of an update become one chunk per column, in which the batches follow one another.
Before the first array is converted the batches are checked for their shape, and afterwards each
chunk for its length: one cell for each key that it is meant for.
-/

namespace LiveTables

namespace Schema

/-- Fail unless a batch has one array per column. -/
def requireWidth (s : Schema) (kind : BatchKind) (i : Nat) (batch : Batch) :
    Except Error Unit :=
  if batch.length = s.width then .ok ()
  else .error (.protocol (.batchWidth kind i s.width batch.length))

/-- Fail unless all arrays of a batch have the length of its first one. -/
def requireEven (i : Nat) : Batch → Except Error Unit
  | [] => .ok ()
  | first :: rest =>
    match (first :: rest).zipIdx.find? fun a => a.1.size ≠ first.size with
    | some (a, column) => .error (.protocol (.raggedBatch i column a.size first.size))
    | none => .ok ()

/-- The cells of an array that is meant for a column. -/
def cellsFor (d : ColumnDef) (a : EncodedArray) : Except Error Chunk :=
  match Chunk.ofArrayAs d.type a with
  | .error (.typeMismatch expected found) =>
    .error (.protocol (.columnType d.name expected found))
  | made => made

/-- The cells of arrays that are meant for a column, one array after the other. -/
def joined (d : ColumnDef) (arrays : List EncodedArray) : Except Error Chunk :=
  arrays.foldlM (fun k a => do k.append (← cellsFor d a)) (.nulls d.type 0)

/-- The cells of all batches, column by column. -/
def dataOf (s : Schema) (batches : List Batch) : Except Error (List Chunk) :=
  s.columns.zipIdx.mapM fun d => joined d.1 (batches.filterMap (·[d.2]?))

/-- One chunk per column with the rows of the added keys. -/
def addedData (s : Schema) (added : KeySet) (batches : List Batch) :
    Except Error (List Chunk) := do
  batches.zipIdx.forM fun b => do
    s.requireWidth .add b.2 b.1
    requireEven b.2 b.1
  let chunks ← s.dataOf batches
  chunks.zipIdx.forM fun k =>
    if k.1.size = added.size then .ok ()
    else .error (.protocol (.addedRows k.2 k.1.size added.size))
  return chunks

/-- One chunk per column with the new cells of its modified keys, or none if no column is
modified. -/
def modifiedData (s : Schema) (modified : List KeySet) (batches : List Batch) :
    Except Error (List Chunk) :=
  if modified.isEmpty then
    if batches.any fun b => b.any fun a => a.size ≠ 0 then
      .error (.protocol .modifiedDataWithoutKeys)
    else .ok []
  else if modified.length ≠ s.width then
    .error (.protocol (.modifiedSets s.width modified.length))
  else do
    batches.zipIdx.forM fun b => s.requireWidth .modify b.2 b.1
    let chunks ← s.dataOf batches
    (chunks.zip modified).zipIdx.forM fun k =>
      if k.1.1.size = k.1.2.size then .ok ()
      else .error (.protocol (.modifiedRows k.2 k.1.1.size k.1.2.size))
    return chunks

end Schema

end LiveTables
