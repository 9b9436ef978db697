import LiveTables.Config
import LiveTables.Keys.Space
import LiveTables.Snapshot
import LiveTables.Update.Data

/-!
# Live tables

A `LiveTable` is a table that follows updates. Its rows belong to keys: the row of the `i`-th least
present key is at position `i` of every column.

An update is applied in two steps. `LiveTable.prepare` converts its data and rehearses what it does
to the keys, on a copy; whatever is wrong with an update is found here. `LiveTable.commit` makes the
changes in the order removes, renumbering, adds, modifications, and takes a snapshot before, between
and after. What it answers is a `Change`: the snapshots, and which rows were touched. A commit that
fails leaves the table poisoned, and a poisoned table refuses every update.
-/

namespace LiveTables

/-- How far an update has come. -/
inductive Phase where
  /-- no update is under way -/
  | idle
  | applyingRemoves
  | applyingShifts
  | applyingAdds
  | applyingModifies
  deriving DecidableEq, Repr

/-- How a phase is called in messages. -/
def Phase.name : Phase → String
  | idle => "Idle"
  | applyingRemoves => "ApplyingRemoves"
  | applyingShifts => "ApplyingShifts"
  | applyingAdds => "ApplyingAdds"
  | applyingModifies => "ApplyingModifies"

/-- A table that follows updates. -/
structure LiveTable where
  /-- the columns that the table has -/
  schema : Schema
  /-- its settings -/
  config : TableConfig
  /-- the present keys -/
  keys : KeySpace
  /-- the cells, one column for each of the schema -/
  columns : List Column
  /-- how far an update has come -/
  phase : Phase
  /-- did an update fail half way? -/
  poisoned : Bool

/-- What an update did. The positions of removed rows are those before the update, those of added
rows are those after it, and those of modified rows hold just before the modifications as well as
after them. -/
structure Change where
  /-- the table before the update -/
  beforeRemoves : Snapshot
  /-- the table after removes and renumbering -/
  beforeModifies : Snapshot
  /-- the table after the update -/
  current : Snapshot
  /-- the rows that vanished -/
  removed : KeySet
  /-- the rows that changed, column by column, or nothing at all -/
  modified : List KeySet
  /-- the rows that appeared -/
  added : KeySet

/-- An update that has passed all checks, with its data converted and its keys translated. -/
structure Plan where
  /-- keys that vanish -/
  removed : KeySet
  /-- keys that become other keys -/
  shifts : Renumbering
  /-- keys that appear -/
  added : KeySet
  /-- their rows, column by column -/
  addedData : List Chunk
  /-- the rows that change, column by column -/
  modifiedRows : List KeySet
  /-- their new cells, column by column -/
  modifiedData : List Chunk
  /-- the rows that vanish -/
  removedRows : KeySet
  /-- the rows that appear -/
  addedRows : KeySet
  /-- the number of rows after the update -/
  finalSize : Nat

namespace KeySpace

/-- Remove all keys of a set, which have to be present. -/
def eraseAll (s : KeySpace) (keys : KeySet) : Except Error KeySpace :=
  keys.runs.foldlM (fun s r => return (← s.eraseRange r.start r.stop).2) s

/-- Add all keys of a set, of which none may be present. -/
def addAll (s : KeySpace) (keys : KeySet) : Except Error KeySpace :=
  keys.runs.foldlM (fun s r => return (← s.addRange r.start r.stop).2) s

end KeySpace

namespace LiveTable

/-- A table without rows. -/
def new (schema : Schema) (config : TableConfig) : LiveTable where
  schema := schema
  config := config
  keys := .empty
  columns := schema.columns.map fun d => .empty d.type config.backing
  phase := .idle
  poisoned := false

/-- The number of rows. -/
def rows (t : LiveTable) : Nat := t.keys.size

/-- The table as it is now. -/
def snapshot (t : LiveTable) : Snapshot := ⟨t.schema, t.columns, t.rows⟩

/-! ## Checking an update -/

/-- Check an update against the table, and convert it. Nothing is changed. -/
def prepare (t : LiveTable) (u : Update) : Except Error Plan := do
  if !u.addBatches.isEmpty && !u.modBatches.isEmpty then
    throw (.protocol .addsAndModifies)
  u.shifts.validate
  let addedData ← t.schema.addedData u.added u.addBatches
  let modifiedData ← t.schema.modifiedData u.modified u.modBatches
  let removedRows ← t.keys.positions u.removed
  let keys ← t.keys.eraseAll u.removed
  let keys ← keys.renumber u.shifts
  let keys ← keys.addAll u.added
  let addedRows ← keys.positions u.added
  let modifiedRows ← u.modified.mapM keys.positions
  return {
    removed := u.removed
    shifts := u.shifts
    added := u.added
    addedData, modifiedRows, modifiedData, removedRows, addedRows
    finalSize := keys.size }

/-! ## Changing the table -/

/-- The table in another phase of an update. -/
def enter (t : LiveTable) (phase : Phase) : LiveTable := { t with phase }

/-- Remove the keys of a run and their rows. -/
def eraseRun (t : LiveTable) (r : Run) : Except Error LiveTable := do
  let (index, keys) ← t.keys.eraseRange r.start r.stop
  let columns ← t.columns.mapM (·.spliceOut index r.width)
  return { t with keys, columns }

/-- Insert the first `width` rows of each chunk at row `index` of its column. Answers with the
columns and with what is left of the chunks. -/
def insertRows (index width : Nat) :
    List Column → List Chunk → Except Error (List Column × List Chunk)
  | c :: cs, k :: ks => do
    let piece ← k.take width
    let k ← k.drop width
    let c ← c.spliceIn index piece
    let (cs, ks) ← insertRows index width cs ks
    return (c :: cs, k :: ks)
  | cs, ks => .ok (cs, ks)

/-- Add the keys of a run with the next rows of data. Answers with what is left of the data. -/
def addRun (state : LiveTable × List Chunk) (r : Run) : Except Error (LiveTable × List Chunk) := do
  let (t, data) := state
  let (index, keys) ← t.keys.addRange r.start r.stop
  let (columns, data) ← insertRows index r.width t.columns data
  return ({ t with keys, columns }, data)

/-- Put new cells at the modified rows of each column. Columns for which there are no rows stay. -/
def modifyRows : List Column → List KeySet → List Chunk → Except Error (List Column)
  | c :: cs, rows :: rest, k :: ks =>
    match c.scatter k rows with
    | (.ok (), c) => return c :: (← modifyRows cs rest ks)
    | (.error e, _) => .error e
  | cs, _, _ => .ok cs

/-- Fail unless the table has the planned number of rows. -/
def requireRows (t : LiveTable) (planned : Nat) : Except Error Unit :=
  if t.rows = planned then .ok () else .error (.internal (.keyCount t.rows planned))

/-- Fail unless every column has one row per key, if the settings ask for it. -/
def verify (t : LiveTable) : Except Error Unit :=
  if t.config.verify then
    t.columns.zipIdx.forM fun c =>
      if c.1.size = t.rows then .ok () else .error (.internal (.rowCount c.2 c.1.size t.rows))
  else .ok ()

/-- Make the changes of an update that has passed all checks. -/
def commit (t : LiveTable) (p : Plan) : Except Error (LiveTable × Change) := do
  let t := t.enter .applyingRemoves
  let beforeRemoves := t.snapshot
  let t ← p.removed.runs.foldlM eraseRun t
  let t := t.enter .applyingShifts
  let t := { t with keys := ← t.keys.renumber p.shifts }
  let t := t.enter .applyingAdds
  let beforeModifies := t.snapshot
  let (t, _) ← p.added.runs.foldlM addRun (t, p.addedData)
  let t := t.enter .applyingModifies
  let t := { t with columns := ← modifyRows t.columns p.modifiedRows p.modifiedData }
  let t := t.enter .idle
  t.requireRows p.finalSize
  t.verify
  return (t, {
    beforeRemoves, beforeModifies
    current := t.snapshot
    removed := p.removedRows
    modified := p.modifiedRows
    added := p.addedRows })

/-! ## Applying an update -/

/-- Apply an update. Answers with what it did, or why it was refused, and with the table after. -/
def apply (t : LiveTable) (u : Update) : Except Error Change × LiveTable :=
  if t.poisoned then (.error .poisoned, t)
  else
    match t.prepare u with
    | .error e => (.error e, t)
    | .ok plan =>
      match t.commit plan with
      | .ok (after, change) => (.ok change, after)
      | .error e => (.error e, { t with phase := .idle, poisoned := true })

/-- A table with the given keys and their rows, which are added to it by its first update. -/
def withRows (schema : Schema) (config : TableConfig) (keys : KeySet) (batches : List Batch) :
    Except Error LiveTable :=
  match (new schema config).apply { added := keys, addBatches := batches } with
  | (.ok _, t) => .ok t
  | (.error e, _) => .error e

end LiveTable

end LiveTables
