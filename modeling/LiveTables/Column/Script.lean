import LiveTables.Column.Exchange
import LiveTables.Column.Fill

/-!
# Scripts on columns and chunks

A script works on named slots, each of which holds a column or a chunk. `Slots.run` makes one step
of a script and answers with its outcome and with the slots after it, because a script goes on after
a step that failed. Names that are not there or hold the wrong kind of thing make a step a misuse of
the script, `StepFailure.misuse`, not an error of a column.
-/

namespace LiveTables

/-- What a slot holds. -/
inductive Slot where
  | column (c : Column)
  | chunk (k : Chunk)

/-- Named slots. Of two with one name the front one counts. -/
structure Slots where
  /-- names and contents -/
  entries : List (String × Slot)

/-- One step of a script. The first name is that of the slot the step works on. -/
inductive ColumnStep where
  /-- a column without rows -/
  | newColumn (name : String) (type : ColumnType) (backing : Backing)
  /-- a column with the cells of an array -/
  | columnOfArray (name : String) (array : EncodedArray) (backing : Backing)
  /-- a column with the rows of the chunk in slot `source` -/
  | columnOfChunk (name source : String) (backing : Backing)
  /-- a chunk of nulls -/
  | newChunk (name : String) (type : ColumnType) (length : Nat)
  /-- a chunk with the cells of an array -/
  | chunkOfArray (name : String) (array : EncodedArray)
  /-- a chunk with the cells of an array of a known type -/
  | chunkOfArrayAs (name : String) (type : ColumnType) (array : EncodedArray)
  /-- the first rows, into slot `dest` -/
  | take (name : String) (count : Nat) (dest : String)
  /-- a column as it is now, into slot `dest` -/
  | snapshot (name dest : String)
  /-- drop the first rows -/
  | drop (name : String) (count : Nat)
  /-- append what slot `other` holds -/
  | append (name other : String)
  /-- append the cells of an array -/
  | appendArray (name : String) (array : EncodedArray)
  /-- copy rows of a set into the chunk in slot `dest` -/
  | gather (name dest : String) (rows : KeySet)
  /-- copy rows of a list into the chunk in slot `dest` -/
  | gatherEach (name dest : String) (rows : List Nat)
  /-- copy the chunk in slot `source` to the rows of a set -/
  | scatter (name source : String) (rows : KeySet)
  /-- copy the chunk in slot `source` to the rows of a list -/
  | scatterEach (name source : String) (rows : List Nat)
  /-- look at a slot -/
  | look (name : String)

/-- The slot that a step may change. -/
def ColumnStep.target : ColumnStep → String
  | newColumn name .. | columnOfArray name .. | columnOfChunk name .. | newChunk name ..
  | chunkOfArray name .. | chunkOfArrayAs name .. | drop name .. | append name ..
  | appendArray name .. | scatter name .. | scatterEach name .. | look name => name
  | take _ _ dest | snapshot _ dest | gather _ dest _ | gatherEach _ dest _ => dest

/-- Why a step failed. -/
inductive StepFailure where
  /-- the operation on columns and chunks failed -/
  | error (e : Error)
  /-- there is no such slot, or it holds something else -/
  | misuse (name : String)

namespace Slots

/-- No slots. -/
def empty : Slots := ⟨[]⟩

/-- What the slot of a name holds. -/
def get? (s : Slots) (name : String) : Option Slot := s.entries.lookup name

/-- Put something into the slot of a name. -/
def set (s : Slots) (name : String) (content : Slot) : Slots :=
  ⟨(name, content) :: s.entries.filter (·.1 ≠ name)⟩

/-- Work on the column in a slot, which has to be there. -/
def onColumn (s : Slots) (name : String) (work : Column → Except StepFailure Unit × Slots) :
    Except StepFailure Unit × Slots :=
  match s.get? name with
  | some (.column c) => work c
  | _ => (.error (.misuse name), s)

/-- Work on the chunk in a slot, which has to be there. -/
def onChunk (s : Slots) (name : String) (work : Chunk → Except StepFailure Unit × Slots) :
    Except StepFailure Unit × Slots :=
  match s.get? name with
  | some (.chunk k) => work k
  | _ => (.error (.misuse name), s)

/-- Put something that an operation made into a slot. If it made nothing the slots stay. -/
def setMade (s : Slots) (name : String) (made : Except Error Slot) :
    Except StepFailure Unit × Slots :=
  match made with
  | .ok content => (.ok (), s.set name content)
  | .error e => (.error (.error e), s)

/-- Put something that an operation changed in place back into its slot, also if the operation
failed. -/
def setChanged (s : Slots) (name : String) (changed : Except Error Unit × Slot) :
    Except StepFailure Unit × Slots :=
  (changed.1.mapError .error, s.set name changed.2)

/-- Make one step. Answers with its outcome, and with the slots after it. -/
def run (s : Slots) : ColumnStep → Except StepFailure Unit × Slots
  | .newColumn name type backing => s.setMade name (.ok (.column (.empty type backing)))
  | .columnOfArray name array backing =>
    s.setMade name ((Column.ofArray array backing).map .column)
  | .columnOfChunk name source backing =>
    s.onChunk source fun k => s.setMade name (.ok (.column (.ofChunk k backing)))
  | .newChunk name type length => s.setMade name (.ok (.chunk (.nulls type length)))
  | .chunkOfArray name array => s.setMade name ((Chunk.ofArray array).map .chunk)
  | .chunkOfArrayAs name type array => s.setMade name ((Chunk.ofArrayAs type array).map .chunk)
  | .take name count dest =>
    match s.get? name with
    | some (.column c) => s.setMade dest ((c.take count).map .column)
    | some (.chunk k) => s.setMade dest ((k.take count).map .chunk)
    | none => (.error (.misuse name), s)
  | .snapshot name dest => s.onColumn name fun c => s.setMade dest (.ok (.column c))
  | .drop name count =>
    match s.get? name with
    | some (.column c) => s.setMade name ((c.drop count).map .column)
    | some (.chunk k) => s.setMade name ((k.drop count).map .chunk)
    | none => (.error (.misuse name), s)
  | .append name other =>
    match s.get? name, s.get? other with
    | some (.column c), some (.column d) => s.setMade name ((c.append d).map .column)
    | some (.column c), some (.chunk k) => s.setMade name ((c.appendChunk k).map .column)
    | some (.chunk k), some (.chunk l) => s.setMade name ((k.append l).map .chunk)
    | _, _ => (.error (.misuse other), s)
  | .appendArray name array =>
    s.onColumn name fun c => s.setMade name ((c.appendArray array).map .column)
  | .gather name dest rows =>
    s.onColumn name fun c => s.onChunk dest fun k =>
      s.setChanged dest ((c.gather rows k).map id .chunk)
  | .gatherEach name dest rows =>
    s.onColumn name fun c => s.onChunk dest fun k =>
      s.setChanged dest ((c.gatherEach rows k).map id .chunk)
  | .scatter name source rows =>
    s.onColumn name fun c => s.onChunk source fun k =>
      s.setChanged name ((c.scatter k rows).map id .column)
  | .scatterEach name source rows =>
    s.onColumn name fun c => s.onChunk source fun k =>
      s.setChanged name ((c.scatterEach k rows).map id .column)
  | .look _ => (.ok (), s)

end Slots

end LiveTables
