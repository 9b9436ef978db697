import LiveTables.Column.Exchange
import LiveTables.Column.Fill

/-!
# Storages

A column and a chunk keep their cells in a *storage*, and a storage is made for one kind of cells.
Each type of cells that are not lists has a kind of its own; all lists are of one kind, whatever
their items are. So a `Store` says twice what its cells are: its type is what was declared, the kind
is what its storage takes. Where two stores meet, their types are compared first. Every single step
of a copy compares the kinds once more.

The calls on a store work in place. `Worked` is the outcome of such work together with what it
leaves behind, which after a failure is whatever was done until then: a storage that was grown for
cells that did not come stays grown. `Column` and `Chunk` are the stores in which type and kind
agree, and their operations are what the calls come to.
-/

namespace LiveTables

/-! ## Work in place -/

/-- What work in place comes to: its outcome, and what it leaves behind. -/
abbrev Worked (σ : Type) := Except Error Unit × σ

variable {σ α : Type}

/-- Work only after a check, with what the check has found. -/
def after (check : Except Error α) (work : α → σ → Worked σ) (s : σ) : Worked σ :=
  match check with
  | .ok found => work found s
  | .error e => (.error e, s)

/-- Go on working, unless the work before has failed. -/
def Worked.andThen (worked : Worked σ) (work : σ → Worked σ) : Worked σ :=
  match worked with
  | (.ok (), s) => work s
  | (.error e, s) => (.error e, s)

/-! ## Kinds of cells -/

/-- The kinds of cells that storages are made for. -/
inductive CellKind where
  | bool
  | int8
  | int16
  | int32
  | int64
  | float32
  | float64
  | char16
  | utf8
  | timestamp
  | date
  | time
  /-- lists of whatever items -/
  | list
  deriving DecidableEq, Repr

/-- How a kind is called in messages. -/
def CellKind.name : CellKind → String
  | bool => "Bool"
  | int8 => "Int8"
  | int16 => "Int16"
  | int32 => "Int32"
  | int64 => "Int64"
  | float32 => "Float32"
  | float64 => "Float64"
  | char16 => "Char16"
  | utf8 => "Utf8"
  | timestamp => "Timestamp"
  | date => "Date"
  | time => "Time"
  | list => "List"

/-- The kind of the cells of a type. -/
def ColumnType.kind : ColumnType → CellKind
  | bool => .bool
  | int8 => .int8
  | int16 => .int16
  | int32 => .int32
  | int64 => .int64
  | float32 => .float32
  | float64 => .float64
  | char16 => .char16
  | utf8 => .utf8
  | timestamp => .timestamp
  | date => .date
  | time => .time
  | list _ => .list

/-- Copy the cells of a run to position `i` and after of `dest`. From one block to another they are
copied at once, and otherwise one by one. -/
def Cells.copyRun (src : Cells) (r : Run) (i : Nat) (dest : Cells) : Cells :=
  match src, dest with
  | array _, array _ => dest.overwrite i (src.slice r)
  | _, _ =>
    (r.keys.zipIdx i).foldl (fun dest p => (src.get? p.1).elim dest fun x => dest.set p.2 x) dest

/-- Cells, stored by what is made for one kind of them. -/
structure Storage where
  /-- the kind -/
  kind : CellKind
  /-- the cells in order, stored -/
  cells : Cells

namespace Storage

/-- The number of cells. -/
def size (d : Storage) : Nat := d.cells.size

/-- Fail unless both storages are made for one kind of cells. -/
def requireKind (d other : Storage) : Except Error Unit :=
  if d.kind = other.kind then .ok () else .error (.typeMismatch d.kind.name other.kind.name)

/-- Add the cells to those of another storage. -/
def appendTo (src d : Storage) : Worked Storage :=
  after (d.requireKind src)
    (fun _ d => (.ok (), { d with cells := d.cells.append src.cells.toList })) d

/-- Copy the cells of a run to position `i` and after of another storage. -/
def copyRun (src : Storage) (r : Run) (i : Nat) (d : Storage) : Worked Storage :=
  after (d.requireKind src)
    (fun _ d => (.ok (), { d with cells := src.cells.copyRun r i d.cells })) d

/-- Copy one cell to position `i` of another storage. -/
def copyRow (src : Storage) (row i : Nat) : Storage → Worked Storage :=
  src.copyRun ⟨row, row + 1⟩ i

/-! ### Gathering -/

/-- Copy the rows of runs, one run after the other, to position `i` and after of another storage. -/
def gatherRuns (src : Storage) : List Run → Nat → Storage → Worked Storage
  | [], _, d => (.ok (), d)
  | r :: rs, i, d =>
    after (Column.requireRun src.size r)
      (fun _ d => (src.copyRun r i d).andThen (src.gatherRuns rs (i + r.width))) d

/-- Copy rows, one after the other, to position `i` and after of another storage. -/
def gatherRows (src : Storage) : List Nat → Nat → Storage → Worked Storage
  | [], _, d => (.ok (), d)
  | row :: rows, i, d => (src.copyRow row i d).andThen (src.gatherRows rows (i + 1))

/-- Copy the rows of a set, ascending, to the front of another storage. -/
def gather (src : Storage) (rows : KeySet) (d : Storage) : Worked Storage :=
  after (do Column.requireRoom rows.size d.size; Column.requireSet src.size rows)
    (fun _ => src.gatherRuns rows.runs 0) d

/-- Copy the rows of a list, in its order, to the front of another storage. All rows are looked for
before the first one is copied. -/
def gatherEach (src : Storage) (rows : List Nat) (d : Storage) : Worked Storage :=
  after (do Column.requireRoom rows.length d.size; rows.forM (Column.requireRow src.size))
    (fun _ => src.gatherRows rows 0) d

/-! ### Scattering -/

/-- Copy the cells from position `i` on to the rows of runs of another storage. All rows have to lie
below `size`. -/
def scatterRuns (src : Storage) (size : Nat) : List Run → Nat → Storage → Worked Storage
  | [], _, d => (.ok (), d)
  | r :: rs, i, d =>
    after (Column.requireRun size r)
      (fun _ d => (src.copyRun ⟨i, i + r.width⟩ r.start d).andThen
        (src.scatterRuns size rs (i + r.width))) d

/-- Copy the cells from position `i` on to the rows of a list of another storage. All rows have to
lie below `size`. -/
def scatterRows (src : Storage) (size : Nat) : List Nat → Nat → Storage → Worked Storage
  | [], _, d => (.ok (), d)
  | row :: rows, i, d =>
    after (Column.requireRow size row)
      (fun _ d => (src.copyRow i row d).andThen (src.scatterRows size rows (i + 1))) d

/-- The size that a storage needs to have a row, if it can be addressed. -/
def sizeFor (row : Nat) : Except Error Nat := do
  Column.requireAddressable row
  return row + 1

/-- Add nulls until there are `size` cells. -/
def growTo (size : Nat) (d : Storage) : Storage := { d with cells := d.cells.growTo size }

/-- Copy the front to the rows of a set of another storage, ascending. That one grows first, and
where there is no row nothing is done. -/
def scatter (src : Storage) (rows : KeySet) (d : Storage) : Worked Storage :=
  after (do Column.requireRoom rows.size src.size; rows.last?.mapM sizeFor)
    (fun
      | some size, d => src.scatterRuns size rows.runs 0 (d.growTo size)
      | none, d => (.ok (), d)) d

/-- Copy the front to the rows of a list of another storage, in its order. -/
def scatterEach (src : Storage) (rows : List Nat) (d : Storage) : Worked Storage :=
  after (do Column.requireRoom rows.length src.size; rows.max?.mapM sizeFor)
    (fun
      | some size, d => src.scatterRows size rows 0 (d.growTo size)
      | none, d => (.ok (), d)) d

end Storage

/-! ## Stores -/

/-- A column or a chunk as it is kept. -/
structure Store where
  /-- what the cells are declared to be -/
  type : ColumnType
  /-- the cells -/
  storage : Storage

namespace Store

/-- A store of `n` nulls. -/
def nulls (type : ColumnType) (b : Backing) (n : Nat) : Store :=
  ⟨type, type.kind, .ofList b (List.replicate n .null)⟩

/-- A store of the cells of an array of the given type. -/
def ofArrayAs (type : ColumnType) (a : EncodedArray) (b : Backing) : Except Error Store := do
  return ⟨type, type.kind, .ofList b (← a.cellsAs type)⟩

/-- A store of the cells of an array, which decides the type. -/
def ofArray (a : EncodedArray) (b : Backing) : Except Error Store := do
  ofArrayAs (← a.encoding.columnType) a b

/-- The store, stored in another way. -/
def move (s : Store) (b : Backing) : Store :=
  ⟨s.type, s.storage.kind, .ofList b s.storage.cells.toList⟩

/-- The first `n` cells. -/
def take (s : Store) (n : Nat) : Except Error Store := do
  requirePart n s.storage.size
  return ⟨s.type, s.storage.kind, s.storage.cells.take n⟩

/-- Work on the storage of a store. -/
def within (work : Storage → Worked Storage) (s : Store) : Worked Store :=
  (work s.storage).map id fun d => { s with storage := d }

end Store

/-- A call that works on a store in place. -/
inductive StoreCall where
  /-- drop the first `n` cells -/
  | drop (n : Nat)
  /-- append the cells of another store -/
  | append (other : Store)
  /-- append the cells of an array -/
  | appendArray (array : EncodedArray)
  /-- copy the rows of a set of `src` to the front -/
  | gather (src : Store) (rows : KeySet)
  /-- copy the rows of a list of `src` to the front -/
  | gatherEach (src : Store) (rows : List Nat)
  /-- copy the front of `src` to the rows of a set -/
  | scatter (src : Store) (rows : KeySet)
  /-- copy the front of `src` to the rows of a list -/
  | scatterEach (src : Store) (rows : List Nat)

/-- The other stores that a call reads. -/
def StoreCall.others : StoreCall → List Store
  | append s | gather s _ | gatherEach s _ | scatter s _ | scatterEach s _ => [s]
  | drop _ | appendArray _ => []

namespace Store

/-- Make a call. -/
def run (s : Store) : StoreCall → Worked Store
  | .drop n =>
    after (requirePart n s.storage.size)
      (fun _ => within fun d => (.ok (), { d with cells := d.cells.drop n })) s
  | .append other => after (s.type.require other.type) (fun _ => within other.storage.appendTo) s
  | .appendArray a =>
    after (ofArrayAs s.type a s.storage.cells.backing) (fun t => within t.storage.appendTo) s
  | .gather src rows =>
    after (src.type.require s.type) (fun _ => within (src.storage.gather rows)) s
  | .gatherEach src rows =>
    after (src.type.require s.type) (fun _ => within (src.storage.gatherEach rows)) s
  | .scatter src rows =>
    after (s.type.require src.type) (fun _ => within (src.storage.scatter rows)) s
  | .scatterEach src rows =>
    after (s.type.require src.type) (fun _ => within (src.storage.scatterEach rows)) s

/-- The stores that can be made, by calls that succeed or fail. -/
inductive Made : Store → Prop
  | nulls (type : ColumnType) (b : Backing) (n : Nat) : Made (.nulls type b n)
  | ofArrayAs {type : ColumnType} {a : EncodedArray} {b : Backing} {s : Store}
      (h : Store.ofArrayAs type a b = .ok s) : Made s
  | ofArray {a : EncodedArray} {b : Backing} {s : Store} (h : Store.ofArray a b = .ok s) : Made s
  | move {s : Store} (h : Made s) (b : Backing) : Made (s.move b)
  | take {s t : Store} {n : Nat} (h : Made s) (ht : s.take n = .ok t) : Made t
  | run {s : Store} (h : Made s) (call : StoreCall) (hothers : ∀ t ∈ call.others, Made t) :
      Made (s.run call).2

end Store

/-- The column as it is kept. -/
def Column.store (c : Column) : Store := ⟨c.type, c.type.kind, c.cells⟩

/-- The chunk as it is kept, which is in one block. -/
def Chunk.store (k : Chunk) : Store := ⟨k.type, k.type.kind, .ofList .array k.cells⟩

end LiveTables
