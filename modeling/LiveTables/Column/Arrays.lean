import LiveTables.Column.Copying
import LiveTables.Column.Holding

/-!
# Columns of arrays at work

A column that keeps an array for each list works as every store does (`Store.run`), but what it
copies of a list is the array, whatever it is an array of. Nothing compares the items of a list with
the declared type until the column leaves as an array: lists of all items are of one kind, and a
step of a copy compares the kinds only.

What a step comes to where the kinds differ is left open (`Mismatch`). That it is an error
(`ArrayColumn.refuse`) is one possibility.
-/

namespace LiveTables

/-! ## What is kept -/

namespace Holding

/-- The kind of the cells. -/
def kind : Holding → CellKind
  | cells kind _ => kind
  | lists _ => .list

/-- The number of cells. -/
def size : Holding → Nat
  | cells _ l => l.length
  | lists rows => rows.length

/-- Nulls of a type. -/
def nulls (type : ColumnType) (n : Nat) : Holding :=
  match type with
  | .list _ => lists (List.replicate n none)
  | _ => cells type.kind (List.replicate n .null)

/-- Change what is kept, where `f` is given what stands for null. -/
def edit (f : {α : Type} → α → List α → List α) : Holding → Holding
  | cells kind l => cells kind (f .null l)
  | lists rows => lists (f none rows)

/-- Change what is kept by what is kept elsewhere, if the kinds agree. -/
def combine? (f : {α : Type} → List α → List α → List α) : Holding → Holding → Option Holding
  | cells kind l, cells kind' l' => if kind = kind' then some (cells kind (f l l')) else none
  | lists rows, lists rows' => some (lists (f rows rows'))
  | _, _ => none

end Holding

/-! ## Steps -/

/-- What a step comes to that takes cells of another kind from the first column to the second. -/
abbrev Mismatch := ArrayColumn → ArrayColumn → Worked ArrayColumn

namespace ArrayColumn

/-- The number of cells. -/
def size (c : ArrayColumn) : Nat := c.holding.size

/-- A column of `n` nulls. -/
def nulls (type : ColumnType) (b : Backing) (n : Nat) : ArrayColumn := ⟨type, b, .nulls type n⟩

/-- A column of the cells of an array of the given type. -/
def ofLayoutAs (lib : ArrayLibrary) (type : ColumnType) (a : Layout) (b : Backing) :
    Except Error ArrayColumn := do
  return ⟨type, b, ← Holding.ofLayout lib type a⟩

/-- The first `n` cells. -/
def take (c : ArrayColumn) (n : Nat) : Except Error ArrayColumn := do
  requirePart n c.size
  return { c with holding := c.holding.edit fun _ l => l.take n }

/-- The column without its first `n` cells. -/
def dropFront (n : Nat) (c : ArrayColumn) : ArrayColumn :=
  { c with holding := c.holding.edit fun _ l => l.drop n }

/-- The column with nulls added until there are `n` cells. -/
def growTo (n : Nat) (c : ArrayColumn) : ArrayColumn :=
  { c with holding := c.holding.edit fun x l => l ++ List.replicate (n - l.length) x }

/-- Kinds that differ are an error. -/
def refuse : Mismatch := fun src c =>
  (.error (.typeMismatch c.holding.kind.name src.holding.kind.name), c)

variable (mismatch : Mismatch)

/-- Change a column by another one. -/
def combine (f : {α : Type} → List α → List α → List α) (src c : ArrayColumn) :
    Worked ArrayColumn :=
  match c.holding.combine? f src.holding with
  | some holding => (.ok (), { c with holding := holding })
  | none => mismatch src c

/-- Add the cells of `src`. -/
def appendTo (src : ArrayColumn) : ArrayColumn → Worked ArrayColumn :=
  combine mismatch (fun l l' => l ++ l') src

/-- Copy the cells of a run of `src` to position `i` and after. From one block to another they are
copied at once, and otherwise one by one. -/
def copyRun (src : ArrayColumn) (r : Run) (i : Nat) (c : ArrayColumn) : Worked ArrayColumn :=
  combine mismatch
    (fun dest l => copyMembers (src.backing = .array ∧ c.backing = .array) l r i dest) src c

/-- Cells of columns that keep arrays. -/
def copier : Copier ArrayColumn := ⟨size, copyRun mismatch, growTo⟩

end ArrayColumn

/-! ## Calls -/

/-- A call that works on a column in place. -/
inductive ArrayCall where
  /-- drop the first `n` cells -/
  | drop (n : Nat)
  /-- append the cells of another column -/
  | append (other : ArrayColumn)
  /-- append the cells of an array -/
  | appendLayout (array : Layout)
  /-- copy the rows of a set of `src` to the front -/
  | gather (src : ArrayColumn) (rows : KeySet)
  /-- copy the rows of a list of `src` to the front -/
  | gatherEach (src : ArrayColumn) (rows : List Nat)
  /-- copy the front of `src` to the rows of a set -/
  | scatter (src : ArrayColumn) (rows : KeySet)
  /-- copy the front of `src` to the rows of a list -/
  | scatterEach (src : ArrayColumn) (rows : List Nat)

namespace ArrayCall

/-- The other columns that a call reads. -/
def others : ArrayCall → List ArrayColumn
  | append c | gather c _ | gatherEach c _ | scatter c _ | scatterEach c _ => [c]
  | drop _ | appendLayout _ => []

/-- The arrays that a call reads. -/
def arrays : ArrayCall → List Layout
  | appendLayout a => [a]
  | _ => []

end ArrayCall

namespace ArrayColumn

variable (lib : ArrayLibrary) (mismatch : Mismatch)

/-- Make a call, where steps between different kinds come to what `mismatch` says. -/
def runWith (c : ArrayColumn) : ArrayCall → Worked ArrayColumn
  | .drop n => after (requirePart n c.size) (fun _ c => (.ok (), c.dropFront n)) c
  | .append other => after (c.type.require other.type) (fun _ => other.appendTo mismatch) c
  | .appendLayout a => after (ofLayoutAs lib c.type a c.backing) (appendTo mismatch) c
  | .gather src rows =>
    after (src.type.require c.type) (fun _ => (copier mismatch).gather src rows) c
  | .gatherEach src rows =>
    after (src.type.require c.type) (fun _ => (copier mismatch).gatherEach src rows) c
  | .scatter src rows =>
    after (c.type.require src.type) (fun _ => (copier mismatch).scatter src rows) c
  | .scatterEach src rows =>
    after (c.type.require src.type) (fun _ => (copier mismatch).scatterEach src rows) c

/-- Make a call. -/
def run : ArrayColumn → ArrayCall → Worked ArrayColumn := runWith lib refuse

/-- The columns that can be made of arrays, by calls that succeed or fail. A chunk is one that is
stored in a block, and a snapshot is the column itself. -/
inductive Made : ArrayColumn → Prop
  | nulls (type : ColumnType) (b : Backing) (n : Nat) : Made (.nulls type b n)
  | ofLayoutAs {type : ColumnType} {a : Layout} {b : Backing} {c : ArrayColumn} (ha : a.Sound)
      (h : ArrayColumn.ofLayoutAs lib type a b = .ok c) : Made c
  | ofLayout {a : Layout} {b : Backing} {c : ArrayColumn} (ha : a.Sound)
      (h : ArrayColumn.ofLayout lib a b = .ok c) : Made c
  | move {c : ArrayColumn} (h : Made c) (b : Backing) : Made { c with backing := b }
  | take {c d : ArrayColumn} {n : Nat} (h : Made c) (hd : c.take n = .ok d) : Made d
  | run {c : ArrayColumn} (h : Made c) (call : ArrayCall) (hothers : ∀ d ∈ call.others, Made d)
      (harrays : ∀ a ∈ call.arrays, a.Sound) : Made (c.run lib call).2

/-- The column as a store of cells. -/
def store (c : ArrayColumn) : Store := ⟨c.type, c.holding.kind, .ofList c.backing c.toList⟩

end ArrayColumn

end LiveTables
