import LiveTables.Column.Cells
import LiveTables.Word

/-!
# Columns and chunks

A `Column` is the stored cells of one type, row after row. It knows nothing of keys. A `Chunk` is a
buffer of cells of one type, in which rows are carried into and out of columns.

Both can be cut at a row and joined again. Columns are joined only with what has their type, and
what is joined to a column takes on its backing. `Column.spliceOut` and `Column.spliceIn` remove
and insert rows in the middle, by cutting the column in two. Where the rear part starts is a sum of
machine words that is not checked.
-/

namespace LiveTables

/-- A buffer of cells of one type. -/
structure Chunk where
  /-- what the cells are -/
  type : ColumnType
  /-- the cells in order -/
  cells : List Cell

/-- Fail unless `found` is the type `expected`. -/
def ColumnType.require (expected found : ColumnType) : Except Error Unit :=
  if expected = found then .ok () else .error (.typeMismatch expected.name found.name)

/-- Fail if `n` rows are more than there are. -/
def requirePart (n size : Nat) : Except Error Unit :=
  if size < n then .error (.indexOutOfRange n size) else .ok ()

namespace Chunk

/-- A chunk of `n` nulls. -/
def nulls (type : ColumnType) (n : Nat) : Chunk := ⟨type, List.replicate n .null⟩

/-- The number of cells. -/
def size (k : Chunk) : Nat := k.cells.length

/-- The first `n` cells. -/
def take (k : Chunk) (n : Nat) : Except Error Chunk := do
  requirePart n k.size
  return { k with cells := k.cells.take n }

/-- All cells but the first `n`. -/
def drop (k : Chunk) (n : Nat) : Except Error Chunk := do
  requirePart n k.size
  return { k with cells := k.cells.drop n }

/-- Put the cells of a list at position `i` and after, in place of those that are there. -/
def overwrite (k : Chunk) (i : Nat) (cells : List Cell) : Chunk :=
  { k with cells := k.cells.take i ++ cells ++ k.cells.drop (i + cells.length) }

/-- The cells of two chunks of one type. -/
def append (k other : Chunk) : Except Error Chunk := do
  k.type.require other.type
  return { k with cells := k.cells ++ other.cells }

end Chunk

/-- The stored cells of one type. -/
structure Column where
  /-- what the cells are -/
  type : ColumnType
  /-- the cells in order, stored -/
  cells : Cells

namespace Column

/-- A column without rows. -/
def empty (type : ColumnType) (backing : Backing) : Column := ⟨type, .ofList backing []⟩

/-- A column with the rows of a chunk. -/
def ofChunk (k : Chunk) (backing : Backing) : Column := ⟨k.type, .ofList backing k.cells⟩

/-- How the cells are stored. -/
def backing (c : Column) : Backing := c.cells.backing

/-- The number of rows. -/
def size (c : Column) : Nat := c.cells.size

/-- The cells in order. -/
def toList (c : Column) : List Cell := c.cells.toList

/-! ## Cutting and joining -/

/-- The first `n` rows. -/
def take (c : Column) (n : Nat) : Except Error Column := do
  requirePart n c.size
  return { c with cells := c.cells.take n }

/-- All rows but the first `n`. -/
def drop (c : Column) (n : Nat) : Except Error Column := do
  requirePart n c.size
  return { c with cells := c.cells.drop n }

/-- The rows of two columns of one type. -/
def append (c other : Column) : Except Error Column := do
  c.type.require other.type
  return { c with cells := c.cells.append other.toList }

/-- The rows of a column and of a chunk of its type. -/
def appendChunk (c : Column) (k : Chunk) : Except Error Column := do
  c.type.require k.type
  return { c with cells := c.cells.append k.cells }

/-- Remove `width` rows from row `index` on. -/
def spliceOut (c : Column) (index width : Nat) : Except Error Column := do
  let head ← c.take index
  let tail ← c.drop (Word.wrapAdd index width)
  head.append tail

/-- Insert the rows of a chunk in front of row `index`. -/
def spliceIn (c : Column) (index : Nat) (piece : Chunk) : Except Error Column := do
  let head ← c.take index
  let tail ← c.drop index
  let head ← head.appendChunk piece
  head.append tail

end Column

end LiveTables
