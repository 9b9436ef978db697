import LiveTables.Column.Basic
import LiveTables.Column.Encoded

/-!
# Exchanging arrays and columns

An array becomes cells of a column type in three steps, of which each can fail: its encoding has to
stand for a column type, that type has to be the one asked for, and what is stored has to fit the
units and the offsets of the canonical encoding.

On the way out a column is an array of its canonical encoding, which needs no conversion. It is
possible only while the column holds nothing else than cells of its type, which is checked; and
while the offsets of the canonical encoding, which have 32 bits, can count the texts and items of
the column, which is not.
-/

namespace LiveTables

/-- The cells of an array as cells of the given type. The array is converted as a whole, unless it
is in the canonical encoding of the type already. -/
def EncodedArray.cellsAs (a : EncodedArray) (type : ColumnType) : Except Error (List Cell) := do
  let found ← a.encoding.columnType
  type.require found
  if a.encoding = type.encoding then return a.cells
  else return (← a.layout.convert).cells

/-- Cells of a type as an array of its canonical encoding. What is too large for its offsets does
not even come to an error. -/
def ColumnType.arrayOf (type : ColumnType) (cells : List Cell) : Except Failure EncodedArray :=
  if hfits : type.encoding.fits cells = true then
    if h : ∀ c ∈ cells, type.encoding.holds c = true then .ok (.ofCells type.encoding cells h hfits)
    else .error (.error (.internal (.foreignCell type.name)))
  else .error .panic

namespace Chunk

/-- The cells of an array of the given type. -/
def ofArrayAs (type : ColumnType) (a : EncodedArray) : Except Error Chunk := do
  return ⟨type, ← a.cellsAs type⟩

/-- The cells of an array, which decides the type. -/
def ofArray (a : EncodedArray) : Except Error Chunk := do
  ofArrayAs (← a.encoding.columnType) a

/-- The chunk as an array. -/
def toArray (k : Chunk) : Except Failure EncodedArray := k.type.arrayOf k.cells

end Chunk

namespace Column

/-- A column with the cells of an array, which decides the type. -/
def ofArray (a : EncodedArray) (backing : Backing) : Except Error Column := do
  let type ← a.encoding.columnType
  return ⟨type, .ofList backing (← a.cellsAs type)⟩

/-- The rows of a column and of an array of its type. -/
def appendArray (c : Column) (a : EncodedArray) : Except Error Column := do
  return { c with cells := c.cells.append (← a.cellsAs c.type) }

/-- The column as an array. -/
def toArray (c : Column) : Except Failure EncodedArray := c.type.arrayOf c.toList

end Column

end LiveTables
