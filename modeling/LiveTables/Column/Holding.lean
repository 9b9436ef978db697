import LiveTables.Column.Storage

/-!
# Columns of arrays

A column takes in an array by converting it as a whole, and keeps it cell by cell (`Holding`): what
it keeps of a list is the part of the items that belong to it, which is an array again. An array
that leaves is put together of these parts. What is asked of the library of arrays on the way is an
`ArrayLibrary`, and what is relied on is `ArrayLibrary.Lawful`.

Parts can be put together only as far as 32 bits can count what they have. How much that is
(`Layout.weight`) has to be asked at every depth, because lists bring along the items of their
items, also those of lists that are not there.
-/

namespace LiveTables

/-! ## Parts of layouts -/

namespace Layout

/-- An array for each list that there is, with the items of the list. -/
def rows : Layout → List (Option Layout)
  | lists _ _ _ offsets bits items =>
    (present bits (spans offsets)).map (Option.map fun r => items.slice r.start r.width)
  | _ => []

/-- The number of items of a list. -/
def rowLength (row : Option Layout) : Nat := row.elim 0 size

/-- The offset at which the cells from position `i` on begin, `depth` levels down. -/
def reach : Layout → Nat → Nat → Nat
  | texts _ offsets _, 0, i | lists _ _ _ offsets _ _, 0, i => offsets.getD i 0
  | lists _ _ _ offsets _ items, depth + 1, i => items.reach depth (offsets.getD i 0)
  | _, _, _ => 0

/-- The number of bytes or items, seen or not, that the cells have `depth` levels down. -/
def weight (depth : Nat) (a : Layout) : Nat := a.reach depth a.size - a.reach depth 0

/-- Can 32 bits count what arrays have together, at every depth? -/
def Light (parts : List Layout) : Prop := ∀ depth, total (parts.map (weight depth)) ≤ maxOffset

end Layout

/-! ## The library of arrays -/

/-- The parts of a library of arrays that columns use. -/
structure ArrayLibrary where
  /-- how encodings are called in messages -/
  name : Encoding → String
  /-- convert an array to an encoding -/
  cast : Encoding → Layout → Except Error Layout
  /-- the cells of several arrays of one encoding, one array behind the other -/
  concat : List Layout → Except Failure Layout
  /-- an array without cells -/
  empty : Encoding → Layout
  /-- lists of items with a field of the given name, encoding and nullability -/
  listArray (field : String) (element : Encoding) (nullable : Bool) (offsets : List Nat)
    (bits : Option (List Bool)) (items : Layout) : Except Error Layout

/-- What columns rely on. -/
structure ArrayLibrary.Lawful (lib : ArrayLibrary) : Prop where
  /-- an array that could be converted to the canonical encoding of its type has the cells that
  its own become in canonical units -/
  cast {a b : Layout} {type : ColumnType} (ha : a.Sound) (htype : a.encoding.columnType = .ok type)
    (hb : lib.cast type.encoding a = .ok b) :
    b.Sound ∧ b.encoding = type.encoding ∧ a.cells.mapM a.encoding.canonicalCell = .ok b.cells
  /-- arrays of one canonical encoding can be joined, if they are not too large together -/
  concat {parts : List Layout} {type : ColumnType}
    (hparts : ∀ p ∈ parts, p.Sound ∧ p.encoding = type.encoding) (htwo : 2 ≤ parts.length)
    (hlight : Layout.Light parts) : ∃ b, lib.concat parts = .ok b
  /-- arrays that are joined are one behind the other -/
  joined {parts : List Layout} {type : ColumnType} {b : Layout}
    (hparts : ∀ p ∈ parts, p.Sound ∧ p.encoding = type.encoding) (hb : lib.concat parts = .ok b) :
    b.Sound ∧ b.encoding = type.encoding ∧ b.cells = parts.flatMap Layout.cells
  /-- there is an empty array of each canonical encoding -/
  empty (type : ColumnType) : (lib.empty type.encoding).Sound ∧
    (lib.empty type.encoding).encoding = type.encoding ∧ (lib.empty type.encoding).cells = []
  /-- lists can be made of fitting offsets, bits and items -/
  listArray {field : String} {offsets : List Nat} {bits : Option (List Bool)} {items : Layout}
    (hitems : items.Sound) (hoffsets : Layout.Within offsets items.size)
    (hfits : ∀ o ∈ offsets, o ≤ maxOffset)
    (hbits : ∀ l, bits = some l → l.length + 1 = offsets.length) :
    lib.listArray field items.encoding true offsets bits items =
      .ok (.lists false field true offsets bits items)

variable (lib : ArrayLibrary)

/-! ## Columns that keep arrays -/

/-- The array in the canonical encoding of a type. It is converted only if it is not in this
encoding already. -/
def Layout.canonical (type : ColumnType) (a : Layout) : Except Error Layout :=
  if a.encoding = type.encoding then .ok a else lib.cast type.encoding a

/-- What a column keeps of arrays. -/
inductive Holding where
  /-- cells of a kind that is not that of lists -/
  | cells (kind : CellKind) (l : List Cell)
  /-- an array for each list that there is -/
  | lists (rows : List (Option Layout))

namespace Holding

/-- The cells in order. -/
def toList : Holding → List Cell
  | cells _ l => l
  | lists rows => rows.map fun row => row.elim .null fun list => .list list.cells

/-- What a column of the given type keeps of an array in the canonical encoding. -/
def ofCanonical (type : ColumnType) (a : Layout) : Holding :=
  match type with
  | .list _ => lists a.rows
  | _ => cells type.kind a.cells

/-- What a column of the given type keeps of an array. -/
def ofLayout (type : ColumnType) (a : Layout) : Except Error Holding := do
  let found ← a.encoding.columnType
  type.require found
  return ofCanonical type (← a.canonical lib type)

/-- Can 32 bits count what is kept? -/
def Fits : Holding → Prop
  | cells kind l => kind = .utf8 → total (l.map Cell.bytes) ≤ maxOffset
  | lists rows => total (rows.map Layout.rowLength) ≤ maxOffset ∧ Layout.Light (rows.filterMap id)

end Holding

/-- The encoding in which cells of a kind leave a column of a type. What is stored as numbers
leaves as numbers of its kind, whatever the type is. -/
def CellKind.encoding? (type : ColumnType) : CellKind → Option Encoding
  | bool => if type = .bool then some .bool else none
  | utf8 => if type = .utf8 then some .utf8 else none
  | int8 => some .int8
  | int16 => some .int16
  | int32 => some .int32
  | int64 => some .int64
  | float32 => some .float32
  | float64 => some .float64
  | char16 => some .uint16
  | timestamp => some (.timestamp .nanosecond none)
  | date => some .date64
  | time => some (.time64 .nanosecond)
  | list => none

namespace Layout

/-- The cells of several arrays. One array alone is taken as it is. -/
def concat : List Layout → Except Failure Layout
  | [] => .error (.error (.internal (.other "concat_many: no arrays to concatenate")))
  | [part] => .ok part
  | parts => lib.concat parts

/-- Fail unless a list, if there is one, has items of the given encoding. -/
def requireItems (element : Encoding) (row : Option Layout) : Except Error Unit :=
  match row with
  | some list =>
    if list.encoding = element then .ok ()
    else .error (.typeMismatch (lib.name element) (lib.name list.encoding))
  | none => .ok ()

/-- The items of lists, one list behind the other. Lists without items are passed over. -/
def itemsOf (element : Encoding) (rows : List (Option Layout)) : Except Failure Layout :=
  match (rows.filterMap id).filter (0 < ·.size) with
  | [] => .ok (lib.empty element)
  | parts => concat lib parts

/-- Offsets of lists of the given lengths. Nobody looks whether there are any. -/
def offsetsOf (lengths : List Nat) : Except Failure (List Nat) :=
  if total lengths ≤ maxOffset then .ok (offsetsFrom 0 lengths) else .error .panic

/-- Lists of the items of arrays. Offsets are counted anew, and there are bits only if there is no
list for some row. -/
def ofRows (element : Encoding) (rows : List (Option Layout)) : Except Failure Layout := do
  Failure.lift (rows.forM (requireItems lib element))
  let items ← itemsOf lib element rows
  let offsets ← offsetsOf (rows.map rowLength)
  Failure.lift
    (lib.listArray "item" element true offsets (marks (rows.map Option.isSome)) items)

end Layout

/-- What a column of the given type keeps as an array. -/
def Holding.toLayout (type : ColumnType) : Holding → Except Failure Layout
  | cells kind l =>
    match kind.encoding? type with
    | some encoding => if encoding.fits l then .ok (.ofCells encoding l) else .error .panic
    | none => .error (.error (.internal (.foreignCell type.name)))
  | lists rows =>
    match type with
    | .list element => Layout.ofRows lib element.encoding rows
    | _ => .error (.error (.internal (.foreignCell type.name)))

/-- A column that keeps arrays. -/
structure ArrayColumn where
  /-- what the cells are declared to be -/
  type : ColumnType
  /-- how they are stored -/
  backing : Backing
  /-- what is kept -/
  holding : Holding

namespace ArrayColumn

/-- A column of the cells of an array, which decides the type. -/
def ofLayout (a : Layout) (b : Backing) : Except Error ArrayColumn := do
  let type ← a.encoding.columnType
  return ⟨type, b, ← Holding.ofLayout lib type a⟩

/-- The column as an array. -/
def toLayout (c : ArrayColumn) : Except Failure Layout := c.holding.toLayout lib c.type

/-- The cells in order. -/
def toList (c : ArrayColumn) : List Cell := c.holding.toList

/-- The column of the cells. -/
def column (c : ArrayColumn) : Column := ⟨c.type, .ofList c.backing c.toList⟩

end ArrayColumn

end LiveTables
