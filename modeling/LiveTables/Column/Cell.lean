import LiveTables.Error
import LiveTables.Column.Type

/-!
# Cells

A `Cell` is one value of a column, or the lack of one. Integers of every width, instants, dates
and times are whole numbers; floats are their bit patterns, because they are only carried.

`Encoding.holds` says which cells an array of an encoding can have. The encoding may count in
coarser units than columns do: `Encoding.canonicalCell` brings a cell into the units of the
canonical encoding, and fails only where the finer count of an instant does not fit 64 bits.

Text and the items of lists are found by offsets. Those of most encodings have 32 bits, which is not
enough for all cells that there can be (`Encoding.fits`).
-/

namespace LiveTables

/-- One value, or none. -/
inductive Cell where
  /-- no value -/
  | null
  | bool (value : Bool)
  /-- a whole number: an integer, a code unit, an instant, a date or a time -/
  | int (value : Int)
  /-- a 32-bit float as its bits -/
  | float32 (bits : UInt32)
  /-- a 64-bit float as its bits -/
  | float64 (bits : UInt64)
  | text (value : String)
  | list (items : List Cell)
  deriving Repr, Inhabited

namespace Cell

/-- Is there no value? -/
def isNull : Cell → Bool
  | null => true
  | _ => false

/-- Is the cell a whole number in `[-2^(w-1), 2^(w-1))`? -/
def isInt (w : Nat) : Cell → Bool
  | int n => -(1 <<< (w - 1) : Nat) ≤ n && n < (1 <<< (w - 1) : Nat)
  | _ => false

/-- The number of bytes that a text takes. -/
def bytes : Cell → Nat
  | text value => value.utf8ByteSize
  | _ => 0

/-- The items of a list. -/
def items? : Cell → Option (List Cell)
  | list items => some items
  | _ => none

end Cell

/-- Can an array of an encoding have this cell? Every array can have nulls, but the items of a list
that is not nullable are values. Of the cells of an unmapped encoding nothing is kept but their
number: all of them are null here, also the items of such a list. -/
def Encoding.holds : Encoding → Cell → Bool
  | _, .null => true
  | bool, .bool _ => true
  | int8, c => c.isInt 8
  | int16, c => c.isInt 16
  | int32, c | date32, c | time32 .second, c | time32 .millisecond, c => c.isInt 32
  | int64, c | date64, c | time64 .microsecond, c | time64 .nanosecond, c | timestamp .., c =>
    c.isInt 64
  | uint16, .int n => 0 ≤ n && n < 0x10000
  | float32, .float32 _ => true
  | float64, .float64 _ => true
  | utf8, .text _ | largeUtf8, .text _ => true
  | list _ _ nullable element, .list items =>
    items.all fun c => element.holds c && (nullable || element.isUnmapped || !c.isNull)
  | _, _ => false

/-- A list can be held if its items can, as far as they are values where they have to be. -/
theorem Encoding.holds_list_iff {large nullable : Bool} {field : String} {element : Encoding}
    {items : List Cell} : (list large field nullable element).holds (.list items) = true ↔
      ∀ x ∈ items, element.holds x = true ∧
        (nullable || element.isUnmapped || !x.isNull) = true := by
  simp only [holds, List.all_eq_true, Bool.and_eq_true]

/-! ## Offsets -/

/-- The greatest offset of 32 bits. -/
def maxOffset : Nat := 0x7fffffff

/-- The number of items of a list, if there is one. -/
def itemCount (items? : Option (List Cell)) : Nat := items?.elim 0 List.length

/-- The sum of counts. -/
def total (counts : List Nat) : Nat := counts.foldr (· + ·) 0

theorem total_cons (n : Nat) (ns : List Nat) : total (n :: ns) = n + total ns := rfl

/-- Is there an offset for every text and every item of these cells? -/
def Encoding.fits : Encoding → List Cell → Bool
  | utf8, cs => total (cs.map Cell.bytes) ≤ maxOffset
  | list large _ _ element, cs =>
    (large || total (cs.map fun c => itemCount c.items?) ≤ maxOffset) &&
      element.fits (cs.flatMap fun c => c.items?.getD [])
  | _, _ => true

/-! ## Into canonical units -/

/-- Apply a function to the whole number in a cell, if there is one. -/
def Cell.mapInt (f : Int → Int) : Cell → Cell
  | .int n => .int (f n)
  | c => c

/-- The instant `n`, counted in a unit of `factor` nanoseconds, in nanoseconds. -/
def nanosecondCount (factor n : Int) : Except Error Int :=
  if (Cell.int (n * factor)).isInt 64 then .ok (n * factor)
  else .error (.conversion (.overflow n factor))

/-- A cell of an array in the units of the canonical encoding. Days become milliseconds, seconds
and microseconds of a day become nanoseconds, modulo `2 ^ 64` where the count is that large; of
milliseconds of a day the count is lost. Instants become nanoseconds, if there are not too many. -/
def Encoding.canonicalCell : Encoding → Cell → Except Error Cell
  | date32, c => .ok (c.mapInt (· * 86400000))
  | time32 .second, c => .ok (c.mapInt (· * 1000000000))
  | time32 .millisecond, c => .ok (c.mapInt fun _ => 0)
  | time64 .microsecond, c => .ok (c.mapInt fun n => (n * 1000).bmod 0x10000000000000000)
  | timestamp unit _, .int n => .int <$> nanosecondCount unit.nanoseconds n
  | list _ _ _ element, .list items => .list <$> items.mapM element.canonicalCell
  | _, c => .ok c

/-- The type of the columns that hold the array, or the error that there is none. -/
def Encoding.columnType (e : Encoding) : Except Error ColumnType :=
  match e.columnType? with
  | .ok t => .ok t
  | .error kind => .error (.notImplemented (.noColumnMapping kind.name))

end LiveTables
