/-!
# Errors

Every operation of the library fails with an `Error`. A constructor is a *cause*: it carries the
numbers and names that explain the failure, and the wording is in one place, `Error.message`.

The causes fall into families. `ArgumentFault` is a mistake of the caller, `Violation` a message
that the protocol of updates does not allow, `ConversionFault` an array that cannot be brought
into or out of a column, `Gap` something that the library knows of and does not handle,
`InternalFault` a broken promise of the library itself. A family ends in `other` where a failure
reported from outside arrives in somebody else's words.

`Error.isFatal` tells the errors that end the feed of a table from those that leave it running.
-/

namespace LiveTables

/-- What is wrong with an argument. -/
inductive ArgumentFault where
  /-- a range of keys that stops before its first key -/
  | reversedRange (first stop : Nat)
  /-- a key that no set can hold, because the range after it has no end -/
  | unrepresentableKey (key : Nat)
  /-- a row that no column is long enough for -/
  | unaddressableRow (row : Nat)
  /-- a shift whose last source key lies before its first -/
  | shiftEndsBeforeStart (start last : Nat)
  /-- two columns of one name -/
  | duplicateColumn (name : String)
  /-- a position past the last column -/
  | columnIndex (index count : Nat)
  /-- a name that no column has -/
  | unknownColumn (name : String)
  /-- a fault in other words -/
  | other (text : String)
  deriving DecidableEq, Repr

/-- The wording of a fault. -/
def ArgumentFault.message : ArgumentFault → String
  | reversedRange first stop => s!"reversed key range [{first}, {stop})"
  | unrepresentableKey key => s!"key {key} is not representable"
  | unaddressableRow row => s!"row {row} cannot be addressed"
  | shiftEndsBeforeStart start last => s!"shift end {last} precedes start {start}"
  | duplicateColumn name => s!"duplicate column name '{name}'"
  | columnIndex index count => s!"column index {index} out of range for {count} columns"
  | unknownColumn name => s!"no column named '{name}'"
  | other text => text

/-- The two kinds of batches an update carries. -/
inductive BatchKind where
  /-- rows of added keys -/
  | add
  /-- new cells of modified keys -/
  | modify
  deriving DecidableEq, Repr

/-- How a kind of batch is called in messages. -/
def BatchKind.name : BatchKind → String
  | add => "add"
  | modify => "mod"

/-- How an update breaks the protocol. -/
inductive Violation where
  /-- one update carries rows to add and cells to modify -/
  | addsAndModifies
  /-- the three key sets of a renumbering differ in size -/
  | shiftSizes (starts ends dests : Nat)
  /-- a shift whose last source key lies before its first -/
  | shiftEndsBeforeStart (start last : Nat)
  /-- the shift of `[start, stop)` to `dest` carries `key` past the largest key -/
  | shiftLeavesKeySpace (start stop dest key : Nat)
  /-- the shift of `[start, stop)` to `dest` carries keys past `key`, which stays -/
  | shiftPassesKey (start stop dest key : Nat)
  /-- a batch without exactly one array per column -/
  | batchWidth (kind : BatchKind) (batch expected found : Nat)
  /-- an add batch whose arrays differ in length -/
  | raggedBatch (batch column found expected : Nat)
  /-- a column with more or fewer rows than added keys -/
  | addedRows (column rows keys : Nat)
  /-- a column with more or fewer cells than modified keys -/
  | modifiedRows (column rows keys : Nat)
  /-- a number of modified key sets other than the number of columns -/
  | modifiedSets (expected found : Nat)
  /-- cells to modify without keys to modify them at -/
  | modifiedDataWithoutKeys
  /-- an array of the wrong type for the column it is meant for -/
  | columnType (name expected found : String)
  /-- a violation in other words -/
  | other (text : String)
  deriving DecidableEq, Repr

/-- The wording of a violation. -/
def Violation.message : Violation → String
  | addsAndModifies => "message has both add and mod batches"
  | shiftSizes starts ends dests =>
    s!"shift sequences not of same size: starts {starts}, ends {ends}, dests {dests}"
  | shiftEndsBeforeStart start last => s!"shift end {last} precedes start {start}"
  | shiftLeavesKeySpace start stop dest key =>
    s!"shift [{start}, {stop}) -> {dest} moves key {key} out of the key space"
  | shiftPassesKey start stop dest key =>
    s!"shift [{start}, {stop}) -> {dest} would move keys past key {key}"
  | batchWidth kind batch expected found =>
    s!"{kind.name} batch {batch}: expected {expected} columns, got {found}"
  | raggedBatch batch column found expected =>
    s!"add batch {batch}: column {column} has {found} rows, expected {expected}"
  | addedRows column rows keys =>
    s!"add data for column {column} has {rows} rows but {keys} keys were added"
  | modifiedRows column rows keys =>
    s!"mod data for column {column} has {rows} rows but {keys} keys were modified"
  | modifiedSets expected found =>
    s!"modified key sets: expected one per column ({expected}), got {found}"
  | modifiedDataWithoutKeys => "mod batches carry data but no modified keys were sent"
  | columnType name expected found => s!"column '{name}': expected {expected}, got {found}"
  | other text => text

/-- Why an array and a column cannot be exchanged. -/
inductive ConversionFault where
  /-- `value`, counted in a coarser unit, has no 64-bit count in the unit `factor` times finer -/
  | overflow (value factor : Int)
  /-- texts with offsets that are too large for 32 bits -/
  | largeTexts
  /-- lists of more items than 32 bits can count -/
  | largeLists
  /-- the columns of a record batch differ in length from its row count -/
  | unequalColumns
  /-- a fault in other words -/
  | other (text : String)
  deriving DecidableEq, Repr

/-- The wording of a fault. -/
def ConversionFault.message : ConversionFault → String
  | overflow value factor =>
    s!"Arithmetic overflow: Overflow happened on: {value} * {factor}"
  | largeTexts => "Compute error: LargeString array too large to cast to String array"
  | largeLists => "Compute error: LargeList too large to cast to List"
  | unequalColumns =>
    "Invalid argument error: all columns in a record batch must have the specified row count"
  | other text => text

/-- What the library knows of and does not handle. -/
inductive Gap where
  /-- no column type holds arrays of this encoding -/
  | noColumnMapping (encoding : String)
  /-- a gap in other words -/
  | other (text : String)
  deriving DecidableEq, Repr

/-- The wording of a gap. -/
def Gap.message : Gap → String
  | noColumnMapping encoding => s!"no column mapping for Arrow type {encoding}"
  | other text => text

/-- Which promise of the library does not hold. -/
inductive InternalFault where
  /-- a column holds a cell that its type does not have -/
  | foreignCell (type : String)
  /-- an applied update left another number of keys than planned -/
  | keyCount (found planned : Nat)
  /-- a column has another number of rows than there are keys -/
  | rowCount (column rows keys : Nat)
  /-- the worker of a feed died in its subscriber -/
  | workerPanicked
  /-- a fault in other words -/
  | other (text : String)
  deriving DecidableEq, Repr

/-- The wording of a fault. -/
def InternalFault.message : InternalFault → String
  | foreignCell type => s!"column data does not hold values of type {type}"
  | keyCount found planned => s!"applied update left {found} keys, planned {planned}"
  | rowCount column rows keys => s!"column {column} has {rows} rows but {keys} keys are present"
  | workerPanicked => "subscription worker panicked"
  | other text => text

/-- Why an operation failed. -/
inductive Error where
  /-- the outside world failed -/
  | io (text : String)
  /-- an array could not be converted -/
  | conversion (fault : ConversionFault)
  /-- the caller passed something senseless -/
  | invalidArgument (fault : ArgumentFault)
  /-- a range added to a key set meets keys that are in it already -/
  | overlap (first stop : Nat)
  /-- a key to be mapped is mapped already -/
  | duplicateKey (key : Nat)
  /-- a key that has to be present is not -/
  | keyNotFound (key : Nat)
  /-- a row past the end of a column -/
  | indexOutOfRange (index length : Nat)
  /-- a buffer too small for the rows to be copied -/
  | capacity (required available : Nat)
  /-- two columns or buffers of different types -/
  | typeMismatch (expected found : String)
  /-- an update that the protocol does not allow -/
  | protocol (violation : Violation)
  /-- something the library does not handle -/
  | notImplemented (gap : Gap)
  /-- a table that an earlier failure left half changed -/
  | poisoned
  /-- a promise of the library does not hold -/
  | internal (fault : InternalFault)
  deriving DecidableEq, Repr

namespace Error

/-- The wording of an error, made of the wording of its family and of its cause. -/
def message : Error → String
  | io text => s!"I/O error: {text}"
  | conversion fault => s!"Arrow error: {fault.message}"
  | invalidArgument fault => s!"Invalid argument: {fault.message}"
  | overlap first stop => s!"range [{first}, {stop}) overlaps keys already in the set"
  | duplicateKey key => s!"key {key} is already mapped"
  | keyNotFound key => s!"key {key} was not found"
  | indexOutOfRange index length => s!"index {index} is out of range for length {length}"
  | capacity required available =>
    s!"capacity error: {required} elements required but buffer holds {available}"
  | typeMismatch expected found =>
    s!"column type mismatch: expected {expected}, found {found}"
  | protocol violation => s!"protocol violation: {violation.message}"
  | notImplemented gap => s!"not yet implemented: {gap.message}"
  | poisoned => "table state is poisoned by an earlier failed update"
  | internal fault => s!"An internal operation failed: {fault.message}"

/-- An error ends the feed it is raised in, unless it only says that somebody asked a reader of
the table for something that is not there. -/
def isFatal : Error → Bool
  | invalidArgument _ | capacity .. | indexOutOfRange .. => false
  | _ => true

end Error

/-- How an operation ends that does not succeed. Most end with an error, which the caller can do
something about. An operation that runs into a limit where nobody looks out for it panics, and takes
its caller down with it. -/
inductive Failure where
  | error (e : Error)
  | panic
  deriving DecidableEq, Repr

/-- What ends with an error if it does not succeed. -/
def Failure.lift {α : Type} (made : Except Error α) : Except Failure α := made.mapError error

end LiveTables
