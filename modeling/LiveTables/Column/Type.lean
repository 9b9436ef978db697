/-!
# Column types and array encodings

A `ColumnType` says what the cells of a column are. Data arrives and leaves in arrays, whose
`Encoding` is richer: several encodings hold cells of one column type and differ in the width of
an offset, the unit of a time, or the name of a list's field. `Encoding.columnType?` forgets the
differences; `ColumnType.encoding` picks the canonical encoding of a type, which is the one that
arrays leave in. Encodings without a column type are `Unmapped`.
-/

namespace LiveTables

/-- What the cells of a column are. -/
inductive ColumnType where
  | bool
  | int8
  | int16
  | int32
  | int64
  | float32
  | float64
  /-- a 16-bit code unit of text -/
  | char16
  | utf8
  /-- nanoseconds since the epoch -/
  | timestamp
  /-- milliseconds since the epoch -/
  | date
  /-- nanoseconds since midnight -/
  | time
  /-- lists of cells of one type -/
  | list (element : ColumnType)
  deriving DecidableEq, Repr, Inhabited

/-- How a column type is called in messages. -/
def ColumnType.name : ColumnType → String
  | bool => "Bool"
  | int8 => "Int8"
  | int16 => "Int16"
  | int32 => "Int32"
  | int64 => "Int64"
  | float32 => "Float32"
  | float64 => "Float64"
  | char16 => "Char16"
  | utf8 => "Utf8"
  | timestamp => "Timestamp"
  | date => "Date"
  | time => "Time"
  | list element => s!"List<{element.name}>"

/-- Units in which instants are counted. -/
inductive TimeUnit where
  | second
  | millisecond
  | microsecond
  | nanosecond
  deriving DecidableEq, Repr

/-- The number of nanoseconds in a unit. -/
def TimeUnit.nanoseconds : TimeUnit → Int
  | second => 1000000000
  | millisecond => 1000000
  | microsecond => 1000
  | nanosecond => 1

/-- Encodings that no column type stands for. -/
inductive Unmapped where
  | null
  | uint8
  | uint32
  | uint64
  | float16
  | utf8View
  | binary
  | largeBinary
  | binaryView
  | fixedBinary4
  | decimal128
  | durationSecond
  | intervalDayTime
  /-- any other, such as lists of a fixed size, by what it is called -/
  | other (name : String)
  deriving DecidableEq, Repr

/-- How an unmapped encoding is called in messages. -/
def Unmapped.name : Unmapped → String
  | null => "Null"
  | uint8 => "UInt8"
  | uint32 => "UInt32"
  | uint64 => "UInt64"
  | float16 => "Float16"
  | utf8View => "Utf8View"
  | binary => "Binary"
  | largeBinary => "LargeBinary"
  | binaryView => "BinaryView"
  | fixedBinary4 => "FixedSizeBinary(4)"
  | decimal128 => "Decimal128(10, 2)"
  | durationSecond => "Duration(Second)"
  | intervalDayTime => "Interval(DayTime)"
  | other name => name

/-- How the elements of an array are laid out. There are encodings of times in every unit, but no
arrays of those of 32 bits in the finer units and of those of 64 bits in the coarser ones. -/
inductive Encoding where
  | bool
  | int8
  | int16
  | int32
  | int64
  | uint16
  | float32
  | float64
  | utf8
  /-- text with 64-bit offsets -/
  | largeUtf8
  /-- days since the epoch -/
  | date32
  /-- milliseconds since the epoch -/
  | date64
  /-- time since midnight in 32 bits -/
  | time32 (unit : TimeUnit)
  /-- time since midnight in 64 bits -/
  | time64 (unit : TimeUnit)
  /-- instants, with the time zone that they are shown in -/
  | timestamp (unit : TimeUnit) (zone : Option String)
  /-- lists, with 64-bit offsets if `large`; the field of their elements has a name, and may or
  may not be null -/
  | list (large : Bool) (field : String) (nullable : Bool) (element : Encoding)
  /-- an encoding without a column type -/
  | unmapped (kind : Unmapped)
  deriving DecidableEq, Repr, Inhabited

/-- Is there no column type for the elements themselves? -/
def Encoding.isUnmapped : Encoding → Bool
  | unmapped _ => true
  | _ => false

/-- Are the elements lists? -/
def Encoding.isList : Encoding → Bool
  | list .. => true
  | _ => false

/-- The type of the columns that hold arrays of an encoding. The elements of lists decide: a list
of unmapped elements is unmapped. -/
def Encoding.columnType? : Encoding → Except Unmapped ColumnType
  | bool => .ok .bool
  | int8 => .ok .int8
  | int16 => .ok .int16
  | int32 => .ok .int32
  | int64 => .ok .int64
  | uint16 => .ok .char16
  | float32 => .ok .float32
  | float64 => .ok .float64
  | utf8 | largeUtf8 => .ok .utf8
  | date32 | date64 => .ok .date
  | time32 _ | time64 _ => .ok .time
  | timestamp .. => .ok .timestamp
  | list _ _ _ element => element.columnType?.map .list
  | unmapped kind => .error kind

/-- The encoding in which columns of a type leave: 64-bit dates, times and timestamps in their
finest unit and without a zone, lists with 32-bit offsets and elements that may be null. -/
def ColumnType.encoding : ColumnType → Encoding
  | bool => .bool
  | int8 => .int8
  | int16 => .int16
  | int32 => .int32
  | int64 => .int64
  | float32 => .float32
  | float64 => .float64
  | char16 => .uint16
  | utf8 => .utf8
  | timestamp => .timestamp .nanosecond none
  | date => .date64
  | time => .time64 .nanosecond
  | list element => .list false "item" true element.encoding

/-- The canonical encoding of a type stands for this type. -/
theorem ColumnType.columnType?_encoding (t : ColumnType) : t.encoding.columnType? = .ok t := by
  induction t with
  | list element ih => rw [encoding, Encoding.columnType?, ih]; rfl
  | _ => rfl

end LiveTables
