import LiveTables.Column.Cell

/-!
# Schemas

A `Schema` lists the columns of a table. Names are distinct, so a name finds its column. Where a
table is announced or exported its columns are `Field`s, which have an array encoding in place of a
column type; an exported field has the canonical encoding of its column and may hold nulls.
-/

namespace LiveTables

/-- A column of a table. -/
structure ColumnDef where
  /-- what the column is called -/
  name : String
  /-- what its cells are -/
  type : ColumnType
  deriving DecidableEq, Repr

/-- A column as it is announced or exported. -/
structure Field where
  /-- what the column is called -/
  name : String
  /-- how its arrays are laid out -/
  encoding : Encoding
  /-- may a cell be null? -/
  nullable : Bool
  deriving DecidableEq, Repr

/-- Positions by name. -/
abbrev NameIndex := List (String × Nat)

namespace NameIndex

variable {names names' : NameIndex} {i : Nat} {columns : List ColumnDef}

/-- Files a position under a name, in place of the one that is answered. -/
def insert (names : NameIndex) (name : String) (i : Nat) : Option Nat × NameIndex :=
  (names.lookup name, (name, i) :: names)

/-- Files columns under their names, from position `i` on. A name is not filed twice. -/
def enter (names : NameIndex) (i : Nat) : List ColumnDef → Except Error NameIndex
  | [] => .ok names
  | d :: ds =>
    match names.insert d.name i with
    | (some _, _) => .error (.invalidArgument (.duplicateColumn d.name))
    | (none, names) => enter names (i + 1) ds

/-- A name that is filed first is found, other names are where they were. -/
theorem lookup_cons (name name' : String) :
    List.lookup name ((name', i) :: names) =
      if name = name' then some i else names.lookup name := by
  by_cases h : name = name'
  · simp [h]
  · simp [h, List.lookup_cons, beq_false_of_ne h]

/-- A column can be filed if its name is new. -/
theorem enter_cons (d : ColumnDef) : names.enter i (d :: columns) =
    if names.lookup d.name = none then enter ((d.name, i) :: names) (i + 1) columns
    else .error (.invalidArgument (.duplicateColumn d.name)) := by
  rw [enter, insert]
  cases names.lookup d.name <;> rfl

/-- The columns that can be filed are those with distinct names that are new. -/
theorem enter_isOk_iff : (∃ names', names.enter i columns = .ok names') ↔
    (columns.map ColumnDef.name).Nodup ∧ ∀ d ∈ columns, names.lookup d.name = none := by
  induction columns generalizing names i with
  | nil => simp [enter]
  | cons d ds ih =>
    rw [enter_cons, List.map_cons, List.nodup_cons, List.forall_mem_cons]
    split
    case isFalse hd => simp [hd]
    case isTrue hd =>
      have hnew : (∀ x ∈ ds, List.lookup x.name ((d.name, i) :: names) = none) ↔
          d.name ∉ ds.map ColumnDef.name ∧ ∀ x ∈ ds, names.lookup x.name = none := by
        simp only [lookup_cons, List.mem_map, not_exists, not_and, ← forall_and]
        refine forall_congr' fun x => ?_
        by_cases hx : x.name = d.name <;> simp [hx]
      rw [ih, hnew, and_iff_right hd, and_left_comm, and_assoc]

end NameIndex

/-- The columns of a table. -/
structure Schema where
  /-- the columns in order -/
  columns : List ColumnDef
  /-- no two columns have one name -/
  distinct : (columns.map ColumnDef.name).Nodup
  deriving DecidableEq

namespace Schema

/-- The schema with the given columns, whose names have to be distinct. -/
def ofColumns (columns : List ColumnDef) : Except Error Schema :=
  match h : NameIndex.enter [] 0 columns with
  | .error e => .error e
  | .ok _ => .ok ⟨columns, (NameIndex.enter_isOk_iff.mp ⟨_, h⟩).1⟩

/-- The column that holds the arrays of a field. -/
def columnOf (f : Field) : Except Error ColumnDef := do
  return ⟨f.name, ← f.encoding.columnType⟩

/-- The schema of a table announced with the given fields. -/
def ofFields (fields : List Field) : Except Error Schema := do
  ofColumns (← fields.mapM columnOf)

/-- The number of columns. -/
def width (s : Schema) : Nat := s.columns.length

/-- The column at a position. -/
def column (s : Schema) (i : Nat) : Except Error ColumnDef :=
  match s.columns[i]? with
  | some d => .ok d
  | none => .error (.invalidArgument (.columnIndex i s.width))

/-- The columns of a schema can be filed. -/
theorem enter_ne_error (s : Schema) {e : Error} : NameIndex.enter [] 0 s.columns ≠ .error e := by
  obtain ⟨names, h⟩ : ∃ names, NameIndex.enter [] 0 s.columns = .ok names :=
    NameIndex.enter_isOk_iff.mpr ⟨s.distinct, fun _ _ => List.lookup_nil⟩
  rw [h]
  nofun

/-- The positions of the columns, as they are filed when the schema is made. -/
def byName (s : Schema) : NameIndex :=
  match h : NameIndex.enter [] 0 s.columns with
  | .ok names => names
  | .error _ => absurd h s.enter_ne_error

/-- The position of the column of a name. -/
def indexOf? (s : Schema) (name : String) : Option Nat := s.byName.lookup name

/-- The fields in which a table of this schema leaves. -/
def fields (s : Schema) : List Field :=
  s.columns.map fun d => ⟨d.name, d.type.encoding, true⟩

end Schema

end LiveTables
