import LiveTables.LiveTable
import LiveTables.Proofs.Column.Splice
import LiveTables.Proofs.Keys.Renumbering
import LiveTables.Proofs.Lookup

/-!
# The content of a table

A table keeps its keys in one place and its cells in another, column by column, and only positions
connect them. What it stands for is its `LiveTable.content`: rows bound to keys. On contents, an
update is easy to describe. Keys vanish with their rows, keys are renamed, new rows are bound to new
keys, and cells in the rows of keys are replaced.

Contents are lists in the order of their keys, so tables with one content have the same keys and the
same rows.
-/

namespace LiveTables

/-- The cells of a row, one for each column. -/
abbrev Row := List Cell

/-- Rows bound to keys, ascending. -/
abbrev Content := List (Nat × Row)

/-! ## Rows of columns -/

/-- The cells that columns have at position `i`. -/
def rowAt (columns : List (List Cell)) (i : Nat) : Row := columns.filterMap (·[i]?)

/-- The first `n` rows of columns. -/
def rowsOf (n : Nat) (columns : List (List Cell)) : List Row := (List.range n).map (rowAt columns)

section Rows

variable {columns columns' : List (List Cell)} {n i : Nat}

@[simp] theorem length_rowsOf : (rowsOf n columns).length = n := by
  rw [rowsOf, List.length_map, List.length_range]

theorem getElem?_rowsOf (h : i < n) : (rowsOf n columns)[i]? = some (rowAt columns i) := by
  rw [rowsOf, List.getElem?_map, List.getElem?_range h]
  rfl

/-- Rows are settled by the cells of their positions. -/
theorem rowsOf_congr
    (h : List.Forall₂ (fun xs ys => ∀ i < n, xs[i]? = ys[i]?) columns columns') :
    rowsOf n columns = rowsOf n columns' := by
  refine List.map_congr_left fun i hi => ?_
  have hi' : i < n := List.mem_range.mp hi
  rw [rowAt, rowAt]
  induction h with
  | nil => rfl
  | cons hc _ ih => rw [List.filterMap_cons, List.filterMap_cons, hc i hi', ih]

/-- Rows further up are those of the columns without what comes before. -/
theorem rowsOf_add (m n : Nat) (columns : List (List Cell)) :
    rowsOf (m + n) columns = rowsOf m columns ++ rowsOf n (columns.map (·.drop m)) := by
  rw [rowsOf, List.range_add, List.map_append, List.map_map]
  congr 1
  refine List.map_congr_left fun i _ => ?_
  rw [rowAt, List.filterMap_map]
  refine List.filterMap_congr fun c _ => ?_
  exact (List.getElem?_drop ..).symm

/-- A row has a cell of each column that is long enough. -/
theorem length_rowAt (h : ∀ c ∈ columns, i < c.length) :
    (rowAt columns i).length = columns.length := by
  induction columns with
  | nil => rfl
  | cons c columns ih =>
    obtain ⟨hc, hcolumns⟩ := List.forall_mem_cons.mp h
    rw [rowAt, List.filterMap_cons, List.getElem?_eq_getElem hc]
    exact congrArg Nat.succ (ih hcolumns)

/-- A row of columns has the cell of each column. -/
theorem getElem?_rowAt {j : Nat} (h : ∀ c ∈ columns, i < c.length) :
    (rowAt columns i)[j]? = columns[j]?.bind (·[i]?) := by
  induction columns generalizing j with
  | nil => rfl
  | cons c columns ih =>
    obtain ⟨hc, hcolumns⟩ := List.forall_mem_cons.mp h
    rw [rowAt, List.filterMap_cons, List.getElem?_eq_getElem hc]
    cases j with
    | zero => exact (List.getElem?_eq_getElem hc).symm
    | succ j => exact ih hcolumns

end Rows

/-! ## Updates of contents -/

namespace Content

/-- Keys vanish with their rows. -/
def remove (m : Content) (keys : KeySet) : Content := m.filter fun e => !keys.contains e.1

/-- Keys are renamed by moves, made one after another. Rows stay with their keys. -/
def renumber (m : Content) (moves : List Move) : Content :=
  m.map fun e => (Move.path moves e.1, e.2)

/-- The rows of a list are bound to new keys, the first row to the least key. -/
def add (m : Content) (keys : KeySet) (rows : List Row) : Content :=
  m.merge (keys.toList.zip rows) fun e f => e.1 ≤ f.1

/-- The row of a key with new cells. In each column the cells of a list are bound to keys, the first
cell to the least key. -/
def edit (k : Nat) : List KeySet → List (List Cell) → Row → Row
  | keys :: modified, new :: cells, x :: row =>
    ((keys.toList.zip new).lookup k).getD x :: edit k modified cells row
  | _, _, row => row

/-- Cells in the rows of keys are replaced. -/
def modify (m : Content) (modified : List KeySet) (cells : List (List Cell)) : Content :=
  m.map fun e => (e.1, edit e.1 modified cells e.2)

variable {m : Content} {added : KeySet} {rows : List Row} {moves : List Move}
  {modified : List KeySet} {cells : List (List Cell)} {row : Row} {j k : Nat}

/-- The cell that is bound to a key in column `j`, if the key is modified there. -/
def newCell? (modified : List KeySet) (cells : List (List Cell)) (k j : Nat) : Option Cell :=
  (modified.zip cells)[j]?.bind fun e => (e.1.toList.zip e.2).lookup k

theorem newCell?_eq_none (h : ∀ keys, modified[j]? = some keys → k ∉ keys.toList) :
    newCell? modified cells k j = none := by
  rw [newCell?, Option.bind_eq_none_iff]
  intro e he
  exact lookup_zip_of_not_mem (h e.1 (List.getElem?_zip_eq_some.mp he).1)

/-- In each column the cell of a row stays, or it is the one that is bound to the key. -/
theorem getElem?_edit : (edit k modified cells row)[j]? =
    row[j]?.map fun x => (newCell? modified cells k j).getD x := by
  induction modified generalizing j cells row with
  | nil => exact Option.map_id'.symm
  | cons keys modified ih =>
    cases cells with
    | nil => exact Option.map_id'.symm
    | cons new cells =>
      cases row with
      | nil => rfl
      | cons x row =>
        cases j with
        | zero => rfl
        | succ j => exact ih

/-- New cells leave a row as it is in columns in which its key is not modified. -/
theorem getElem?_edit_of_not_mem (h : ∀ keys, modified[j]? = some keys → k ∉ keys.toList) :
    (edit k modified cells row)[j]? = row[j]? := by
  rw [getElem?_edit, newCell?_eq_none h]
  exact Option.map_id'

/-- New cells take the place of old ones. -/
theorem length_edit : (edit k modified cells row).length = row.length := by
  induction modified generalizing cells row with
  | nil => rfl
  | cons keys modified ih =>
    cases cells with
    | nil => rfl
    | cons new cells =>
      cases row with
      | nil => rfl
      | cons x row => exact congrArg Nat.succ ih

/-- Renaming keys changes no row. -/
theorem map_snd_renumber : (m.renumber moves).map Prod.snd = m.map Prod.snd := by
  rw [renumber, List.map_map]
  rfl

/-- Without the added keys a content is what it was before they were added. -/
theorem filter_add (hm : m.Pairwise fun e f => e.1 < f.1)
    (hadd : (m.add added rows).Pairwise fun e f => e.1 < f.1)
    (hout : ∀ e ∈ m, e.1 ∉ added.toList) :
    (m.add added rows).filter (fun e => !added.contains e.1) = m := by
  have hperm : (m.add added rows).Perm (m ++ added.toList.zip rows) := List.merge_perm_append _
  have hkept : m.filter (fun e => !added.contains e.1) = m := by
    refine List.filter_eq_self.mpr fun e he => ?_
    rw [Bool.not_eq_true', ← Bool.not_eq_true, KeySet.contains_iff]
    exact hout e he
  have hgone : (added.toList.zip rows).filter (fun e => !added.contains e.1) = [] := by
    refine List.filter_eq_nil_iff.mpr fun e he => ?_
    rw [Bool.not_eq_true', Bool.not_eq_false, KeySet.contains_iff]
    exact (List.of_mem_zip he).1
  have hfilter := hperm.filter fun e => !added.contains e.1
  rw [List.filter_append, hkept, hgone, List.append_nil] at hfilter
  -- both lists ascend, so having the same members they are the same
  refine hfilter.eq_of_pairwise (fun e f _ _ hef hfe => ?_) (hadd.filter _) hm
  exact absurd hfe (Nat.lt_asymm hef)

end Content

/-- A snapshot is aligned if there is a column for each of the schema, and a cell in each column for
each row. -/
structure Snapshot.Aligned (s : Snapshot) : Prop where
  width : s.columns.length = s.schema.width
  sizes : ∀ c ∈ s.columns, c.size = s.rows

namespace LiveTable

/-- The cells of all columns. -/
def cells (t : LiveTable) : List (List Cell) := t.columns.map Column.toList

/-- What a table stands for: row `i` of all columns is bound to the `i`-th least present key. -/
def content (t : LiveTable) : Content := t.keys.toList.zip (rowsOf t.rows t.cells)

/-- A table is aligned if each column has the type that the schema wants, the backing that the
settings want, and a cell for each present key. -/
structure Aligned (t : LiveTable) : Prop where
  /-- there is a column of its type for each in the schema -/
  columns : List.Forall₂ (fun (d : ColumnDef) c => c.type = d.type ∧ c.backing = t.config.backing)
    t.schema.columns t.columns
  /-- no column is longer or shorter than the others -/
  sizes : ∀ c ∈ t.columns, c.size = t.rows

variable {t : LiveTable}

/-- A snapshot of an aligned table is aligned. -/
theorem Aligned.snapshot (h : t.Aligned) : t.snapshot.Aligned where
  width := h.columns.length_eq.symm
  sizes := h.sizes

/-- The keys of a content are the present keys. -/
theorem map_fst_content : t.content.map Prod.fst = t.keys.toList := by
  refine List.map_fst_zip (Nat.le_of_eq ?_)
  rw [length_rowsOf]
  exact t.keys.length_toList

/-- The rows of a content are those of the columns. -/
theorem map_snd_content : t.content.map Prod.snd = rowsOf t.rows t.cells := by
  refine List.map_snd_zip (Nat.le_of_eq ?_)
  rw [length_rowsOf]
  exact t.keys.length_toList.symm

theorem pairwise_content : t.content.Pairwise fun e f => e.1 < f.1 :=
  pairwise_zip t.keys.ascending _

/-- In an aligned table each column goes as far as the keys do. -/
theorem Aligned.lt_length (h : t.Aligned) {i : Nat} (hi : i < t.rows) :
    ∀ xs ∈ t.cells, i < xs.length := by
  intro xs hxs
  obtain ⟨c, hc, rfl⟩ := List.mem_map.mp hxs
  rwa [Column.length_toList, h.sizes c hc]

/-- The cells of a row are those of the columns at its position. -/
theorem Aligned.getElem?_row (h : t.Aligned) {i j : Nat} {c : Column} (hi : i < t.rows)
    (hc : t.columns[j]? = some c) : (rowAt t.cells i)[j]? = c.toList[i]? := by
  rw [getElem?_rowAt (h.lt_length hi), cells, List.getElem?_map, hc]
  rfl

/-- In an aligned table no cell of a row is missing. -/
theorem Aligned.length_row (h : t.Aligned) {e : Nat × Row} (he : e ∈ t.content) :
    e.2.length = t.schema.width := by
  obtain ⟨i, hi, hrow⟩ := List.mem_map.mp (List.of_mem_zip he).2
  rw [← hrow, length_rowAt (h.lt_length (List.mem_range.mp hi)), cells, List.length_map,
    Schema.width, h.columns.length_eq]

end LiveTable

end LiveTables
