import LiveTables.Column.Script
import LiveTables.Proofs.Column.Splice
import Mathlib.Logic.Function.Iterate

/-!
# How columns are stored

Cells are stored in one block or in a list, and each operation on them is written once for blocks
and once for lists. To store cells in another way (`Cells.restore`) and then to work on them comes
to the same as working on them first. Nor does it matter whether several cells are read or written
as one block or one after another (`Cells.overwrite_eq_foldl`). What holds of cells holds of the
columns that are made of them: the outcome of an operation is the same, and the column that is left
has the same type and cells. Since a column stays what it is if it is stored as it is stored
already, this says at once that no operation changes the backing of a column
(`Column.backing_of_made`).
-/

namespace LiveTables

/-! ## Cells -/

namespace Cells

variable {b : Backing} {s : Cells} {i n : Nat} {cells : List Cell}

/-- The cells, stored in another way. -/
def restore (b : Backing) (s : Cells) : Cells := .ofList b s.toList

@[simp] theorem toList_restore : (s.restore b).toList = s.toList := toList_ofList ..

@[simp] theorem backing_restore : (s.restore b).backing = b := backing_ofList ..

@[simp] theorem size_restore : (s.restore b).size = s.size := by
  rw [← length_toList, toList_restore, length_toList]

@[simp] theorem restore_backing : s.restore s.backing = s := ext backing_restore toList_restore

theorem take_restore : (s.restore b).take n = (s.take n).restore b := ext (by simp) (by simp)

theorem drop_restore : (s.restore b).drop n = (s.drop n).restore b := ext (by simp) (by simp)

theorem append_restore : (s.restore b).append cells = (s.append cells).restore b :=
  ext (by simp) (by simp)

theorem growTo_restore : (s.restore b).growTo n = (s.growTo n).restore b := ext (by simp) (by simp)

theorem set_restore {x : Cell} : (s.restore b).set i x = (s.set i x).restore b :=
  ext (by simp) (by simp)

theorem overwrite_restore : (s.restore b).overwrite i cells = (s.overwrite i cells).restore b :=
  ext (by simp) (by simp)

theorem get?_restore : (s.restore b).get? i = s.get? i := by simp

theorem slice_restore {r : Run} : (s.restore b).slice r = s.slice r := by simp

/-! ### Block by block and cell by cell -/

/-- To grow by a block of nulls comes to the same as to append one null after another. -/
theorem growTo_eq_iterate (s : Cells) (n : Nat) :
    s.growTo n = (fun s : Cells => s.append [.null])^[n - s.size] s := by
  have hpush : ∀ k, (fun s : Cells => s.append [.null])^[k] s =
      s.append (List.replicate k .null) := by
    intro k
    induction k with
    | zero => exact ext (by simp) (by simp)
    | succ k ih =>
      rw [Function.iterate_succ_apply', ih]
      exact ext (by simp) (by simp [List.replicate_succ'])
  rw [hpush]
  exact ext (by simp) (by simp)

/-- To write a block of cells comes to the same as to put one cell after another, where all of them
have a place. -/
theorem overwrite_eq_foldl (h : i + cells.length ≤ s.size) :
    s.overwrite i cells = (cells.zipIdx i).foldl (fun s x => s.set x.2 x.1) s := by
  induction cells generalizing s i with
  | nil => exact ext (by simp) (by simp)
  | cons x cells ih =>
    rw [List.length_cons] at h
    have hi : i < s.toList.length := by
      rw [length_toList]
      omega
    have hroom : i + 1 + cells.length ≤ (s.set i x).size := by
      rw [size_set]
      omega
    rw [List.zipIdx_cons, List.foldl_cons, ← ih hroom]
    -- the first cell is the last one in front of the block that is left
    have hfront : (s.toList.set i x).take (i + 1) = s.toList.take i ++ [x] := by
      rw [List.take_succ_eq_append_getElem (by simpa using hi), List.take_set_of_le (Nat.le_refl i),
        List.getElem_set_self]
    have hback : (s.toList.set i x).drop (i + 1 + cells.length) =
        s.toList.drop (i + (cells.length + 1)) := by
      rw [List.drop_set_of_lt (by omega), Nat.add_right_comm, Nat.add_assoc]
    refine ext (by simp) ?_
    rw [toList_overwrite, toList_overwrite, toList_set, hfront, hback, List.length_cons,
      List.append_assoc _ [x], List.singleton_append]

/-- To read a block of cells comes to the same as to get one cell after another. -/
theorem slice_eq_filterMap (s : Cells) (r : Run) : s.slice r = r.keys.filterMap s.get? := by
  have hget : ∀ i n, (s.toList.drop i).take n = (List.range' i n).filterMap s.get? := by
    intro i n
    induction n generalizing i with
    | zero => simp
    | succ n ih =>
      rw [List.range'_succ, List.filterMap_cons, get?_eq, ← ih]
      rcases Nat.lt_or_ge i s.toList.length with hi | hi
      · rw [List.drop_eq_getElem_cons hi, List.take_succ_cons, List.getElem?_eq_getElem hi]
      · simp [List.getElem?_eq_none hi, List.drop_eq_nil_of_le hi,
          List.drop_eq_nil_of_le (Nat.le_succ_of_le hi)]
  rw [slice_eq, hget, Run.keys]

end Cells

/-! ## Columns -/

namespace Column

variable {c d : Column} {k dest : Chunk} {b b' : Backing} {i w n : Nat}

/-- The column, stored in another way. -/
def restore (b : Backing) (c : Column) : Column := { c with cells := c.cells.restore b }

/-- What a column holds, however it is stored: its type and its cells. -/
def contents (c : Column) : Chunk := ⟨c.type, c.toList⟩

@[simp] theorem size_restore : (c.restore b).size = c.size := Cells.size_restore

@[simp] theorem backing_restore : (c.restore b).backing = b := Cells.backing_restore

@[simp] theorem contents_restore : (c.restore b).contents = c.contents :=
  congrArg (Chunk.mk c.type) Cells.toList_restore

/-- To store a column as it is stored changes nothing. -/
@[simp] theorem restore_backing : c.restore c.backing = c :=
  congrArg (Column.mk c.type) Cells.restore_backing

/-- A column of cells that are stored in another way is itself stored in this way. -/
theorem mk_restore {type : ColumnType} {cells cells' : Cells} (h : cells = cells'.restore b) :
    (⟨type, cells⟩ : Column) = restore b ⟨type, cells'⟩ :=
  congrArg (Column.mk type) h

/-! ### Cutting and joining -/

theorem take_restore : (c.restore b).take n = restore b <$> c.take n := by
  rw [take, take, size_restore]
  cases requirePart n c.size with
  | error e => rfl
  | ok _ => exact congrArg Except.ok (mk_restore Cells.take_restore)

theorem drop_restore : (c.restore b).drop n = restore b <$> c.drop n := by
  rw [drop, drop, size_restore]
  cases requirePart n c.size with
  | error e => rfl
  | ok _ => exact congrArg Except.ok (mk_restore Cells.drop_restore)

theorem appendChunk_restore : (c.restore b).appendChunk k = restore b <$> c.appendChunk k := by
  rw [appendChunk, appendChunk]
  change (c.type.require k.type >>= _) = _
  cases c.type.require k.type with
  | error e => rfl
  | ok _ => exact congrArg Except.ok (mk_restore Cells.append_restore)

/-- What is joined to a column is what the other one holds. -/
theorem append_eq_appendChunk : c.append d = c.appendChunk d.contents := rfl

theorem append_restore : (c.restore b).append (d.restore b') = restore b <$> c.append d := by
  rw [append_eq_appendChunk, append_eq_appendChunk, contents_restore, appendChunk_restore]

theorem appendArray_restore {a : EncodedArray} :
    (c.restore b).appendArray a = restore b <$> c.appendArray a := by
  rw [appendArray, appendArray]
  change (a.cellsAs c.type >>= _) = _
  cases a.cellsAs c.type with
  | error e => rfl
  | ok cells => exact congrArg Except.ok (mk_restore Cells.append_restore)

/-- A column leaves as an array of what it holds. -/
theorem toArray_restore : (c.restore b).toArray = c.toArray :=
  congrArg (fun k : Chunk => k.toArray) contents_restore

theorem spliceOut_restore : (c.restore b).spliceOut i w = restore b <$> c.spliceOut i w := by
  simp only [spliceOut, take_restore, drop_restore, bind_map_left, append_restore, map_bind]

theorem spliceIn_restore : (c.restore b).spliceIn i k = restore b <$> c.spliceIn i k := by
  simp only [spliceIn, take_restore, drop_restore, bind_map_left, appendChunk_restore,
    append_restore, map_bind]

/-! ### Copying rows -/

theorem gatherRuns_restore {rs : List Run} :
    (c.restore b).gatherRuns rs i dest = c.gatherRuns rs i dest := by
  induction rs generalizing i dest with
  | nil => rfl
  | cons r rs ih =>
    have hslice : (c.restore b).cells.slice r = c.cells.slice r := Cells.slice_restore
    rw [gatherRuns, gatherRuns, size_restore, hslice]
    cases requireRun c.size r with
    | error e => rfl
    | ok _ => exact ih

theorem gather_restore {rows : KeySet} : (c.restore b).gather rows dest = c.gather rows dest := by
  have hrequire : (c.restore b).requireGather rows dest = c.requireGather rows dest := by
    rw [requireGather, requireGather, size_restore]
    rfl
  simp only [gather, hrequire, gatherRuns_restore]

theorem cellAt_restore : (c.restore b).cellAt = c.cellAt := by
  funext i
  have hget : (c.restore b).cells.get? i = c.cells.get? i := Cells.get?_restore
  rw [cellAt, cellAt, hget, size_restore]

theorem gatherEach_restore {rows : List Nat} :
    (c.restore b).gatherEach rows dest = c.gatherEach rows dest := by
  have hcells : (c.restore b).cellsFor rows dest = c.cellsFor rows dest := by
    rw [cellsFor, cellsFor, cellAt_restore]
    rfl
  rw [gatherEach, gatherEach, hcells]

theorem growFor_restore {last : Nat} : (c.restore b).growFor last = (c.growFor last).restore b :=
  mk_restore Cells.growTo_restore

theorem scatterRuns_restore {rs : List Run} {source : List Cell} :
    scatterRuns rs source (c.restore b) = (scatterRuns rs source c).map id (restore b) := by
  induction rs generalizing source c with
  | nil => rfl
  | cons r rs ih =>
    have hwritten : { c.restore b with
        cells := (c.restore b).cells.overwrite r.start (source.take r.width) } =
          restore b { c with cells := c.cells.overwrite r.start (source.take r.width) } :=
      mk_restore Cells.overwrite_restore
    rw [scatterRuns, scatterRuns, size_restore, hwritten]
    cases requireRun c.size r with
    | error e => rfl
    | ok _ => exact ih

theorem scatter_restore {rows : KeySet} :
    (c.restore b).scatter k rows = (c.scatter k rows).map id (restore b) := by
  have hrequire : (c.restore b).requireScatter k rows = c.requireScatter k rows := rfl
  rw [scatter, scatter, hrequire]
  split
  · rw [growFor_restore, scatterRuns_restore]
  · rfl
  · rfl

theorem scatterRows_restore {rows : List Nat} {source : List Cell} :
    scatterRows rows source (c.restore b) = (scatterRows rows source c).map id (restore b) := by
  induction rows generalizing source c with
  | nil => rfl
  | cons row rows ih =>
    cases source with
    | nil => rfl
    | cons x source =>
      have hwritten : { c.restore b with cells := (c.restore b).cells.set row x } =
          restore b { c with cells := c.cells.set row x } :=
        mk_restore Cells.set_restore
      rw [scatterRows, scatterRows, size_restore, hwritten]
      cases requireRow c.size row with
      | error e => rfl
      | ok _ => exact ih

theorem scatterEach_restore {rows : List Nat} :
    (c.restore b).scatterEach k rows = (c.scatterEach k rows).map id (restore b) := by
  have hrequire : (c.restore b).requireScatterEach k rows = c.requireScatterEach k rows := rfl
  rw [scatterEach, scatterEach, hrequire]
  split
  · rw [growFor_restore, scatterRows_restore]
  · rfl
  · rfl

/-! ### Keeping the backing -/

/-- What is made, and is the same when stored in a way, is stored in this way. -/
theorem backing_of_made {made : Except Error Column} (h : made = restore b <$> made)
    (hd : made = .ok d) : d.backing = b := by
  rw [hd] at h
  rw [Except.ok.inj h, backing_restore]

/-- And so is what is left by work in place, also if the work failed. -/
theorem backing_of_worked {worked : Except Error Unit × Column}
    (h : worked = worked.map id (restore b)) : worked.2.backing = b := by
  rw [h]
  exact backing_restore

end Column

end LiveTables
