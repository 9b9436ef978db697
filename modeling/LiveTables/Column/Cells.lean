import LiveTables.Keys.Run
import LiveTables.Column.Cell

/-!
# Storage of cells

The cells of a column are stored in one of two ways. The array backing keeps them in one block,
which is copied where it is shared; the persistent backing keeps them in a linked list, whose
tails are shared with earlier versions. `Cells.toList` is the content of a storage, and each
operation has a lemma that says what it does to the content, whichever backing there is. A
storage never changes its backing.
-/

namespace LiveTables

/-- How the cells of a column are stored. -/
inductive Backing where
  /-- in one block -/
  | array
  /-- in a list that shares its tails -/
  | persistent
  deriving DecidableEq, Repr

namespace Backing

/-- Columns are persistent unless something else is asked for. -/
instance : Inhabited Backing := ⟨persistent⟩

/-- How a backing is called in messages. -/
def name : Backing → String
  | array => "Array"
  | persistent => "Persistent"

end Backing

/-- The cells of a column, stored. -/
inductive Cells where
  /-- cells in one block -/
  | array (block : Array Cell)
  /-- cells in a list -/
  | persistent (links : List Cell)

namespace Cells

/-- How the cells are stored. -/
def backing : Cells → Backing
  | array _ => .array
  | persistent _ => .persistent

/-- The cells in order. -/
def toList : Cells → List Cell
  | array block => block.toList
  | persistent links => links

/-- Store the cells of a list. -/
def ofList : Backing → List Cell → Cells
  | .array, cells => array cells.toArray
  | .persistent, cells => persistent cells

/-- The number of cells. -/
def size : Cells → Nat
  | array block => block.size
  | persistent links => links.length

/-- The first `n` cells. -/
def take (n : Nat) : Cells → Cells
  | array block => array (block.extract 0 n)
  | persistent links => persistent (links.take n)

/-- All cells but the first `n`. -/
def drop (n : Nat) : Cells → Cells
  | array block => array (block.extract n block.size)
  | persistent links => persistent (links.drop n)

/-- The cells, followed by those of a list. -/
def append (cells : List Cell) : Cells → Cells
  | array block => array (block ++ cells)
  | persistent links => persistent (links ++ cells)

/-- The cells, followed by as many nulls as it takes to have `n`. -/
def growTo (n : Nat) : Cells → Cells
  | array block => array (block ++ Array.replicate (n - block.size) Cell.null)
  | persistent links => persistent (links ++ List.replicate (n - links.length) .null)

/-- The cell at position `i`. -/
def get? (i : Nat) : Cells → Option Cell
  | array block => block[i]?
  | persistent links => links[i]?

/-- The cells at the positions of a run. -/
def slice (r : Run) : Cells → List Cell
  | array block => (block.extract r.start r.stop).toList
  | persistent links => (links.drop r.start).take r.width

/-- Put a cell at position `i`, if there is one already. -/
def set (i : Nat) (c : Cell) : Cells → Cells
  | array block => array (block.setIfInBounds i c)
  | persistent links => persistent (links.set i c)

/-- Put the cells of a list at position `i` and after, in place of those that are there. -/
def overwrite (i : Nat) (cells : List Cell) : Cells → Cells
  | array block =>
    array (block.extract 0 i ++ cells ++ block.extract (i + cells.length) block.size)
  | persistent links =>
    persistent (links.take i ++ cells ++ links.drop (i + cells.length))

/-! ## What the operations do to the content -/

variable (s : Cells)

@[simp] theorem toList_ofList (b : Backing) (cells : List Cell) :
    (ofList b cells).toList = cells := by
  cases b <;> simp [ofList, toList]

@[simp] theorem length_toList : s.toList.length = s.size := by
  cases s <;> simp [toList, size]

@[simp] theorem toList_take (n : Nat) : (s.take n).toList = s.toList.take n := by
  cases s <;> simp [take, toList]

@[simp] theorem toList_drop (n : Nat) : (s.drop n).toList = s.toList.drop n := by
  cases s with
  | array block => simp [drop, toList, List.take_of_length_le]
  | persistent links => rfl

@[simp] theorem toList_append (cells : List Cell) :
    (s.append cells).toList = s.toList ++ cells := by
  cases s <;> simp [append, toList]

@[simp] theorem toList_growTo (n : Nat) :
    (s.growTo n).toList = s.toList ++ List.replicate (n - s.size) .null := by
  cases s <;> simp [growTo, toList, size]

@[simp] theorem get?_eq (i : Nat) : s.get? i = s.toList[i]? := by
  cases s <;> simp [get?, toList]

@[simp] theorem slice_eq (r : Run) : s.slice r = (s.toList.drop r.start).take r.width := by
  cases s <;> simp [slice, toList, Run.width]

@[simp] theorem toList_set (i : Nat) (c : Cell) : (s.set i c).toList = s.toList.set i c := by
  cases s <;> simp [set, toList]

@[simp] theorem toList_overwrite (i : Nat) (cells : List Cell) :
    (s.overwrite i cells).toList =
      s.toList.take i ++ cells ++ s.toList.drop (i + cells.length) := by
  cases s with
  | array block => simp [overwrite, toList, List.take_of_length_le]
  | persistent links => rfl

/-- Two storages of one backing with the same content are the same. -/
theorem ext {s t : Cells} (hb : s.backing = t.backing) (hl : s.toList = t.toList) : s = t := by
  cases s <;> cases t
  · exact congrArg array (Array.toList_inj.mp hl)
  · cases hb
  · cases hb
  · exact congrArg persistent hl

end Cells

end LiveTables
