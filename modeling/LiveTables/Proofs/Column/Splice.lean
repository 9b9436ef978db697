import LiveTables.Proofs.Outcome
import LiveTables.Column.Basic

/-!
# Cutting and joining columns

A column can be cut at every row up to its size, and its parts can be joined again as they have one
type. So rows in the middle can be removed (`Column.spliceOut_spec`) and inserted
(`Column.spliceIn_spec`) wherever there is such a middle. What is asked of a chunk is that it has
the type of the column. Neither type nor backing ever changes.
-/

namespace LiveTables

theorem requirePart_eq_ok_iff {n size : Nat} : requirePart n size = .ok () ↔ n ≤ size := by
  rw [requirePart]
  split
  · exact iff_of_false (by simp) (by omega)
  · exact iff_of_true rfl (by omega)

theorem ColumnType.require_eq_ok_iff {expected found : ColumnType} :
    expected.require found = .ok () ↔ expected = found := by
  rw [ColumnType.require]
  split
  · exact iff_of_true rfl ‹_›
  · exact iff_of_false (by simp) ‹_›

namespace Cells

@[simp] theorem backing_ofList (b : Backing) (cells : List Cell) :
    (ofList b cells).backing = b := by
  cases b <;> rfl

variable (s : Cells)

@[simp] theorem backing_take (n : Nat) : (s.take n).backing = s.backing := by
  cases s <;> rfl

@[simp] theorem backing_drop (n : Nat) : (s.drop n).backing = s.backing := by
  cases s <;> rfl

@[simp] theorem backing_append (cells : List Cell) : (s.append cells).backing = s.backing := by
  cases s <;> rfl

@[simp] theorem backing_growTo (n : Nat) : (s.growTo n).backing = s.backing := by
  cases s <;> rfl

@[simp] theorem backing_set (i : Nat) (x : Cell) : (s.set i x).backing = s.backing := by
  cases s <;> rfl

@[simp] theorem backing_overwrite (i : Nat) (cells : List Cell) :
    (s.overwrite i cells).backing = s.backing := by
  cases s <;> rfl

@[simp] theorem size_set (i : Nat) (x : Cell) : (s.set i x).size = s.size := by
  rw [← length_toList, toList_set, List.length_set, length_toList]

theorem size_overwrite {i : Nat} {cells : List Cell} (h : i + cells.length ≤ s.size) :
    (s.overwrite i cells).size = s.size := by
  rw [← length_toList, toList_overwrite, List.length_append, List.length_append, List.length_take,
    List.length_drop, length_toList]
  omega

end Cells

namespace Chunk

variable {k : Chunk} {n : Nat}

theorem take_eq_ok (h : n ≤ k.size) : k.take n = .ok { k with cells := k.cells.take n } := by
  rw [take, requirePart_eq_ok_iff.mpr h]
  rfl

theorem drop_eq_ok (h : n ≤ k.size) : k.drop n = .ok { k with cells := k.cells.drop n } := by
  rw [drop, requirePart_eq_ok_iff.mpr h]
  rfl

theorem append_eq_ok {other : Chunk} (h : k.type = other.type) :
    k.append other = .ok { k with cells := k.cells ++ other.cells } := by
  rw [append, ColumnType.require_eq_ok_iff.mpr h]
  rfl

end Chunk

namespace Column

variable {c : Column} {k : Chunk} {i w n : Nat}

@[simp] theorem length_toList : c.toList.length = c.size := c.cells.length_toList

/-- A row that can be read is a row of the column. -/
theorem lt_size {x : Cell} (h : c.toList[i]? = some x) : i < c.size := by
  rw [← length_toList]
  exact (List.getElem?_eq_some_iff.mp h).1

/-- Columns of one type and one backing with the same rows are the same. -/
theorem ext_toList {d : Column} (htype : c.type = d.type) (hbacking : c.backing = d.backing)
    (hl : c.toList = d.toList) : c = d := by
  obtain ⟨type, stored⟩ := c
  obtain ⟨type', stored'⟩ := d
  obtain rfl : type = type' := htype
  exact congrArg (mk type) (Cells.ext hbacking hl)

theorem take_eq_ok (h : n ≤ c.size) : c.take n = .ok { c with cells := c.cells.take n } := by
  rw [take, requirePart_eq_ok_iff.mpr h]
  rfl

theorem drop_eq_ok (h : n ≤ c.size) : c.drop n = .ok { c with cells := c.cells.drop n } := by
  rw [drop, requirePart_eq_ok_iff.mpr h]
  rfl

theorem append_eq_ok {d : Column} (h : c.type = d.type) :
    c.append d = .ok { c with cells := c.cells.append d.toList } := by
  rw [append, ColumnType.require_eq_ok_iff.mpr h]
  rfl

theorem appendChunk_eq_ok (h : c.type = k.type) :
    c.appendChunk k = .ok { c with cells := c.cells.append k.cells } := by
  rw [appendChunk, ColumnType.require_eq_ok_iff.mpr h]
  rfl

/-- The column `c'` is `c` with the cells of a list in place of the `w` rows from row `i` on. -/
structure Spliced (c : Column) (i w : Nat) (piece : List Cell) (c' : Column) : Prop where
  /-- the column has the rows -/
  bound : i + w ≤ c.size
  type : c'.type = c.type
  backing : c'.backing = c.backing
  toList : c'.toList = c.toList.take i ++ (piece ++ c.toList.drop (i + w))

namespace Spliced

variable {piece : List Cell} {c' : Column}

theorem length_take (h : c.Spliced i w piece c') : (c.toList.take i).length = i := by
  have := h.bound
  rw [List.length_take, length_toList]
  omega

theorem size (h : c.Spliced i w piece c') : c'.size + w = c.size + piece.length := by
  have := h.bound
  rw [← length_toList, h.toList, List.length_append, List.length_append, h.length_take,
    List.length_drop, length_toList]
  omega

/-- The rows before stay. -/
theorem before (h : c.Spliced i w piece c') {j : Nat} (hj : j < i) :
    c.toList[j]? = c'.toList[j]? := by
  have := h.length_take
  rw [h.toList, List.getElem?_append_left (by omega), List.getElem?_take_of_lt hj]

theorem drop_toList (h : c.Spliced i w piece c') :
    c'.toList.drop i = piece ++ c.toList.drop (i + w) := by
  rw [h.toList, List.drop_left' h.length_take]

/-- The rows between are the new ones. -/
theorem between (h : c.Spliced i w piece c') {j : Nat} (hj : j < piece.length) :
    piece[j]? = (c'.toList.drop i)[j]? := by
  rw [h.drop_toList, List.getElem?_append_left hj]

/-- The rows after stay, but may get other positions. -/
theorem after (h : c.Spliced i w piece c') :
    c.toList.drop (i + w) = c'.toList.drop (i + piece.length) := by
  have hdrop : c'.toList.drop (i + piece.length) = (c'.toList.drop i).drop piece.length :=
    List.drop_drop.symm
  rw [hdrop, h.drop_toList, List.drop_left]

end Spliced

/-- The rows of a range can be removed, if its end is a machine word. -/
theorem spliceOut_spec (h : i + w ≤ c.size) (hword : i + w ≤ maxKey) :
    ∃ c', c.spliceOut i w = .ok c' ∧ c.Spliced i w [] c' := by
  have htake := take_eq_ok (c := c) (n := i) (by omega)
  have hdrop := drop_eq_ok h
  rw [spliceOut, htake, ok_bind, Word.wrapAdd_eq hword, hdrop, ok_bind, append_eq_ok (by rfl)]
  exact ⟨_, rfl, h, rfl, by simp [backing], by simp [toList]⟩

/-- The rows of a chunk can be inserted wherever there is a row, and at the end. -/
theorem spliceIn_spec (h : i ≤ c.size) (hk : k.type = c.type) :
    ∃ c', c.spliceIn i k = .ok c' ∧ c.Spliced i 0 k.cells c' := by
  have htake := take_eq_ok h
  have hdrop := drop_eq_ok h
  rw [spliceIn, htake, ok_bind, hdrop, ok_bind, appendChunk_eq_ok (by exact hk.symm), ok_bind,
    append_eq_ok (by rfl)]
  exact ⟨_, rfl, h, rfl, by simp [backing], by simp [toList]⟩

end Column

end LiveTables
