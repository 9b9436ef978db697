import LiveTables.Proofs.Column.Layout

/-!
# Arrays

An `EncodedArray` is a layout that is one of an array. What is stored of it may be more than its
cells: a part of an array keeps all items of the array, and items may belong to lists that are not
there. Nobody sees them, but they are converted like the others (`Layout.convert`).
-/

namespace LiveTables

/-- An array. Stored of it are its cells, the cells at the bottom of its layout that no list has,
and the offsets of both. -/
structure EncodedArray where
  /-- how the cells are laid out -/
  layout : Layout
  /-- the layout is that of an array -/
  sound : layout.Sound

namespace EncodedArray

/-- How the cells are laid out. -/
def encoding (a : EncodedArray) : Encoding := a.layout.encoding

/-- The cells in order. -/
def cells (a : EncodedArray) : List Cell := a.layout.cells

/-- The number of cells. -/
def size (a : EncodedArray) : Nat := a.cells.length

/-- The array of cells that its encoding can hold, and has enough offsets for. Nothing else is
stored. -/
def ofCells (encoding : Encoding) (cells : List Cell) (h : ∀ c ∈ cells, encoding.holds c = true)
    (hfits : encoding.fits cells = true) : EncodedArray :=
  ⟨.ofCells encoding cells, (Layout.ofCells_spec h hfits).1⟩

/-- The array of the given cells, if there is one. -/
def ofCells? (encoding : Encoding) (cells : List Cell) : Option EncodedArray :=
  if h : (∀ c ∈ cells, encoding.holds c = true) ∧ encoding.fits cells = true then
    some (ofCells encoding cells h.1 h.2)
  else none

@[simp] theorem encoding_ofCells {e : Encoding} {cs : List Cell}
    (h : ∀ c ∈ cs, e.holds c = true) (hfits : e.fits cs = true) :
    (ofCells e cs h hfits).encoding = e := (Layout.ofCells_spec h hfits).2.1

@[simp] theorem cells_ofCells {e : Encoding} {cs : List Cell}
    (h : ∀ c ∈ cs, e.holds c = true) (hfits : e.fits cs = true) :
    (ofCells e cs h hfits).cells = cs := (Layout.ofCells_spec h hfits).2.2

/-- The `n` cells from position `i` on, as far as there are any. Everything else that is stored
below them stays stored. -/
def slice (a : EncodedArray) (i n : Nat) : EncodedArray where
  layout := a.layout.slice (min i a.layout.size) (min n (a.layout.size - i))
  sound := a.sound.slice (by omega)

@[simp] theorem encoding_slice (a : EncodedArray) (i n : Nat) :
    (a.slice i n).encoding = a.encoding := Layout.encoding_slice ..

@[simp] theorem cells_slice (a : EncodedArray) (i n : Nat) :
    (a.slice i n).cells = (a.cells.drop i).take n := by
  rw [slice, cells, cells, Layout.cells_slice, ← a.sound.length_cells]
  rcases Nat.le_total i a.layout.cells.length with hi | hi
  · rw [Nat.min_eq_left hi, ← List.length_drop, ← List.take_eq_take_min]
  · rw [Nat.min_eq_right hi, List.drop_length, List.drop_eq_nil_of_le hi, List.take_nil,
      List.take_nil]

end EncodedArray

end LiveTables
