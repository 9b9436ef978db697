import LiveTables.Proofs.Column.Converting
import LiveTables.Proofs.Column.Kept

/-!
# Three ways to append an array

An array can be appended to a store at once, or by way of a chunk, or by way of another store that
was made of it. Its cells are stored differently on the way, and the types are compared at different
places. But what a store gets from another one are its cells, however they were stored. So the
outcome is settled by the type of the array and by its cells in canonical units, and is the same in
all three cases (`Store.appendArray_agrees`).

An array can also be appended in parts. A part of an array of lists is converted with all items of
the array, so it can be converted if the whole can (`EncodedArray.cellsAs_slice`).
-/

namespace LiveTables

/-! ## Stores -/

namespace Cells

theorem append_append (s : Cells) (front back : List Cell) :
    (s.append front).append back = s.append (front ++ back) :=
  Cells.ext (by simp) (by simp)

end Cells

namespace Store

variable {s t : Store} {a : EncodedArray} {b : Backing} {type : ColumnType} {cells : List Cell}

/-- The store with cells of its kind behind those that it has. -/
def extend (s : Store) (cells : List Cell) : Store :=
  { s with storage := { s.storage with cells := s.storage.cells.append cells } }

theorem extend_extend (s : Store) (front back : List Cell) :
    (s.extend front).extend back = s.extend (front ++ back) := by
  rw [extend, extend, extend, Cells.append_append]

theorem ofArrayAs_eq_ok (h : a.cellsAs type = .ok cells) :
    ofArrayAs type a b = .ok ⟨type, type.kind, .ofList b cells⟩ := by
  rw [ofArrayAs, h]
  rfl

/-- What is appended are the cells of the other store, however they are stored there. -/
theorem run_append_eq (s t : Store) : s.run (.append t) =
    after (do s.type.require t.type; s.storage.requireKind t.storage)
      (fun _ s => (.ok (), s.extend t.storage.cells.toList)) s := by
  rw [after_bind]
  refine after_congr fun _ _ => ?_
  rw [within, Storage.appendTo]
  cases s.storage.requireKind t.storage <;> rfl

/-- It is the same store that comes of two others that agree in their types, kinds and cells. -/
theorem run_append_congr {t' : Store} (htype : t.type = t'.type)
    (hkind : t.storage.kind = t'.storage.kind)
    (hcells : t.storage.cells.toList = t'.storage.cells.toList) :
    s.run (.append t) = s.run (.append t') := by
  rw [run_append_eq, run_append_eq, htype, Storage.requireKind, Storage.requireKind, hkind, hcells]

/-- To append an array is to append a store that is made of it, of whatever backing. -/
theorem run_appendArray_eq (b : Backing) : s.run (.appendArray a) =
    after (ofArrayAs s.type a b) (fun t s => s.run (.append t)) s := by
  have hself : s.type.require s.type = .ok () := ColumnType.require_eq_ok_iff.mpr rfl
  have hown : s.run (.appendArray a) =
      after (ofArrayAs s.type a s.storage.cells.backing) (fun t s => s.run (.append t)) s := by
    refine after_congr fun t ht => ?_
    rw [run, (sound_ofArrayAs ht).1, after_ok hself]
  rw [hown]
  cases h : a.cellsAs s.type with
  | error e =>
    rw [ofArrayAs, ofArrayAs, h]
    rfl
  | ok cells =>
    rw [ofArrayAs_eq_ok h, ofArrayAs_eq_ok h]
    exact run_append_congr rfl rfl (by simp)

/-- An array is appended if its cells can become cells of the type, and the storage is made for
these. -/
theorem run_appendArray_eq_ok (hs : s.Sound) (h : a.cellsAs s.type = .ok cells) :
    s.run (.appendArray a) = (.ok (), s.extend cells) := by
  have hself : s.type.require s.type = .ok () := ColumnType.require_eq_ok_iff.mpr rfl
  have hkind : s.storage.requireKind ⟨s.type.kind, .ofList .array cells⟩ = .ok () :=
    Storage.requireKind_eq_ok hs
  rw [run_appendArray_eq .array, ofArrayAs_eq_ok h, after_ok rfl, run_append_eq, hself, ok_bind,
    hkind, after_ok rfl, Cells.toList_ofList]

/-- An array is appended in this case only. -/
theorem exists_cellsAs_of_run_ok (h : (s.run (.appendArray a)).1 = .ok ()) :
    s.Sound ∧ ∃ cells, a.cellsAs s.type = .ok cells := by
  rw [run_appendArray_eq .array] at h
  cases hcells : a.cellsAs s.type with
  | error e =>
    rw [ofArrayAs, hcells] at h
    cases h
  | ok cells =>
    refine ⟨?_, cells, rfl⟩
    have hself : s.type.require s.type = .ok () := ColumnType.require_eq_ok_iff.mpr rfl
    rw [ofArrayAs_eq_ok hcells, after_ok rfl, run_append_eq, hself, ok_bind,
      Storage.requireKind] at h
    split at h
    · assumption
    · cases h

/-- An array that can become cells of a type has no other type. -/
theorem ofArray_eq (h : a.cellsAs type = .ok cells) : ofArray a b = ofArrayAs type a b := by
  rw [ofArray, (EncodedArray.cellsAs_eq_ok_iff.mp h).1, ok_bind]

end Store

/-! ## Columns -/

namespace Column

variable {c d : Column} {a : EncodedArray} {cells : List Cell}

theorem appendArray_eq_ok (h : a.cellsAs c.type = .ok cells) :
    c.appendArray a = .ok { c with cells := c.cells.append cells } := by
  rw [appendArray, h]
  rfl

theorem exists_cellsAs_of_appendArray_ok (h : c.appendArray a = .ok d) :
    ∃ cells, a.cellsAs c.type = .ok cells := by
  obtain ⟨cells, hcells, -⟩ := bind_eq_ok.mp h
  exact ⟨cells, hcells⟩

/-- To append an array is to append a chunk that is made of it. -/
theorem appendArray_eq_appendChunk (c : Column) (a : EncodedArray) :
    c.appendArray a = Chunk.ofArrayAs c.type a >>= c.appendChunk := by
  rw [appendArray, Chunk.ofArrayAs, bind_assoc]
  refine bind_congr fun cells => ?_
  exact (appendChunk_eq_ok (k := ⟨c.type, cells⟩) rfl).symm

/-- A column that is made of the array has the cells that are appended. -/
theorem append_ofArray (h : c.appendArray a = .ok d) (b : Backing) :
    ∃ other, ofArray a b = .ok other ∧ c.append other = .ok d := by
  obtain ⟨cells, hcells⟩ := exists_cellsAs_of_appendArray_ok h
  let other : Column := ⟨c.type, .ofList b cells⟩
  have happend : c.append other = .ok { c with cells := c.cells.append other.toList } :=
    append_eq_ok rfl
  refine ⟨other, ?_, ?_⟩
  · rw [ofArray, (EncodedArray.cellsAs_eq_ok_iff.mp hcells).1, ok_bind, hcells]
    rfl
  · rw [happend, toList, Cells.toList_ofList, ← h, appendArray_eq_ok hcells]

/-- An array that can be appended can be appended in two parts. -/
theorem appendArray_slice (h : c.appendArray a = .ok d) (i : Nat) :
    ∃ c', c.appendArray (a.slice 0 i) = .ok c' ∧
      c'.appendArray (a.slice i (a.size - i)) = .ok d := by
  obtain ⟨cells, hcells⟩ := exists_cellsAs_of_appendArray_ok h
  obtain ⟨hfront, hback⟩ := EncodedArray.cellsAs_cut (i := i) hcells
  refine ⟨_, appendArray_eq_ok hfront, ?_⟩
  rw [appendArray_eq_ok (c := { c with cells := c.cells.append (cells.take i) }) hback, ← h,
    appendArray_eq_ok hcells, Cells.append_append, List.take_append_drop]

end Column

namespace Store

/-- An array comes to the same, whether it is appended as it is or as a chunk of the type of the
store: the outcome is the same, and what is left of the store. If it is appended, it can be appended
as a store of its own as well, whatever its backing, and in two parts, wherever it is cut. So it is
with calls on a store, and with the operations on a column. -/
theorem appendArray_agrees (s : Store) (c : Column) (a : EncodedArray) :
    (s.run (.appendArray a) = after (ofArrayAs s.type a .array) (fun k s => s.run (.append k)) s ∧
      ((s.run (.appendArray a)).1 = .ok () →
        (∀ b, ∃ t, ofArray a b = .ok t ∧ s.run (.append t) = s.run (.appendArray a)) ∧
        ∀ i ≤ a.size, ∃ s', s.run (.appendArray (a.slice 0 i)) = (.ok (), s') ∧
          s'.run (.appendArray (a.slice i (a.size - i))) = s.run (.appendArray a))) ∧
    (c.appendArray a = Chunk.ofArrayAs c.type a >>= c.appendChunk ∧
      ∀ d, c.appendArray a = .ok d →
        (∀ b, ∃ other, Column.ofArray a b = .ok other ∧ c.append other = .ok d) ∧
        ∀ i ≤ a.size, ∃ c', c.appendArray (a.slice 0 i) = .ok c' ∧
          c'.appendArray (a.slice i (a.size - i)) = .ok d) := by
  refine ⟨⟨run_appendArray_eq .array, fun h => ?_⟩, c.appendArray_eq_appendChunk a,
    fun d h => ⟨Column.append_ofArray h, fun i _ => Column.appendArray_slice h i⟩⟩
  obtain ⟨hs, cells, hcells⟩ := exists_cellsAs_of_run_ok h
  refine ⟨fun b => ?_, fun i _ => ?_⟩
  · have hmade := ofArrayAs_eq_ok (b := b) hcells
    refine ⟨_, (ofArray_eq hcells).trans hmade, ?_⟩
    rw [run_appendArray_eq b, hmade, after_ok rfl]
  · obtain ⟨hfront, hback⟩ := EncodedArray.cellsAs_cut (i := i) hcells
    refine ⟨s.extend (cells.take i), run_appendArray_eq_ok hs hfront, ?_⟩
    rw [run_appendArray_eq_ok (s := s.extend (cells.take i)) hs hback,
      run_appendArray_eq_ok hs hcells, extend_extend, List.take_append_drop]

/-- Lists of instants in seconds, with 64-bit offsets and another name of the items, are appended to
lists of instants at once, in parts, and as a store of their own that is backed in another way. -/
theorem appendArray_agrees_of_lists : ∃ (s t : Store) (a : EncodedArray),
    s.type = .list .timestamp ∧ s.storage.cells.backing = .array ∧
    a.encoding = .list true "at" false (.timestamp .second none) ∧
    s.run (.appendArray a) = (.ok (), t) ∧
    t.storage.cells.toList = [.null, .list [.int 3000000000], .null, .list []] ∧
    (∃ k, ofArrayAs s.type a .array = .ok k ∧ s.run (.append k) = (.ok (), t)) ∧
    (∃ o, ofArray a .persistent = .ok o ∧ s.run (.append o) = (.ok (), t)) ∧
    ∃ s', s.run (.appendArray (a.slice 0 1)) = (.ok (), s') ∧
      s'.run (.appendArray (a.slice 1 2)) = (.ok (), t) := by
  let c : Column := ⟨.list .timestamp, .array #[.null]⟩
  let a : EncodedArray := .ofCells (.list true "at" false (.timestamp .second none))
    [.list [.int 3], .null, .list []] (by decide) (by decide)
  obtain ⟨⟨hchunk, hagree⟩, -⟩ := appendArray_agrees c.store c a
  obtain ⟨hown, hparts⟩ := hagree rfl
  exact ⟨c.store, _, a, rfl, rfl, rfl, rfl, rfl, ⟨_, rfl, hchunk.symm⟩, hown .persistent,
    hparts 1 (by decide)⟩

end Store

end LiveTables
