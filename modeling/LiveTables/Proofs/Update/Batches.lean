import LiveTables.Proofs.Update.Accepted

/-!
# Where batches end

The batches of an update are its data cut into pieces, and each column gets its pieces joined again.
It does not matter where the cuts are. Whether arrays are for a column is settled by their encoding,
and their cells are converted one after another, so what a column gets, or which error comes of its
data, depends on its cells alone (`Schema.joined_of_clear`). Batches that hold the same cells
(`Schema.SameData`) are the same data.

This is so for arrays that nothing but their own cells can keep from being converted
(`EncodedArray.Clear`). Others fail for items that belong to none of their lists, or for offsets
that are too large.
-/

namespace LiveTables

/-! ## One column -/

namespace Batches

variable {batches : List Batch} {a : EncodedArray} {j n : Nat}

/-- The arrays that batches have for column `j`, one after the other. -/
def column (j : Nat) (batches : List Batch) : List EncodedArray := batches.filterMap (·[j]?)

theorem column_append (j : Nat) (batches batches' : List Batch) :
    column j (batches ++ batches') = column j batches ++ column j batches' :=
  List.filterMap_append

/-- All arrays of the batches are clear. -/
def Clear (batches : List Batch) : Prop := ∀ b ∈ batches, ∀ a ∈ b, a.Clear

theorem Clear.column (h : Clear batches) : ∀ a ∈ column j batches, a.Clear := by
  intro a ha
  obtain ⟨b, hb, hj⟩ := List.mem_filterMap.mp ha
  exact h b hb a (List.mem_of_getElem? hj)

/-- Where each batch has an array for a column, the column has an array. -/
theorem column_ne_nil (hne : batches ≠ []) (hwidth : ∀ b ∈ batches, b.length = n) (hj : j < n) :
    column j batches ≠ [] := by
  obtain ⟨b, rest, rfl⟩ := List.exists_cons_of_ne_nil hne
  have hb : j < b.length := by rwa [hwidth b (List.mem_cons_self ..)]
  have hmem : b[j] ∈ column j (b :: rest) :=
    List.mem_filterMap.mpr ⟨b, List.mem_cons_self .., List.getElem?_eq_getElem hb⟩
  exact List.ne_nil_of_mem hmem

/-- Where no batch has an array for a column, the column has none. -/
theorem column_eq_nil (hwidth : ∀ b ∈ batches, b.length ≤ j) : column j batches = [] :=
  List.filterMap_eq_nil_iff.mpr fun b hb => List.getElem?_eq_none (hwidth b hb)

end Batches

namespace Schema

variable {s : Schema} {d : ColumnDef} {e : Encoding} {a : EncodedArray} {arrays : List EncodedArray}
  {b : Batch} {batches batches' : List Batch}

/-- Fail unless arrays of an encoding are for a column. -/
def requireEncoding (d : ColumnDef) (e : Encoding) : Except Error Unit :=
  match e.columnType >>= d.type.require with
  | .error (.typeMismatch expected found) =>
    .error (.protocol (.columnType d.name expected found))
  | checked => checked

/-- First the encoding of an array is looked at, and then its cells. -/
theorem cellsFor_of_clear (h : a.Clear) :
    cellsFor d a = do
      requireEncoding d a.encoding
      return ⟨d.type, ← a.cells.mapM a.encoding.canonicalCell⟩ := by
  have hcells : a.cellsAs d.type = (a.encoding.columnType >>= d.type.require) >>= fun _ =>
      a.cells.mapM a.encoding.canonicalCell := by
    rw [a.cellsAs_of_clear h, bind_assoc]
  rw [cellsFor, Chunk.ofArrayAs, hcells, requireEncoding]
  cases a.encoding.columnType >>= d.type.require with
  | error error => cases error <;> rfl
  | ok checked =>
    cases hmade : a.cells.mapM a.encoding.canonicalCell with
    | ok cells => rfl
    | error error =>
      -- a cell that cannot be converted is not taken for an array of another type
      obtain ⟨i, x, -, hx, -⟩ := mapM_eq_error hmade
      obtain ⟨fault, rfl⟩ := Encoding.canonicalCell_eq_error hx
      rfl

/-- What is joined so far stays in front of what more clear arrays of the right encoding add. -/
theorem foldlM_append_of_clear (hcheck : requireEncoding d e = .ok ())
    (he : ∀ a ∈ arrays, a.encoding = e) (hclear : ∀ a ∈ arrays, a.Clear) (start : List Cell) :
    arrays.foldlM (fun (k : Chunk) a => do k.append (← cellsFor d a)) ⟨d.type, start⟩ = do
      return ⟨d.type, start ++ (← (arrays.flatMap EncodedArray.cells).mapM e.canonicalCell)⟩ := by
  induction arrays generalizing start with
  | nil => simp
  | cons a rest ih =>
    obtain ⟨rfl, hrest⟩ := List.forall_mem_cons.mp he
    obtain ⟨hfirst, hclear⟩ := List.forall_mem_cons.mp hclear
    rw [List.foldlM_cons, cellsFor_of_clear hfirst, hcheck, List.flatMap_cons, List.mapM_append]
    cases hmade : a.cells.mapM a.encoding.canonicalCell with
    | error error => rfl
    | ok cells =>
      have happend : Chunk.append ⟨d.type, start⟩ ⟨d.type, cells⟩ = .ok ⟨d.type, start ++ cells⟩ :=
        Chunk.append_eq_ok rfl
      simp only [ok_bind, pure_bind, bind_assoc, happend, ih hrest hclear, List.append_assoc]

/-- Clear arrays of one encoding are joined by converting their cells one after another. -/
theorem joined_of_clear (hne : arrays ≠ []) (he : ∀ a ∈ arrays, a.encoding = e)
    (hclear : ∀ a ∈ arrays, a.Clear) :
    joined d arrays = do
      requireEncoding d e
      return ⟨d.type, ← (arrays.flatMap EncodedArray.cells).mapM e.canonicalCell⟩ := by
  cases hcheck : requireEncoding d e with
  | ok checked => exact foldlM_append_of_clear hcheck he hclear []
  | error error =>
    -- the first array is not for the column already
    obtain ⟨a, rest, rfl⟩ := List.exists_cons_of_ne_nil hne
    obtain ⟨rfl, -⟩ := List.forall_mem_cons.mp he
    rw [joined, List.foldlM_cons, cellsFor_of_clear (hclear a (List.mem_cons_self ..)), hcheck]
    rfl

/-! ## All columns -/

/-- Two lists of batches hold the same cells in arrays of the same encodings, cut in different
places. A batch may also be empty. -/
structure SameData (s : Schema) (batches batches' : List Batch) : Prop where
  /-- there are batches on both sides -/
  nonempty : batches ≠ [] ∧ batches' ≠ []
  /-- each batch has one array per column -/
  width : ∀ b ∈ batches ++ batches', b.length = s.width
  /-- the arrays for a column have one encoding -/
  encoding : ∀ j, ∃ e, ∀ a ∈ Batches.column j (batches ++ batches'), a.encoding = e
  /-- the cells for a column are the same ones -/
  cells : ∀ j, (Batches.column j batches).flatMap EncodedArray.cells =
    (Batches.column j batches').flatMap EncodedArray.cells

theorem SameData.symm (h : s.SameData batches batches') : s.SameData batches' batches where
  nonempty := h.nonempty.symm
  width := fun b hb => h.width b (List.mem_append.mpr (List.mem_append.mp hb).symm)
  encoding := fun j => by
    obtain ⟨e, he⟩ := h.encoding j
    refine ⟨e, fun a ha => he a ?_⟩
    rw [Batches.column_append, List.mem_append] at ha ⊢
    exact ha.symm
  cells := fun j => (h.cells j).symm

/-- A column gets the same of the same data. -/
theorem SameData.joined_eq (h : s.SameData batches batches') (hclear : Batches.Clear batches)
    (hclear' : Batches.Clear batches') {j : Nat} (hj : j < s.width) :
    joined d (Batches.column j batches) = joined d (Batches.column j batches') := by
  obtain ⟨hne, hne'⟩ := h.nonempty
  obtain ⟨hwidth, hwidth'⟩ := List.forall_mem_append.mp h.width
  obtain ⟨e, he⟩ := h.encoding j
  rw [Batches.column_append] at he
  obtain ⟨he, he'⟩ := List.forall_mem_append.mp he
  rw [joined_of_clear (Batches.column_ne_nil hne hwidth hj) he hclear.column,
    joined_of_clear (Batches.column_ne_nil hne' hwidth' hj) he' hclear'.column, h.cells]

/-- The same data makes the same chunks, or fails with the same error. -/
theorem SameData.dataOf_eq (h : s.SameData batches batches') (hclear : Batches.Clear batches)
    (hclear' : Batches.Clear batches') : s.dataOf batches = s.dataOf batches' := by
  refine mapM_congr_left fun p hp => h.joined_eq hclear hclear' ?_
  exact (List.getElem?_eq_some_iff.mp (List.mk_mem_zipIdx_iff_getElem?.mp hp)).1

/-- Batches with an array per column, all of one length, pass the check of their shape. -/
theorem forM_shape_eq_ok (hwidth : ∀ b ∈ batches, b.length = s.width)
    (heven : ∀ b ∈ batches, ∀ a ∈ b, ∀ a' ∈ b, a.size = a'.size) :
    (batches.zipIdx.forM fun b => do
      s.requireWidth .add b.2 b.1
      requireEven b.2 b.1) = .ok () := by
  refine forM_zipIdx_eq_ok.mpr fun i b hi => ?_
  have hb := List.mem_of_getElem? hi
  exact bind_eq_ok.mpr ⟨(), requireWidth_eq_ok_iff.mpr (hwidth b hb),
    requireEven_eq_ok_iff.mpr (heven b hb)⟩

theorem SameData.addedData_eq (added : KeySet) (h : s.SameData batches batches')
    (heven : ∀ b ∈ batches ++ batches', ∀ a ∈ b, ∀ a' ∈ b, a.size = a'.size)
    (hclear : Batches.Clear batches) (hclear' : Batches.Clear batches') :
    s.addedData added batches = s.addedData added batches' := by
  obtain ⟨hwidth, hwidth'⟩ := List.forall_mem_append.mp h.width
  obtain ⟨heven, heven'⟩ := List.forall_mem_append.mp heven
  rw [addedData, addedData, forM_shape_eq_ok hwidth heven, forM_shape_eq_ok hwidth' heven',
    h.dataOf_eq hclear hclear']

theorem SameData.modifiedData_eq {modified : List KeySet} (hmodified : modified ≠ [])
    (h : s.SameData batches batches') (hclear : Batches.Clear batches)
    (hclear' : Batches.Clear batches') :
    s.modifiedData modified batches = s.modifiedData modified batches' := by
  have hshape : ∀ {batches : List Batch}, (∀ b ∈ batches, b.length = s.width) →
      (batches.zipIdx.forM fun b => s.requireWidth .modify b.2 b.1) = .ok () := fun hwidth =>
    forM_zipIdx_eq_ok.mpr fun i b hi =>
      requireWidth_eq_ok_iff.mpr (hwidth b (List.mem_of_getElem? hi))
  obtain ⟨hwidth, hwidth'⟩ := List.forall_mem_append.mp h.width
  have hempty : ¬ modified.isEmpty = true := by rwa [List.isEmpty_iff]
  rw [modifiedData, modifiedData, if_neg hempty, if_neg hempty, hshape hwidth, hshape hwidth',
    h.dataOf_eq hclear hclear']

/-- A batch that can be taken into the columns has clear arrays. -/
theorem Takes.clear (h : s.Takes b) : ∀ a ∈ b, a.Clear := by
  intro a ha
  obtain ⟨j, hj⟩ := List.getElem?_of_mem ha
  have hwidth : j < s.columns.length :=
    Nat.lt_of_lt_of_eq (List.getElem?_eq_some_iff.mp hj).1 h.1
  obtain ⟨cells, hcells⟩ := h.2 j _ a (List.getElem?_eq_getElem hwidth) hj
  exact a.clear_of_cellsAs hcells

end Schema

end LiveTables
