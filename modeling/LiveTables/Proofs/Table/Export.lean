import LiveTables.Proofs.Column.Declared
import LiveTables.Proofs.Table.Apply

/-!
# Exporting snapshots

A snapshot leaves as a record batch: one array for each column, in the canonical encoding of its
type, and as long as there are rows. Three things could be in the way. Columns could differ in
length, but they are aligned with the keys whenever a snapshot is taken. A column could have a cell
that does not belong to its type, but all cells came in by conversions (`Schema.Fits`), and no phase
of an update makes up others. And a column could have more bytes of text, or more items of lists,
than 32 bits can count. Of snapshots that are handed out only the last happens
(`Snapshot.exports`), and it does happen (`LiveTable.exists_too_large`).
-/

namespace LiveTables

/-- Each column has the type that the schema wants, and cells of this type. -/
def Snapshot.Typed (s : Snapshot) : Prop :=
  List.Forall₂ (fun (d : ColumnDef) c => c.type = d.type ∧
    ∀ x ∈ c.toList, d.type.encoding.holds x = true) s.schema.columns s.columns

/-- The arrays are those of the snapshot: they have the encodings of the fields, a cell for each
row, and the cells of the columns. -/
def Snapshot.ExportedAs (s : Snapshot) (arrays : List EncodedArray) : Prop :=
  List.Forall₂ (fun (f : Field) (a : EncodedArray) => a.encoding = f.encoding ∧ a.size = s.rows)
    s.schema.fields arrays ∧ arrays.map EncodedArray.cells = s.columns.map Column.toList

/-- Are there enough offsets for the texts and the items of every column? -/
def Snapshot.HasOffsets (s : Snapshot) : Prop :=
  ∀ c ∈ s.columns, c.type.encoding.fits c.toList = true

/-- The snapshot is exported unless it is too large. -/
structure Snapshot.Exports (s : Snapshot) : Prop where
  /-- there is a record batch if there are enough offsets -/
  ok (hoffsets : s.HasOffsets) : ∃ arrays,
    s.recordBatch = .ok ⟨s.rows, s.schema.fields.zip arrays⟩ ∧ s.ExportedAs arrays
  /-- there is none if there are not -/
  fails (hoffsets : ¬ s.HasOffsets) : ∃ failure, s.recordBatch = .error failure
  /-- columns of arrays that have the cells leave, as far as 32 bits can count what they keep -/
  kept {lib : ArrayLibrary} {columns : List ArrayColumn} (hlib : lib.Lawful)
    (hmade : ∀ c ∈ columns, c.Made lib ∧ c.holding.Fits)
    (hsame : columns.map ArrayColumn.column = s.columns) :
    ∃ arrays, columns.mapM (ArrayColumn.toLayout lib) = .ok (arrays.map EncodedArray.layout) ∧
      s.ExportedAs arrays

namespace Snapshot

variable {s : Snapshot} {arrays : List EncodedArray}

/-- Arrays of the cells of the columns, in the encodings of their types, are those of the
snapshot. -/
theorem exportedAs (haligned : s.Aligned) (htyped : s.Typed)
    (harrays : List.Forall₂ (fun (c : Column) (a : EncodedArray) =>
      a.encoding = c.type.encoding ∧ a.cells = c.toList) s.columns arrays) :
    s.ExportedAs arrays := by
  have hsizes : ∀ a ∈ arrays, a.size = s.rows := by
    refine forall_mem_right (fun c a hca => ?_)
      ((List.forall₂_and_left _ _).mpr ⟨haligned.sizes, harrays⟩)
    rw [EncodedArray.size, hca.2.2, Column.length_toList, hca.1]
  have htypes : List.Forall₂ (fun (f : Field) (a : EncodedArray) => a.encoding = f.encoding)
      s.schema.fields arrays := by
    rw [Schema.fields, List.forall₂_map_left_iff]
    exact forall₂_glue (fun c d a hc ha => by rw [ha.1, hc.1]) htyped.flip harrays
  refine ⟨List.forall₂_iff_zip.mpr ⟨htypes.length_eq, fun {f a} hfa => ?_⟩, ?_⟩
  · exact ⟨(List.forall₂_iff_zip.mp htypes).2 hfa, hsizes a (List.of_mem_zip hfa).2⟩
  · rw [← List.forall₂_eq_eq_eq, List.forall₂_map_left_iff, List.forall₂_map_right_iff]
    exact (harrays.imp fun c a h => h.2).flip

/-- The cells of each column leave unless there are too many. -/
theorem Typed.leaves (htyped : s.Typed) :
    ∀ c ∈ s.columns, c.type.Leaves c.toList c.toArray := by
  refine forall_mem_right (fun d c hc => ?_) htyped
  obtain ⟨htype, hcells⟩ := hc
  exact ColumnType.leaves_arrayOf (htype ▸ hcells)

/-- There is a record batch of a snapshot whose arrays can be made. -/
theorem recordBatch_eq_ok (harrays : s.columns.mapM Column.toArray = .ok arrays)
    (hexported : s.ExportedAs arrays) :
    s.recordBatch = .ok ⟨s.rows, s.schema.fields.zip arrays⟩ := by
  obtain ⟨hfields, -⟩ := hexported
  have hwidth : arrays.length = s.schema.width := by
    rw [← hfields.length_eq, Schema.fields, List.length_map, Schema.width]
  have hsizes : ∀ a ∈ arrays, a.size = s.rows := forall_mem_right (fun f a h => h.2) hfields
  rw [recordBatch, harrays, ok_bind, if_pos ⟨hwidth, hsizes⟩]
  rfl

/-- Where there is a record batch there were enough offsets. -/
theorem Typed.hasOffsets {batch : RecordBatch} (htyped : s.Typed)
    (h : s.recordBatch = .ok batch) : s.HasOffsets := by
  obtain ⟨arrays, harrays, -⟩ := bind_eq_ok.mp h
  intro c hc
  obtain ⟨a, -, ha⟩ := exists_of_forall₂ (mapM_eq_ok.mp harrays) hc
  exact (htyped.leaves c hc).fits ha

/-- An aligned snapshot whose cells belong to the types of their columns is exported unless it is
too large. -/
theorem exports (haligned : s.Aligned) (htyped : s.Typed) : s.Exports where
  ok hoffsets := by
    obtain ⟨arrays, hmade, harrays⟩ := exists_mapM_eq_ok fun c hc =>
      (htyped.leaves c hc).ok (hoffsets c hc)
    have hexported := exportedAs haligned htyped (harrays.imp fun c a h => ⟨h.1, h.2.2⟩)
    exact ⟨arrays, recordBatch_eq_ok hmade hexported, hexported⟩
  fails hoffsets := by
    cases hbatch : s.recordBatch with
    | error failure => exact ⟨failure, rfl⟩
    | ok batch => exact absurd (htyped.hasOffsets hbatch) hoffsets
  kept hlib hmade hsame := by
    obtain ⟨arrays, harrays⟩ := exists_forall₂ fun c hc =>
      (hmade c hc).1.exists_array hlib (hmade c hc).2
    refine ⟨arrays, mapM_eq_ok.mpr ?_, exportedAs haligned htyped ?_⟩
    · exact List.forall₂_map_right_iff.mpr (harrays.imp fun c a h => h.1)
    · rw [← hsame, List.forall₂_map_left_iff]
      exact harrays.imp fun c a h => ⟨h.2.1, h.2.2.trans (Cells.toList_ofList ..).symm⟩

end Snapshot

namespace Schema

variable {s : Schema} {columns cells : List (List Cell)} {row : Row} {modified : List KeySet}
  {i k : Nat}

/-- The cells of a row belong to the types of the columns. -/
def Fits (s : Schema) (row : Row) : Prop :=
  List.Forall₂ (fun (d : ColumnDef) x => d.type.encoding.holds x = true) s.columns row

/-- Rows of columns that have cells of their types are rows of such cells. -/
theorem fits_rowAt (h : List.Forall₂ (fun (d : ColumnDef) cells => i < cells.length ∧
    ∀ x ∈ cells, d.type.encoding.holds x = true) s.columns columns) : s.Fits (rowAt columns i) := by
  rw [Fits]
  generalize s.columns = ds at h ⊢
  induction h with
  | nil => exact .nil
  | @cons d cells ds columns hd _ ih =>
    obtain ⟨hi, hcells⟩ := hd
    rw [rowAt, List.filterMap_cons, List.getElem?_eq_getElem hi]
    exact .cons (hcells _ (List.getElem_mem hi)) ih

/-- New cells of the types of the columns leave a row one of such cells. -/
theorem Fits.edit (h : s.Fits row)
    (hcells : List.Forall₂ (fun (d : ColumnDef) new => ∀ x ∈ new, d.type.encoding.holds x = true)
      s.columns cells) : s.Fits (Content.edit k modified cells row) := by
  rw [Fits] at h ⊢
  generalize s.columns = ds at h hcells ⊢
  induction hcells generalizing modified row with
  | nil =>
    obtain rfl := List.forall₂_nil_left_iff.mp h
    cases modified <;> exact .nil
  | @cons d new ds cells hnew _ ih =>
    obtain ⟨x, row, hx, hrow, rfl⟩ := List.forall₂_cons_left_iff.mp h
    cases modified with
    | nil => exact .cons hx hrow
    | cons keys modified =>
      refine .cons ?_ (ih hrow)
      cases hlookup : (keys.toList.zip new).lookup k with
      | none => exact hx
      | some y =>
        obtain ⟨front, back, hsplit, -⟩ := List.lookup_eq_some_iff.mp hlookup
        have hmem : (k, y) ∈ keys.toList.zip new := by
          rw [hsplit]
          exact List.mem_append_right _ (List.mem_cons_self ..)
        exact hnew y (List.of_mem_zip hmem).2

end Schema

/-! ## Contents of cells that belong to their columns -/

namespace Content

variable {s : Schema} {m : Content} {added : KeySet} {rows : List Row}

/-- The cells of all rows belong to the types of the columns. -/
def Fits (s : Schema) (m : Content) : Prop := ∀ e ∈ m, s.Fits e.2

theorem Fits.remove (h : m.Fits s) (keys : KeySet) : (m.remove keys).Fits s :=
  fun e he => h e (List.mem_of_mem_filter he)

theorem Fits.renumber (h : m.Fits s) (moves : List Move) : (m.renumber moves).Fits s := by
  intro e he
  obtain ⟨e', he', rfl⟩ := List.mem_map.mp he
  exact h e' he'

theorem Fits.add (h : m.Fits s) (hrows : ∀ row ∈ rows, s.Fits row) : (m.add added rows).Fits s := by
  intro e he
  rcases List.mem_append.mp ((List.merge_perm_append _).mem_iff.mp he) with he | he
  · exact h e he
  · exact hrows e.2 (List.of_mem_zip he).2

end Content

namespace LiveTable

variable {t t' : LiveTable} {u : Update} {p : Plan} {erased shifted final : KeySpace}
  {moves : List Move} {columns₁ columns₂ columns₃ : List Column} {change : Change}

/-- What belongs to its column in the content of a table does so in a snapshot. -/
theorem Aligned.typed_snapshot (ht : t.Aligned) (hfits : t.content.Fits t.schema) :
    t.snapshot.Typed := by
  refine forall₂_iff_getElem?.mpr ⟨ht.columns.length_eq, fun j d c hd hc => ?_⟩
  refine ⟨((forall₂_iff_getElem?.mp ht.columns).2 j d c hd hc).1, fun x hx => ?_⟩
  -- the cell is in the row at its position, which is bound to a key
  obtain ⟨i, hi⟩ := List.getElem?_of_mem hx
  have hlt : i < t.rows := by
    rw [← ht.sizes c (List.mem_of_getElem? hc), ← Column.length_toList]
    exact (List.getElem?_eq_some_iff.mp hi).1
  have hrow : (rowAt t.cells i)[j]? = some x := by
    rw [ht.getElem?_row hlt hc, hi]
  have hmem : rowAt t.cells i ∈ t.content.map Prod.snd := by
    rw [map_snd_content]
    exact List.mem_map_of_mem (List.mem_range.mpr hlt)
  obtain ⟨e, he, hrow'⟩ := List.mem_map.mp hmem
  rw [← hrow'] at hrow
  exact (forall₂_iff_getElem?.mp (hfits e he)).2 j d x hd hrow

/-- The phases of an update keep cells that belong to their columns, and add only such cells. -/
theorem fits_of_committed (hfits : t.content.Fits t.schema)
    (hr : t.Rehearsed u p erased shifted final)
    (hc : t.Committed u p erased shifted final moves columns₁ columns₂ columns₃) :
    (t.replace shifted columns₁).content.Fits t.schema ∧
      (t.replace final columns₃).content.Fits t.schema := by
  have hshifted : (t.replace shifted columns₁).content.Fits t.schema := by
    rw [hc.renumber, hc.remove]
    exact (hfits.remove u.removed).renumber moves
  obtain ⟨hadded, hsizes⟩ := Schema.addedData_spec hr.addedData
  have hgrown : (t.replace final columns₂).content.Fits t.schema := by
    rw [hc.add]
    refine hshifted.add fun row hrow => ?_
    obtain ⟨i, hi, rfl⟩ := List.mem_map.mp hrow
    refine Schema.fits_rowAt (List.forall₂_map_right_iff.mpr ?_)
    refine List.forall₂_iff_zip.mpr ⟨hadded.cells.length_eq, fun {d k} hdk => ⟨?_, ?_⟩⟩
    · rw [← Chunk.size, hsizes k (List.of_mem_zip hdk).2]
      exact List.mem_range.mp hi
    · exact (List.forall₂_iff_zip.mp hadded.cells).2 hdk
  refine ⟨hshifted, ?_⟩
  rw [hc.modify]
  intro e he
  obtain ⟨e', he', rfl⟩ := List.mem_map.mp he
  rcases Schema.modifiedData_spec hr.modifiedData with ⟨hnone, -⟩ | ⟨hmodified, -⟩
  · rw [hnone]
    exact hgrown e' he'
  · exact (hgrown e' he').edit (List.forall₂_map_right_iff.mpr hmodified.cells)

/-- An accepted update hands out snapshots that are exported unless they are too large, if the cells
of the table belong to their columns. -/
theorem Settled.exports_change (h : t.Settled) (hfits : t.content.Fits t.schema)
    (hu : t.apply u = (.ok change, t')) :
    t'.content.Fits t'.schema ∧ ∀ s ∈ [change.beforeRemoves, change.beforeModifies, change.current],
      s.schema = t.schema ∧ s.Aligned ∧ s.Exports := by
  obtain ⟨p, erased, shifted, final, moves, columns₁, columns₂, columns₃, hr, hc, rfl, rfl⟩ :=
    h.apply_eq_ok hu
  obtain ⟨hshifted, hfinal⟩ := fits_of_committed hfits hr hc
  have hexports : ∀ {t : LiveTable}, t.Aligned → t.content.Fits t.schema →
      t.snapshot.Aligned ∧ t.snapshot.Exports := fun ha hf =>
    ⟨ha.snapshot, Snapshot.exports ha.snapshot (ha.typed_snapshot hf)⟩
  refine ⟨hfinal, ?_⟩
  simp only [List.mem_cons, List.not_mem_nil, or_false, forall_eq_or_imp, forall_eq]
  exact ⟨⟨rfl, hexports h.aligned hfits⟩, ⟨rfl, hexports hc.alignedShifted hshifted⟩, rfl,
    hexports hc.alignedFinal hfinal⟩

/-! ## Sequences of updates -/

/-- The table after updates, of which some may be refused. -/
def applyAll (t : LiveTable) (us : List Update) : LiveTable := us.foldl (fun t u => (t.apply u).2) t

@[simp] theorem applyAll_nil (t : LiveTable) : t.applyAll [] = t := rfl

@[simp] theorem applyAll_cons (t : LiveTable) (u : Update) (us : List Update) :
    t.applyAll (u :: us) = (t.apply u).2.applyAll us := rfl

@[simp] theorem applyAll_append (t : LiveTable) (us vs : List Update) :
    t.applyAll (us ++ vs) = (t.applyAll us).applyAll vs := List.foldl_append

/-- Between updates all cells belong to their columns. -/
theorem Reachable.fits (h : Reachable t) : t.content.Fits t.schema := by
  induction h with
  | new schema config => exact fun e he => absurd (List.of_mem_zip he).1 List.not_mem_nil
  | apply h u ih =>
    rcases h.settled.refused_or_accepted u with ⟨e, happly⟩ | ⟨change, t', happly⟩
    · rwa [happly]
    · rw [happly]
      exact (h.settled.exports_change ih happly).1

/-- No update changes the schema or the settings of a table. -/
theorem Reachable.schema_apply (h : Reachable t) (u : Update) :
    (t.apply u).2.schema = t.schema ∧ (t.apply u).2.config = t.config := by
  rcases h.settled.refused_or_accepted u with ⟨e, happly⟩ | ⟨change, t', happly⟩
  · rw [happly]
    exact ⟨rfl, rfl⟩
  · rw [happly]
    obtain ⟨_, _, _, _, _, _, _, _, -, -, rfl, -⟩ := h.settled.apply_eq_ok happly
    exact ⟨rfl, rfl⟩

/-- Nor does a sequence of updates, and what it leads to is reachable. -/
theorem Reachable.applyAll (h : Reachable t) (us : List Update) :
    Reachable (t.applyAll us) ∧ (t.applyAll us).schema = t.schema ∧
      (t.applyAll us).config = t.config := by
  induction us generalizing t with
  | nil => exact ⟨h, rfl, rfl⟩
  | cons u us ih =>
    obtain ⟨hreachable, hschema, hconfig⟩ := ih (.apply h u)
    obtain ⟨hschema', hconfig'⟩ := h.schema_apply u
    exact ⟨hreachable, hschema.trans hschema', hconfig.trans hconfig'⟩

end LiveTable

end LiveTables
