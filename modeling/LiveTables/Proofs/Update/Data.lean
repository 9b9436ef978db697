import LiveTables.Proofs.Column.Converting
import LiveTables.Update.Data

/-!
# The data of an update

For each column the batches of an update have one array each. Converted to the type of the column
and put one after the other these arrays are the data of the column (`Schema.Holds`). What has
passed the checks is of this kind, and there is a cell for each key that the data is meant for.
-/

namespace LiveTables

/-- The batches hold these cells for column `j`: those of the `j`-th array of each, converted, one
batch after the other. -/
def Batches.Hold (type : ColumnType) (j : Nat) (batches : List Batch) (cells : List Cell) : Prop :=
  ∃ parts, List.Forall₂ (fun b part => ∃ a, b[j]? = some a ∧ a.cellsAs type = .ok part)
    batches parts ∧ cells = parts.flatten

namespace Schema

variable {s : Schema} {d : ColumnDef} {a : EncodedArray} {arrays : List EncodedArray} {k : Chunk}
  {chunks : List Chunk} {batches : List Batch}

/-- The chunks are the data that the batches hold, one for each column and of its type. -/
def Holds (s : Schema) (batches : List Batch) (chunks : List Chunk) : Prop :=
  List.Forall₂ (fun d k => k.type = d.1.type ∧ Batches.Hold d.1.type d.2 batches k.cells)
    s.columns.zipIdx chunks

/-- The chunks have the types of the columns. -/
theorem Holds.types (h : s.Holds batches chunks) :
    List.Forall₂ (fun (d : ColumnDef) k => k.type = d.type) s.columns chunks := by
  have h' : List.Forall₂ (fun (d : ColumnDef) k => k.type = d.type)
      (s.columns.zipIdx.map Prod.fst) chunks :=
    List.forall₂_map_left_iff.mpr (h.imp fun _ _ hk => hk.1)
  rwa [List.zipIdx_map_fst] at h'

/-- The chunks have cells that the canonical encodings of the columns can hold. -/
theorem Holds.cells (h : s.Holds batches chunks) :
    List.Forall₂ (fun (d : ColumnDef) k => ∀ x ∈ k.cells, d.type.encoding.holds x = true)
      s.columns chunks := by
  have h' : List.Forall₂ (fun (d : ColumnDef) k => ∀ x ∈ k.cells, d.type.encoding.holds x = true)
      (s.columns.zipIdx.map Prod.fst) chunks := by
    refine List.forall₂_map_left_iff.mpr (h.imp fun d k hk => ?_)
    obtain ⟨-, parts, hparts, hcells⟩ := hk
    intro x hx
    rw [hcells] at hx
    obtain ⟨part, hpart, hx⟩ := List.mem_flatten.mp hx
    have hall : ∀ part ∈ parts, ∀ x ∈ part, d.1.type.encoding.holds x = true :=
      forall_mem_right (fun _ _ ⟨a, _, ha⟩ => a.holds_of_cellsAs ha) hparts
    exact hall part hpart x hx
  rwa [List.zipIdx_map_fst] at h'

theorem cellsFor_eq_ok_iff :
    cellsFor d a = .ok k ↔ ∃ cells, a.cellsAs d.type = .ok cells ∧ k = ⟨d.type, cells⟩ := by
  rw [cellsFor, Chunk.ofArrayAs]
  cases hcells : a.cellsAs d.type with
  | ok cells => simp [eq_comm]
  | error e => cases e <;> simp

/-- Arrays are joined by converting each of them. -/
theorem joined_eq_ok_iff : joined d arrays = .ok k ↔
    ∃ parts, List.Forall₂ (fun a part => a.cellsAs d.type = .ok part) arrays parts ∧
      k = ⟨d.type, parts.flatten⟩ := by
  -- the walk adds to a chunk of the type of the column, whatever its cells are
  have hwalk : ∀ start : List Cell,
      arrays.foldlM (fun (k : Chunk) a => do k.append (← cellsFor d a)) ⟨d.type, start⟩ = .ok k ↔
        ∃ parts, List.Forall₂ (fun a part => a.cellsAs d.type = .ok part) arrays parts ∧
          k = ⟨d.type, start ++ parts.flatten⟩ := by
    induction arrays with
    | nil =>
      intro start
      simp [eq_comm (a := k)]
    | cons a arrays ih =>
      intro start
      simp only [List.foldlM_cons, bind_eq_ok, cellsFor_eq_ok_iff]
      refine ⟨?_, ?_⟩
      · rintro ⟨_, ⟨_, ⟨part, hpart, rfl⟩, happend⟩, hrest⟩
        rw [Chunk.append_eq_ok (by rfl)] at happend
        obtain rfl := Except.ok.inj happend
        obtain ⟨parts, hparts, rfl⟩ := (ih _).mp hrest
        exact ⟨part :: parts, .cons hpart hparts, by simp⟩
      · rintro ⟨_, hall, rfl⟩
        obtain ⟨part, parts, hpart, hparts, rfl⟩ := List.forall₂_cons_left_iff.mp hall
        exact ⟨_, ⟨_, ⟨part, hpart, rfl⟩, Chunk.append_eq_ok rfl⟩,
          (ih _).mpr ⟨parts, hparts, by simp⟩⟩
  exact hwalk []

/-- What is made of batches that have an array for each column. -/
theorem holds_of_dataOf (h : s.dataOf batches = .ok chunks)
    (hwidth : ∀ b ∈ batches, b.length = s.width) : s.Holds batches chunks := by
  rw [dataOf, mapM_eq_ok] at h
  have hindex : ∀ p ∈ s.columns.zipIdx, p.2 < s.width := fun p hp =>
    (List.getElem?_eq_some_iff.mp (List.mk_mem_zipIdx_iff_getElem?.mp hp)).1
  refine ((List.forall₂_and_left _ _).mpr ⟨hindex, h⟩).imp fun p k hpk => ?_
  obtain ⟨hp, hk⟩ := hpk
  obtain ⟨parts, hparts, rfl⟩ := joined_eq_ok_iff.mp hk
  refine ⟨rfl, parts, ?_, rfl⟩
  -- each batch has an array for the column, so none is passed over
  clear h hk
  induction batches generalizing parts with
  | nil => exact List.forall₂_nil_left_iff.mpr (List.forall₂_nil_left_iff.mp hparts)
  | cons b batches ih =>
    obtain ⟨hb, hbatches⟩ := List.forall_mem_cons.mp hwidth
    have hp' : p.2 < b.length := by rwa [hb]
    have hget : b[p.2]? = some b[p.2] := List.getElem?_eq_getElem hp'
    rw [List.filterMap_cons, hget] at hparts
    obtain ⟨part, parts, hpart, hrest, rfl⟩ := List.forall₂_cons_left_iff.mp hparts
    exact .cons ⟨_, hget, hpart⟩ (ih hbatches _ hrest)

theorem requireWidth_eq_ok_iff {kind : BatchKind} {i : Nat} {b : Batch} :
    s.requireWidth kind i b = .ok () ↔ b.length = s.width := by
  rw [requireWidth]
  split
  · exact iff_of_true rfl ‹_›
  · exact iff_of_false (by simp) ‹_›

/-- Rows of added keys are what the batches hold, and there is one for each key. -/
theorem addedData_spec {added : KeySet} (h : s.addedData added batches = .ok chunks) :
    s.Holds batches chunks ∧ ∀ k ∈ chunks, k.size = added.size := by
  simp only [addedData, bind_eq_ok, pure_eq_ok] at h
  obtain ⟨⟨⟩, hbatches, _, hdata, ⟨⟩, hsizes, rfl⟩ := h
  rw [forM_zipIdx_eq_ok] at hbatches hsizes
  refine ⟨holds_of_dataOf hdata fun b hb => ?_, fun k hk => ?_⟩
  · obtain ⟨i, hi⟩ := List.getElem?_of_mem hb
    obtain ⟨⟨⟩, hwidth, -⟩ := bind_eq_ok.mp (hbatches i b hi)
    exact requireWidth_eq_ok_iff.mp hwidth
  · obtain ⟨i, hi⟩ := List.getElem?_of_mem hk
    have hsize := hsizes i k hi
    split at hsize
    · assumption
    · cases hsize

/-- New cells of modified keys are what the batches hold, and there is one for each key of a
column. Without modified keys there are none. -/
theorem modifiedData_spec {modified : List KeySet}
    (h : s.modifiedData modified batches = .ok chunks) :
    modified = [] ∧ chunks = [] ∨ s.Holds batches chunks ∧
      List.Forall₂ (fun k (keys : KeySet) => k.size = keys.size) chunks modified := by
  rw [modifiedData] at h
  split at h
  · rename_i hempty
    split at h
    · cases h
    · exact .inl ⟨List.isEmpty_iff.mp hempty, (Except.ok.inj h).symm⟩
  · split at h
    · cases h
    · rename_i hlen
      simp only [bind_eq_ok, pure_eq_ok] at h
      obtain ⟨⟨⟩, hbatches, _, hdata, ⟨⟩, hsizes, rfl⟩ := h
      rw [forM_zipIdx_eq_ok] at hbatches hsizes
      have hholds := holds_of_dataOf hdata fun b hb => by
        obtain ⟨i, hi⟩ := List.getElem?_of_mem hb
        exact requireWidth_eq_ok_iff.mp (hbatches i b hi)
      refine .inr ⟨hholds, List.forall₂_iff_zip.mpr ⟨?_, fun {k keys} hk => ?_⟩⟩
      · rw [← hholds.types.length_eq]
        exact (Decidable.not_not.mp hlen).symm
      · obtain ⟨i, hi⟩ := List.getElem?_of_mem hk
        have hsize := hsizes i (k, keys) hi
        split at hsize
        · assumption
        · cases hsize

end Schema

end LiveTables
