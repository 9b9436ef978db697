import LiveTables.Proofs.Keys.Renumbering
import LiveTables.Proofs.Update.Data

/-!
# Which updates are well formed

Before an update meets the keys of a table it is checked by itself: its shifts, the shape of its
batches, the types of its arrays, and the number of rows for each column. Here these checks are said
without the code that makes them. A renumbering is `Renumbering.Valid`, rows of added keys are
`Schema.FitsAdded`, cells of modified keys are `Schema.FitsModified`. Data is prepared just if it
fits, so all of it is checked before the first key is touched.

Rows are counted in the arrays as they arrive. A conversion gives a cell for each cell, so they are
counted alike in the chunks that are made of them.
-/

namespace LiveTables

/-! ## Shifts -/

namespace Renumbering

variable {r : Renumbering}

/-- The triples pair up the three sets, as far as all of them go. -/
theorem getElem?_triples {i start last dest : Nat} :
    r.triples[i]? = some (start, last, dest) ↔
      r.starts.toList[i]? = some start ∧ r.lasts.toList[i]? = some last ∧
        r.dests.toList[i]? = some dest := by
  have htake : ∀ (s : KeySet) (n k : Nat),
      (s.take n).toList[i]? = some k ↔ i < n ∧ s.toList[i]? = some k := by
    intro s n k
    rw [KeySet.toList_take, List.getElem?_take]
    split
    · rename_i hi
      exact (and_iff_right hi).symm
    · rename_i hi
      exact iff_of_false (by simp) fun h => hi h.1
  have hlt : ∀ {s : KeySet} {k : Nat}, s.toList[i]? = some k → i < s.size := by
    intro s k hk
    rw [← KeySet.length_toList]
    exact (List.getElem?_eq_some_iff.mp hk).1
  rw [triples, List.getElem?_zip_eq_some, List.getElem?_zip_eq_some, htake, htake, htake]
  refine ⟨?_, ?_⟩
  · rintro ⟨⟨-, hs⟩, ⟨-, hl⟩, -, hd⟩
    exact ⟨hs, hl, hd⟩
  · rintro ⟨hs, hl, hd⟩
    have hn : i < min r.starts.size (min r.lasts.size r.dests.size) :=
      Nat.lt_min.mpr ⟨hlt hs, Nat.lt_min.mpr ⟨hlt hl, hlt hd⟩⟩
    exact ⟨⟨hn, hs⟩, ⟨hn, hl⟩, hn, hd⟩

/-- Three sets describe moves if they have one size, and no move ends before it starts. -/
structure Valid (r : Renumbering) : Prop where
  /-- there is a last source key for each start -/
  lasts : r.lasts.size = r.starts.size
  /-- there is a destination for each start -/
  dests : r.dests.size = r.starts.size
  /-- no move ends before it starts -/
  forward : ∀ (i : Nat) start last, r.starts.toList[i]? = some start →
    r.lasts.toList[i]? = some last → start ≤ last

/-- A renumbering passes its check just if it describes moves. -/
theorem validate_eq_ok_iff : r.validate = .ok () ↔ r.Valid := by
  rw [validate]
  split
  · rename_i hsizes
    refine iff_of_false (by simp) fun h => ?_
    rcases hsizes with hne | hne
    · exact hne h.lasts.symm
    · exact hne h.dests.symm
  · rename_i hsizes
    rw [not_or, not_not, not_not] at hsizes
    obtain ⟨hlasts, hdests⟩ := hsizes
    split
    · rename_i t ht
      obtain ⟨i, hi⟩ := List.getElem?_of_mem (List.mem_of_find?_eq_some ht)
      obtain ⟨hs, hl, -⟩ := getElem?_triples.mp hi
      have hlt := List.find?_some ht
      simp only [decide_eq_true_eq] at hlt
      exact iff_of_false (by simp) fun h => Nat.not_lt.mpr (h.forward i _ _ hs hl) hlt
    · rename_i hnone
      refine iff_of_true rfl ⟨hlasts.symm, hdests.symm, fun i start last hs hl => ?_⟩
      -- there is a destination at the same position, so the pair is in one of the triples
      have hi : i < r.dests.toList.length := by
        rw [KeySet.length_toList, ← hdests, ← KeySet.length_toList]
        exact (List.getElem?_eq_some_iff.mp hs).1
      have htriple := getElem?_triples.mpr ⟨hs, hl, List.getElem?_eq_getElem hi⟩
      have hle := List.find?_eq_none.mp hnone _ (List.mem_of_getElem? htriple)
      simp only [decide_eq_true_eq] at hle
      exact Nat.le_of_not_lt hle

end Renumbering

/-! ## Rows of arrays -/

/-- The number of rows that batches have for column `j`. -/
def Batches.rows (j : Nat) (batches : List Batch) : Nat :=
  (batches.map fun b => (b[j]?.map EncodedArray.size).getD 0).sum

/-- The data of a column has as many rows as the batches have for it. -/
theorem Batches.Hold.length {type : ColumnType} {j : Nat} {batches : List Batch}
    {cells : List Cell} (h : Batches.Hold type j batches cells) :
    cells.length = Batches.rows j batches := by
  obtain ⟨parts, hparts, rfl⟩ := h
  rw [List.length_flatten, Batches.rows]
  congr 1
  induction hparts with
  | nil => rfl
  | cons hpart _ ih =>
    obtain ⟨a, ha, hconvert⟩ := hpart
    rw [List.map_cons, List.map_cons, ih, ha, EncodedArray.length_cellsAs hconvert]
    rfl

namespace Schema

variable {s : Schema} {batches : List Batch} {chunks : List Chunk} {b : Batch} {added : KeySet}
  {modified : List KeySet}

theorem length_dataOf (h : s.Holds batches chunks) : chunks.length = s.width := by
  rw [width, h.types.length_eq]

/-- The chunk of a column is the data that the batches hold for it. -/
theorem Holds.get {j : Nat} {d : ColumnDef} {k : Chunk} (h : s.Holds batches chunks)
    (hd : s.columns[j]? = some d) (hk : chunks[j]? = some k) :
    k.type = d.type ∧ Batches.Hold d.type j batches k.cells := by
  have hcolumn : s.columns.zipIdx[j]? = some (d, j) := by
    rw [List.getElem?_zipIdx, hd, Nat.zero_add]
    rfl
  exact (forall₂_iff_getElem?.mp h).2 j _ _ hcolumn hk

/-- The chunk of a column has as many rows as the batches have for it. -/
theorem Holds.size {j : Nat} {k : Chunk} (h : s.Holds batches chunks) (hk : chunks[j]? = some k) :
    k.size = Batches.rows j batches := by
  have hj : j < s.columns.length := by
    rw [h.types.length_eq]
    exact (List.getElem?_eq_some_iff.mp hk).1
  exact (h.get (List.getElem?_eq_getElem hj) hk).2.length

/-- Each column has a chunk, which is the data that the batches hold for it. -/
theorem Holds.exists_chunk {j : Nat} {d : ColumnDef} (h : s.Holds batches chunks)
    (hd : s.columns[j]? = some d) :
    ∃ k, chunks[j]? = some k ∧ Batches.Hold d.type j batches k.cells := by
  have hj : j < chunks.length := by
    rw [length_dataOf h]
    exact (List.getElem?_eq_some_iff.mp hd).1
  have hk : chunks[j]? = some chunks[j] := List.getElem?_eq_getElem hj
  exact ⟨_, hk, (h.get hd hk).2⟩

/-- A batch can be taken into the columns if it has an array for each, and all of them convert. -/
def Takes (s : Schema) (b : Batch) : Prop :=
  b.length = s.width ∧ ∀ (j : Nat) d a, s.columns[j]? = some d → b[j]? = some a →
    ∃ cells, a.cellsAs d.type = .ok cells

/-- Batches that can be taken are made into data. -/
theorem exists_dataOf (h : ∀ b ∈ batches, s.Takes b) : ∃ chunks, s.dataOf batches = .ok chunks := by
  obtain ⟨chunks, hchunks, -⟩ := exists_mapM_eq_ok (R := fun _ _ => True)
    (f := fun d : ColumnDef × Nat => joined d.1 (batches.filterMap (·[d.2]?)))
    (l := s.columns.zipIdx) fun p hp => by
      have hd : s.columns[p.2]? = some p.1 := List.mem_zipIdx_iff_getElem?.mp hp
      obtain ⟨parts, -, hparts⟩ := exists_mapM_eq_ok
        (f := fun a : EncodedArray => a.cellsAs p.1.type)
        (R := fun a part => a.cellsAs p.1.type = .ok part) (l := batches.filterMap (·[p.2]?))
        fun a ha => by
          obtain ⟨b, hb, hget⟩ := List.mem_filterMap.mp ha
          obtain ⟨cells, hcells⟩ := (h b hb).2 p.2 p.1 a hd hget
          exact ⟨cells, hcells, hcells⟩
      exact ⟨_, joined_eq_ok_iff.mpr ⟨parts, hparts, rfl⟩, trivial⟩
  exact ⟨chunks, hchunks⟩

/-- What was made into data could be taken. -/
theorem Holds.takes (h : s.Holds batches chunks) (hb : b ∈ batches) (hwidth : b.length = s.width) :
    s.Takes b := by
  refine ⟨hwidth, fun j d a hd ha => ?_⟩
  obtain ⟨k, -, parts, hparts, -⟩ := h.exists_chunk hd
  obtain ⟨part, -, a', ha', hconvert⟩ := exists_of_forall₂ hparts hb
  rw [ha] at ha'
  exact ⟨part, Option.some.inj ha' ▸ hconvert⟩

theorem requireEven_eq_ok_iff {i : Nat} :
    requireEven i b = .ok () ↔ ∀ a ∈ b, ∀ a' ∈ b, a.size = a'.size := by
  cases b with
  | nil => exact iff_of_true rfl fun a ha => absurd ha List.not_mem_nil
  | cons first rest =>
    rw [requireEven]
    split
    · rename_i a column hfind
      have hne := List.find?_some hfind
      have hmem := List.mem_of_getElem?
        (List.mem_zipIdx_iff_getElem?.mp (List.mem_of_find?_eq_some hfind))
      simp only [decide_eq_true_eq] at hne
      exact iff_of_false (by simp) fun h => hne (h a hmem first (List.mem_cons_self ..))
    · rename_i hnone
      have hall : ∀ a ∈ first :: rest, a.size = first.size := by
        intro a ha
        obtain ⟨column, hcolumn⟩ := List.getElem?_of_mem ha
        have := List.find?_eq_none.mp hnone (a, column)
          (List.mk_mem_zipIdx_iff_getElem?.mpr hcolumn)
        simpa using this
      exact iff_of_true rfl fun a ha a' ha' => (hall a ha).trans (hall a' ha').symm

/-- Batches have a row for each added key. -/
structure FitsAdded (s : Schema) (added : KeySet) (batches : List Batch) : Prop where
  /-- each batch can be taken into the columns -/
  takes : ∀ b ∈ batches, s.Takes b
  /-- the arrays of a batch have one length -/
  even : ∀ b ∈ batches, ∀ a ∈ b, ∀ a' ∈ b, a.size = a'.size
  /-- each column gets a row for each key -/
  rows : ∀ j < s.width, Batches.rows j batches = added.size

/-- Rows of added keys are prepared just if they fit. -/
theorem exists_addedData_iff :
    (∃ chunks, s.addedData added batches = .ok chunks) ↔ s.FitsAdded added batches := by
  refine ⟨?_, ?_⟩
  · rintro ⟨chunks, h⟩
    obtain ⟨hholds, hsizes⟩ := addedData_spec h
    simp only [addedData, bind_eq_ok, pure_eq_ok] at h
    obtain ⟨⟨⟩, hbatches, -⟩ := h
    rw [forM_zipIdx_eq_ok] at hbatches
    have hcheck : ∀ b ∈ batches, b.length = s.width ∧ ∀ a ∈ b, ∀ a' ∈ b, a.size = a'.size := by
      intro b hb
      obtain ⟨i, hi⟩ := List.getElem?_of_mem hb
      obtain ⟨⟨⟩, hwidth, heven⟩ := bind_eq_ok.mp (hbatches i b hi)
      exact ⟨requireWidth_eq_ok_iff.mp hwidth, requireEven_eq_ok_iff.mp heven⟩
    refine ⟨fun b hb => hholds.takes hb (hcheck b hb).1, fun b hb => (hcheck b hb).2, ?_⟩
    intro j hj
    rw [← length_dataOf hholds] at hj
    have hk : chunks[j]? = some chunks[j] := List.getElem?_eq_getElem hj
    rw [← hholds.size hk, hsizes _ (List.mem_of_getElem? hk)]
  · intro h
    obtain ⟨chunks, hdata⟩ := exists_dataOf h.takes
    have hholds := holds_of_dataOf hdata fun b hb => (h.takes b hb).1
    refine ⟨chunks, ?_⟩
    simp only [addedData, bind_eq_ok, pure_eq_ok]
    refine ⟨(), forM_zipIdx_eq_ok.mpr fun i b hi => ?_, chunks, hdata, (),
      forM_zipIdx_eq_ok.mpr fun j k hk => if_pos ?_, rfl⟩
    · have hb := List.mem_of_getElem? hi
      exact bind_eq_ok.mpr ⟨(), requireWidth_eq_ok_iff.mpr (h.takes b hb).1,
        requireEven_eq_ok_iff.mpr (h.even b hb)⟩
    · rw [hholds.size hk]
      refine h.rows j ?_
      rw [← length_dataOf hholds]
      exact (List.getElem?_eq_some_iff.mp hk).1

/-- Batches have, for each column, a cell for each of its modified keys. -/
structure FitsModified (s : Schema) (modified : List KeySet) (batches : List Batch) : Prop where
  /-- there is a set of keys for each column -/
  sets : modified.length = s.width
  /-- each batch can be taken into the columns -/
  takes : ∀ b ∈ batches, s.Takes b
  /-- each column gets a cell for each of its keys -/
  rows : ∀ (j : Nat) keys, modified[j]? = some keys → Batches.rows j batches = keys.size

/-- Where no keys are modified there must not be any cells. -/
theorem exists_modifiedData_nil : (∃ chunks, s.modifiedData [] batches = .ok chunks) ↔
    ∀ b ∈ batches, ∀ a ∈ b, a.size = 0 := by
  rw [modifiedData, if_pos List.isEmpty_nil]
  split
  · rename_i hcells
    obtain ⟨b, hb, hab⟩ := List.any_eq_true.mp hcells
    obtain ⟨a, ha, hne⟩ := List.any_eq_true.mp hab
    rw [decide_eq_true_eq] at hne
    exact iff_of_false (by simp) fun hnone => hne (hnone b hb a ha)
  · rename_i hcells
    refine iff_of_true ⟨[], rfl⟩ fun b hb a ha => ?_
    by_contra hne
    exact hcells (List.any_eq_true.mpr ⟨b, hb, List.any_eq_true.mpr ⟨a, ha, decide_eq_true hne⟩⟩)

/-- Cells of modified keys that were prepared fit. -/
theorem fitsModified_of_modifiedData (hne : modified ≠ [])
    (h : s.modifiedData modified batches = .ok chunks) : s.FitsModified modified batches := by
  rw [modifiedData, if_neg fun hempty => hne (List.isEmpty_iff.mp hempty)] at h
  split at h
  · cases h
  rename_i hlen
  rw [not_not] at hlen
  simp only [bind_eq_ok, pure_eq_ok] at h
  obtain ⟨⟨⟩, hbatches, chunks, hdata, ⟨⟩, hsizes, -⟩ := h
  rw [forM_zipIdx_eq_ok] at hbatches hsizes
  have hwidth : ∀ b ∈ batches, b.length = s.width := by
    intro b hb
    obtain ⟨i, hi⟩ := List.getElem?_of_mem hb
    exact requireWidth_eq_ok_iff.mp (hbatches i b hi)
  have hholds := holds_of_dataOf hdata hwidth
  refine ⟨hlen, fun b hb => hholds.takes hb (hwidth b hb), fun j keys hkeys => ?_⟩
  have hj : j < chunks.length := by
    rw [length_dataOf hholds, ← hlen]
    exact (List.getElem?_eq_some_iff.mp hkeys).1
  have hk : chunks[j]? = some chunks[j] := List.getElem?_eq_getElem hj
  have hsize := hsizes j (chunks[j], keys) (List.getElem?_zip_eq_some.mpr ⟨hk, hkeys⟩)
  rw [← hholds.size hk]
  split at hsize
  · assumption
  · cases hsize

/-- Cells that fit are prepared. -/
theorem FitsModified.exists_modifiedData (hne : modified ≠ [])
    (h : s.FitsModified modified batches) :
    ∃ chunks, s.modifiedData modified batches = .ok chunks := by
  obtain ⟨chunks, hdata⟩ := exists_dataOf h.takes
  have hholds := holds_of_dataOf hdata fun b hb => (h.takes b hb).1
  refine ⟨chunks, ?_⟩
  rw [modifiedData, if_neg fun hempty => hne (List.isEmpty_iff.mp hempty),
    if_neg (not_not_intro h.sets)]
  simp only [bind_eq_ok, pure_eq_ok]
  refine ⟨(), forM_zipIdx_eq_ok.mpr fun i b hi => ?_, chunks, hdata, (),
    forM_zipIdx_eq_ok.mpr fun j k hk => if_pos ?_, rfl⟩
  · exact requireWidth_eq_ok_iff.mpr (h.takes b (List.mem_of_getElem? hi)).1
  · obtain ⟨hk, hkeys⟩ := List.getElem?_zip_eq_some.mp hk
    rw [hholds.size hk, h.rows j _ hkeys]

/-- Cells of modified keys are prepared just if they fit, or if there are neither keys nor cells. -/
theorem exists_modifiedData_iff :
    (∃ chunks, s.modifiedData modified batches = .ok chunks) ↔
      (modified = [] ∧ ∀ b ∈ batches, ∀ a ∈ b, a.size = 0) ∨ s.FitsModified modified batches := by
  rcases eq_or_ne modified [] with rfl | hne
  · rw [exists_modifiedData_nil]
    refine ⟨fun hnone => .inl ⟨rfl, hnone⟩, ?_⟩
    rintro (⟨-, hnone⟩ | hfits)
    · exact hnone
    · -- without columns a batch has no array that could hold a cell
      intro b hb a ha
      have hwidth := (hfits.takes b hb).1
      rw [← hfits.sets, List.length_nil, List.length_eq_zero_iff] at hwidth
      rw [hwidth] at ha
      exact absurd ha List.not_mem_nil
  · rw [or_iff_right fun h => hne h.1]
    exact ⟨fun ⟨_, h⟩ => fitsModified_of_modifiedData hne h, fun h => h.exists_modifiedData hne⟩

end Schema

end LiveTables
