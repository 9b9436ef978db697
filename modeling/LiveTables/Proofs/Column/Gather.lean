import LiveTables.Proofs.Column.Fill
import LiveTables.Proofs.Keys.Space

/-!
# Gathering cells

A set of rows that a column has can be gathered into any chunk of its type that has room for them.
The cells of the rows, in their order, take the place of the first cells of the chunk, and its other
cells stay (`Column.gather_eq`). Runs are gathered one after another, each behind the cells of the
one before, so a walk over runs writes the same as one copy of all cells
(`Chunk.overwrite_overwrite`).
-/

namespace LiveTables

namespace Chunk

variable {k : Chunk} {i : Nat} {front back : List Cell}

@[simp] theorem overwrite_nil : k.overwrite i [] = k := by
  rw [overwrite, List.append_nil, List.length_nil, Nat.add_zero, List.take_append_drop]

theorem size_overwrite (h : i + front.length ≤ k.size) :
    (k.overwrite i front).size = k.size := by
  rw [size] at h
  rw [overwrite, size, size, List.length_append, List.length_append, List.length_take,
    List.length_drop, Nat.min_eq_left (by omega)]
  omega

/-- Cells can be written in two steps, the second one going on where the first one has ended. -/
theorem overwrite_overwrite (h : i ≤ k.size) :
    (k.overwrite i front).overwrite (i + front.length) back = k.overwrite i (front ++ back) := by
  have hfront : (k.cells.take i ++ front).length = i + front.length := by
    rw [List.length_append, List.length_take, ← size, Nat.min_eq_left h]
  simp only [overwrite, ← hfront, List.take_left, ← List.drop_drop, List.drop_left]
  simp only [List.drop_drop, hfront, List.length_append, Nat.add_assoc, List.append_assoc]

end Chunk

/-- The cells at the positions of a run are a slice. -/
theorem Cells.slice_eq_of_forall₂ {s : Cells} {r : Run} {read : List Cell}
    (h : List.Forall₂ (fun i x => s.toList[i]? = some x) r.keys read) : s.slice r = read := by
  have hlen : r.width = read.length := by
    rw [← h.length_eq, Run.length_keys]
  rw [slice_eq, hlen]
  refine List.ext_getElem? fun j => ?_
  rcases Nat.lt_or_ge j read.length with hj | hj
  · have hkey : r.keys[j]? = some (r.start + j) := by
      rw [Run.keys, List.getElem?_range' (by omega), Nat.one_mul]
    rw [List.getElem?_take_of_lt hj, List.getElem?_drop, List.getElem?_eq_getElem hj]
    exact (forall₂_iff_getElem?.mp h).2 j _ _ hkey (List.getElem?_eq_getElem hj)
  · rw [List.getElem?_take_eq_none hj, List.getElem?_eq_none hj]

namespace Column

variable {c : Column} {dest : Chunk} {rows : KeySet} {rs : List Run} {read : List Cell}
  {limit low i : Nat}

/-- Runs of rows are gathered one behind the other. -/
theorem gatherRuns_eq (hrs : Spaced limit low rs)
    (hread : List.Forall₂ (fun i x => c.toList[i]? = some x) (Runs.toList rs) read)
    (hroom : i + read.length ≤ dest.size) :
    c.gatherRuns rs i dest = (.ok (), dest.overwrite i read) := by
  induction rs generalizing low i dest read with
  | nil =>
    obtain rfl := List.forall₂_nil_left_iff.mp hread
    rw [gatherRuns, Chunk.overwrite_nil]
  | cons r rs ih =>
    obtain ⟨-, hpos, -, hrest⟩ := hrs
    -- the cells that are read fall into those of the first run and those of the others
    obtain ⟨front, back, rfl, hfront, hback⟩ : ∃ front back, read = front ++ back ∧
        List.Forall₂ (fun i x => c.toList[i]? = some x) r.keys front ∧
        List.Forall₂ (fun i x => c.toList[i]? = some x) (Runs.toList rs) back :=
      ⟨_, _, (List.take_append_drop r.keys.length read).symm,
        (List.forall₂_take_append _ _ _ hread.flip).flip,
        (List.forall₂_drop_append _ _ _ hread.flip).flip⟩
    have hwidth : front.length = r.width := by
      rw [← hfront.length_eq, Run.length_keys]
    have hlast : r.stop ≤ c.size := Run.stop_le hpos fun k hk => by
      obtain ⟨x, -, hx⟩ := exists_of_forall₂ hfront hk
      exact lt_size hx
    rw [List.length_append] at hroom
    have hdest : (dest.overwrite i front).size = dest.size := Chunk.size_overwrite (by omega)
    rw [gatherRuns, (requireRun_eq_ok_iff hpos).mpr hlast,
      Cells.slice_eq_of_forall₂ hfront, ← hwidth]
    change c.gatherRuns rs (i + front.length) (dest.overwrite i front) = _
    rw [ih hrest hback (by omega), Chunk.overwrite_overwrite (by omega)]

/-- A column that has the rows of a set has a cell for each of them. -/
theorem exists_reads (hrows : ∀ row ∈ rows.toList, row < c.size) :
    ∃ read, List.Forall₂ (fun row x => c.toList[row]? = some x) rows.toList read :=
  exists_forall₂ fun row hrow =>
    ⟨_, List.getElem?_eq_getElem (by rw [length_toList]; exact hrows row hrow)⟩

/-- The rows of a set are gathered into the front of a chunk that has room for them. -/
theorem gather_eq (hread : List.Forall₂ (fun i x => c.toList[i]? = some x) rows.toList read)
    (htype : dest.type = c.type) (hroom : rows.size ≤ dest.size) :
    c.gather rows dest = (.ok (), dest.overwrite 0 read) := by
  have hlen : read.length = rows.size := by
    rw [← hread.length_eq, KeySet.length_toList]
  have hlast : requireSet c.size rows = .ok () := requireSet_eq_ok_iff.mpr fun row hrow => by
    obtain ⟨x, -, hx⟩ := exists_of_forall₂ hread hrow
    exact lt_size hx
  have hcheck : c.requireGather rows dest = .ok () := by
    rw [requireGather, ColumnType.require_eq_ok_iff.mpr htype.symm, ok_bind,
      requireRoom_eq_ok_iff.mpr hroom, ok_bind, hlast]
  rw [gather, hcheck]
  exact gatherRuns_eq rows.spaced hread (by omega)

end Column

end LiveTables
