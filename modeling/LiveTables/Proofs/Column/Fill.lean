import LiveTables.Proofs.Column.Splice
import LiveTables.Proofs.Keys.Runs
import LiveTables.Proofs.Lookup
import LiveTables.Column.Fill

/-!
# Scattering cells

A chunk that is scattered to a set of rows binds its cells to these rows, the first cell to the
least row. Afterwards a row has the cell bound to it, and any other row is as it was, or null if the
column had to grow to have it (`Column.scatter_grown`). If the column has all of the rows, its size
does not change (`Column.scatter_spec`).
-/

namespace LiveTables

/-! ## How far a set of rows reaches -/

namespace KeySet

variable {rows : KeySet} {row n : Nat}

/-- How many rows a column needs so that it has those of a set. -/
def reach (rows : KeySet) : Nat := (rows.last?.map (· + 1)).getD 0

theorem getLast?_toList (rows : KeySet) : rows.toList.getLast? = rows.last? :=
  rows.spaced.getLast?_toList

theorem reach_eq {last : Nat} (h : rows.last? = some last) : rows.reach = last + 1 := by
  rw [reach, h]
  rfl

theorem lt_reach (h : row ∈ rows.toList) : row < rows.reach := by
  have hlast := List.getLast?_eq_some_getLast (List.ne_nil_of_mem h)
  have hle := le_of_getLast? rows.spaced.ascending hlast h
  rw [reach, ← getLast?_toList, hlast]
  exact Nat.lt_succ_of_le hle

theorem reach_le (h : ∀ row ∈ rows.toList, row < n) : rows.reach ≤ n := by
  rw [reach, ← getLast?_toList]
  cases hlast : rows.toList.getLast? with
  | none => exact Nat.zero_le n
  | some last => exact h last (List.mem_of_getLast? hlast)

end KeySet

/-! ## Scattering -/

namespace Column

variable {c : Column} {k : Chunk} {rows : KeySet} {rs : List Run} {source : List Cell}
  {limit low : Nat}

theorem requireRoom_eq_ok_iff {required available : Nat} :
    requireRoom required available = .ok () ↔ required ≤ available := by
  rw [requireRoom]
  split
  · exact iff_of_false (by simp) (by omega)
  · exact iff_of_true rfl (by omega)

theorem requireRow_eq_ok_iff {size row : Nat} : requireRow size row = .ok () ↔ row < size := by
  rw [requireRow]
  split
  · exact iff_of_false (by simp) (by omega)
  · exact iff_of_true rfl (by omega)

/-- A column has all rows of a set if it has the greatest. -/
theorem requireSet_eq_ok_iff {size : Nat} :
    requireSet size rows = .ok () ↔ ∀ row ∈ rows.toList, row < size := by
  rw [requireSet]
  cases hlast : rows.last? with
  | none =>
    rw [← KeySet.getLast?_toList, List.getLast?_eq_none_iff] at hlast
    rw [hlast]
    exact iff_of_true rfl (by simp)
  | some last =>
    have hreach := KeySet.reach_eq hlast
    rw [← KeySet.getLast?_toList] at hlast
    refine requireRow_eq_ok_iff.trans ⟨fun h row hrow => ?_, fun h => ?_⟩
    · have := KeySet.lt_reach hrow
      omega
    · exact h last (List.mem_of_getLast? hlast)

theorem requireRun_eq_ok_iff {size : Nat} {r : Run} (hr : r.start < r.stop) :
    requireRun size r = .ok () ↔ r.stop ≤ size := by
  rw [requireRun, bind_eq_ok, Run.last]
  constructor
  · rintro ⟨⟨⟩, -, hlast⟩
    rw [requireRow_eq_ok_iff] at hlast
    omega
  · intro h
    exact ⟨(), requireRow_eq_ok_iff.mpr (by omega), requireRow_eq_ok_iff.mpr (by omega)⟩

/-- The cells of a run of rows, after others were put in their place. -/
theorem getElem?_overwrite {r : Run} {cells piece : List Cell} (hr : r.start < r.stop)
    (hstop : r.stop ≤ cells.length) (hpiece : piece.length = r.width) (i : Nat) :
    (cells.take r.start ++ piece ++ cells.drop (r.start + piece.length))[i]? =
      ((r.keys.zip piece).lookup i).or cells[i]? := by
  have hstart : (cells.take r.start).length = r.start := by
    rw [List.length_take]
    omega
  have hwidth : r.start + piece.length = r.stop := by
    rw [hpiece, Run.width]
    omega
  rw [hwidth]
  -- a row of the run has a new cell, and a row before or after it keeps its own
  by_cases hin : r.start ≤ i ∧ i < r.stop
  · obtain ⟨j, rfl⟩ : ∃ j, i = r.start + j := ⟨i - r.start, by omega⟩
    have hj : j < piece.length := by omega
    have hkey : r.keys[j]? = some (r.start + j) := by
      rw [Run.keys, List.getElem?_range' (by omega), Nat.one_mul]
    have hkeys : r.keys.Nodup := List.nodup_range'
    rw [lookup_zip_of_getElem? hkeys hkey,
      List.getElem?_append_left (by rw [List.length_append]; omega),
      List.getElem?_append_right (by omega), hstart, Nat.add_sub_cancel_left,
      List.getElem?_eq_getElem hj, Option.some_or]
  · rw [lookup_zip_of_not_mem (by rwa [Run.mem_keys]), Option.none_or]
    rcases Nat.lt_or_ge i r.start with hlt | hge
    · rw [List.append_assoc, List.getElem?_append_left (by omega), List.getElem?_take_of_lt hlt]
    · rw [List.getElem?_append_right (by rw [List.length_append]; omega), List.getElem?_drop,
        List.length_append, hstart, hwidth]
      congr 1
      omega

/-- Cells can be scattered to runs of rows that the column has, if there are enough cells. -/
theorem scatterRuns_spec (h : Spaced limit low rs) (hrows : ∀ i ∈ Runs.toList rs, i < c.size)
    (hsource : Runs.size rs ≤ source.length) : ∃ c', scatterRuns rs source c = (.ok (), c') ∧
      c'.type = c.type ∧ c'.backing = c.backing ∧ c'.size = c.size ∧
      ∀ i, c'.toList[i]? = (((Runs.toList rs).zip source).lookup i).or c.toList[i]? := by
  induction rs generalizing low source c with
  | nil => exact ⟨c, rfl, rfl, rfl, rfl, fun i => rfl⟩
  | cons r rs ih =>
    have hstop : r.stop ≤ c.size := h.stop_le_of_keys hrows
    obtain ⟨-, hr, -, hspaced⟩ := h
    rw [Runs.size] at hsource
    let piece := source.take r.width
    have hpiece : piece.length = r.width := by
      rw [List.length_take]
      omega
    let d : Column := { c with cells := c.cells.overwrite r.start piece }
    have hcells : d.toList = c.toList.take r.start ++ piece ++
        c.toList.drop (r.start + piece.length) := c.cells.toList_overwrite r.start piece
    have hd : ∀ i, d.toList[i]? = ((r.keys.zip piece).lookup i).or c.toList[i]? := by
      rw [hcells]
      exact getElem?_overwrite hr (by rwa [length_toList]) hpiece
    have hsize : d.size = c.size := c.cells.size_overwrite (by
      rw [hpiece, Run.width]
      exact Nat.le_trans (by omega) hstop)
    have hrows' : ∀ i ∈ Runs.toList rs, i < d.size := fun i hi => by
      rw [hsize]
      exact hrows i (List.mem_append_right _ hi)
    have hsource' : Runs.size rs ≤ (source.drop r.width).length := by
      rw [List.length_drop]
      omega
    obtain ⟨c', hc', htype, hbacking, hsize', hread⟩ := ih hspaced hrows' hsource'
    refine ⟨c', ?_, htype, ?_, hsize'.trans hsize, fun i => ?_⟩
    · rw [scatterRuns, (requireRun_eq_ok_iff hr).mpr hstop]
      exact hc'
    · rw [hbacking]
      exact c.cells.backing_overwrite _ _
    · rw [hread, hd, Runs.toList_cons, zip_append_left, List.lookup_append, Run.length_keys,
        Option.or_assoc]
      -- no later run has a row of this one, so what is written now stays
      by_cases hi : i ∈ r.keys
      · have hout : i ∉ Runs.toList rs := fun hmem => by
          have := (hspaced.bounds hmem).1
          rw [Run.mem_keys] at hi
          omega
        rw [lookup_zip_of_not_mem hout, Option.none_or, Option.none_or]
      · rw [lookup_zip_of_not_mem hi, Option.none_or, Option.none_or]

/-- A column grows by nulls. -/
theorem toList_growFor (c : Column) (last : Nat) :
    (c.growFor last).toList = c.toList ++ List.replicate (last + 1 - c.size) .null :=
  c.cells.toList_growTo (last + 1)

theorem size_growFor (c : Column) (last : Nat) : (c.growFor last).size = max c.size (last + 1) := by
  rw [← length_toList, toList_growFor, List.length_append, List.length_replicate, length_toList]
  omega

/-- A chunk of the right type can be scattered to any rows, if it has a cell for each of them. The
column first grows with nulls until it has all of the rows. -/
theorem scatter_grown (hk : k.type = c.type) (hsize : rows.size ≤ k.size) :
    ∃ c', c.scatter k rows = (.ok (), c') ∧ c'.type = c.type ∧ c'.backing = c.backing ∧
      c'.size = max c.size rows.reach ∧ ∀ i, c'.toList[i]? =
        ((rows.toList.zip k.cells).lookup i).or
          (c.toList ++ List.replicate (rows.reach - c.size) .null)[i]? := by
  have hcheck : c.requireScatter k rows = .ok rows.last? := by
    rw [requireScatter, ColumnType.require_eq_ok_iff.mpr hk.symm, ok_bind,
      requireRoom_eq_ok_iff.mpr hsize, ok_bind]
    rfl
  rw [scatter, hcheck]
  cases hlast : rows.last? with
  | none =>
    have hempty : rows.toList = [] := by
      rw [← List.getLast?_eq_none_iff, KeySet.getLast?_toList, hlast]
    have hreach : rows.reach = 0 := by rw [KeySet.reach, hlast]; rfl
    refine ⟨c, rfl, rfl, rfl, by omega, fun i => ?_⟩
    rw [hempty, hreach, Nat.zero_sub, List.replicate_zero, List.append_nil]
    rfl
  | some last =>
    have hreach := KeySet.reach_eq hlast
    have hgrown : (c.growFor last).size = max c.size rows.reach := by
      rw [size_growFor, hreach]
    have hrows : ∀ i ∈ rows.toList, i < (c.growFor last).size := fun i hi => by
      have := KeySet.lt_reach hi
      omega
    obtain ⟨c', hc', htype, hbacking, hsize', hread⟩ :=
      scatterRuns_spec rows.spaced hrows (rows.size_eq ▸ hsize)
    refine ⟨c', hc', htype, ?_, hsize'.trans hgrown, fun i => ?_⟩
    · rw [hbacking]
      exact c.cells.backing_growTo _
    · rw [hread, toList_growFor, hreach]
      rfl

/-- A chunk of the right type can be scattered to rows that the column has, if it has a cell for
each of them. -/
theorem scatter_spec (hk : k.type = c.type) (hsize : rows.size ≤ k.size)
    (hrows : ∀ i ∈ rows.toList, i < c.size) : ∃ c', c.scatter k rows = (.ok (), c') ∧
      c'.type = c.type ∧ c'.backing = c.backing ∧ c'.size = c.size ∧
      ∀ i, c'.toList[i]? = ((rows.toList.zip k.cells).lookup i).or c.toList[i]? := by
  have hreach : rows.reach ≤ c.size := KeySet.reach_le hrows
  obtain ⟨c', hc', htype, hbacking, hsize', hread⟩ := scatter_grown hk hsize
  refine ⟨c', hc', htype, hbacking, by omega, fun i => ?_⟩
  rw [hread, Nat.sub_eq_zero_of_le hreach, List.replicate_zero, List.append_nil]

end Column

end LiveTables
