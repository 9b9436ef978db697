import LiveTables.Proofs.Column.Gather

/-!
# Writing rows and reading them back

Scattering lays the front of a chunk over chosen rows of a column (`Column.Overlaid`): these rows
get the cells, rows between that the column did not have are null, and the others keep what they
have.
Gathering goes the other way. What was scattered can be gathered again, and a column that gets back
what was gathered from it is the same as before (`Column.scatter_gather_inverse`).

Both walk along the runs of the rows with an offset into the chunk. What carries the proofs is that
either offset counts the rows before, so that cell `i` of the chunk goes with row `i` of the set.
-/

namespace LiveTables

namespace Column

variable {c c' : Column} {k : Chunk} {rows : KeySet} {cells : List Cell}

/-- The column `c'` is `c` with the first cells of a list in the rows of a set. -/
structure Overlaid (c : Column) (rows : KeySet) (cells : List Cell) (c' : Column) : Prop where
  type : c'.type = c.type
  backing : c'.backing = c.backing
  /-- the column has grown if it did not have the greatest row -/
  size : c'.size = match rows.last? with
    | some last => max c.size (last + 1)
    | none => c.size
  /-- the rows have the cells, in their order -/
  written : ∀ (i : Nat) row, rows.toList[i]? = some row → c'.toList[row]? = cells[i]?
  /-- other rows stay -/
  kept : ∀ row < c.size, row ∉ rows.toList → c'.toList[row]? = c.toList[row]?
  /-- other rows that are new are null -/
  padded : ∀ row < c'.size, c.size ≤ row → row ∉ rows.toList → c'.toList[row]? = some .null

/-- A chunk with enough cells is laid over any rows. -/
theorem exists_overlaid (hk : k.type = c.type) (hroom : rows.size ≤ k.size) :
    ∃ c', c.scatter k rows = (.ok (), c') ∧ c.Overlaid rows k.cells c' := by
  obtain ⟨c', hc', htype, hbacking, hsize, hread⟩ := scatter_grown hk hroom
  refine ⟨c', hc', htype, hbacking, ?_, fun i row hi => ?_, fun row hlt hrow => ?_,
    fun row hlt hge hrow => ?_⟩
  · rw [hsize, KeySet.reach]
    cases rows.last? with
    | none => exact Nat.max_zero _
    | some last => rfl
  · have hlt : i < k.cells.length := Nat.lt_of_lt_of_le (KeySet.lt_size hi) hroom
    rw [hread, lookup_zip_of_getElem? rows.nodup hi, List.getElem?_eq_getElem hlt, Option.some_or]
  · rw [hread, lookup_zip_of_not_mem hrow, Option.none_or,
      List.getElem?_append_left (by rwa [length_toList])]
  · have hpad : row - c.size < rows.reach - c.size := by omega
    rw [hread, lookup_zip_of_not_mem hrow, Option.none_or,
      List.getElem?_append_right (by rwa [length_toList]), length_toList,
      List.getElem?_replicate_of_lt hpad]

/-- The cells that were laid over rows are the cells of these rows. -/
theorem Overlaid.reads (h : c.Overlaid rows cells c') (hroom : rows.size ≤ cells.length) :
    List.Forall₂ (fun row x => c'.toList[row]? = some x) rows.toList (cells.take rows.size) := by
  refine forall₂_iff_getElem?.mpr ⟨?_, fun i row x hrow hx => ?_⟩
  · rw [KeySet.length_toList, List.length_take, Nat.min_eq_left hroom]
  · rw [h.written i row hrow, ← hx, List.getElem?_take_of_lt (KeySet.lt_size hrow)]

/-- To lay over rows what they have changes nothing. -/
theorem Overlaid.eq_self (h : c.Overlaid rows cells c') (hrows : ∀ row ∈ rows.toList, row < c.size)
    (hcells : ∀ (i : Nat) row, rows.toList[i]? = some row → cells[i]? = c.toList[row]?) :
    c' = c := by
  have hsize : c'.size = c.size := by
    rw [h.size]
    cases hlast : rows.last? with
    | none => rfl
    | some last =>
      rw [← KeySet.getLast?_toList] at hlast
      exact Nat.max_eq_left (hrows last (List.mem_of_getLast? hlast))
  refine ext_toList h.type h.backing (List.ext_getElem? fun row => ?_)
  by_cases hrow : row ∈ rows.toList
  · obtain ⟨i, hi⟩ := List.getElem?_of_mem hrow
    rw [h.written i row hi, hcells i row hi]
  · rcases Nat.lt_or_ge row c.size with hlt | hge
    · exact h.kept row hlt hrow
    · rw [List.getElem?_eq_none (by rwa [length_toList, hsize]),
        List.getElem?_eq_none (by rwa [length_toList])]

/-- A chunk that has a cell for each row of a set can be scattered to these rows, and is then laid
over them. Whatever chunk the rows are gathered into afterwards gets the same cells in front, and
keeps its others. The other way round, where a column has all of the rows, to gather them into a
chunk and scatter this chunk back leaves the column as it was. -/
theorem scatter_gather_inverse (hk : k.type = c.type) (hroom : rows.size ≤ k.size) :
    (∃ c', c.scatter k rows = (.ok (), c') ∧ c.Overlaid rows k.cells c' ∧
      ∀ dest : Chunk, dest.type = c.type → rows.size ≤ dest.size →
        c'.gather rows dest =
          (.ok (), ⟨dest.type, k.cells.take rows.size ++ dest.cells.drop rows.size⟩)) ∧
    ((∀ row ∈ rows.toList, row < c.size) →
      ∃ k', c.gather rows k = (.ok (), k') ∧ c.scatter k' rows = (.ok (), c)) := by
  refine ⟨?_, fun hrows => ?_⟩
  · obtain ⟨c', hc', hover⟩ := exists_overlaid hk hroom
    refine ⟨c', hc', hover, fun dest hdest hsize => ?_⟩
    have hlen : (k.cells.take rows.size).length = rows.size := by
      rw [List.length_take]
      exact Nat.min_eq_left hroom
    rw [gather_eq (hover.reads hroom) (hdest.trans hover.type.symm) hsize, Chunk.overwrite,
      List.take_zero, List.nil_append, hlen, Nat.zero_add]
  · obtain ⟨read, hread⟩ := exists_reads hrows
    have hlen : read.length = rows.size := by
      rw [← hread.length_eq, KeySet.length_toList]
    refine ⟨_, gather_eq hread hk hroom, ?_⟩
    have hsize : rows.size ≤ (k.overwrite 0 read).size := by
      rwa [Chunk.size_overwrite (by omega)]
    obtain ⟨c', hc', hover⟩ := exists_overlaid (k := k.overwrite 0 read) hk hsize
    rw [hc', hover.eq_self hrows fun i row hrow => ?_]
    have hi : i < read.length := Nat.lt_of_lt_of_eq (KeySet.lt_size hrow) hlen.symm
    have hcell := (forall₂_iff_getElem?.mp hread).2 i row _ hrow (List.getElem?_eq_getElem hi)
    rw [hcell, Chunk.overwrite, List.take_zero, List.nil_append, List.getElem?_append_left hi,
      List.getElem?_eq_getElem hi]

/-- Two rows grow to five when a chunk is scattered to rows 0, 3 and 4. What is gathered from there
are its first three cells. -/
theorem scatter_gather_inverse_of_gap : ∃ (rows : KeySet) (c c' : Column) (k : Chunk),
    rows.toList = [0, 3, 4] ∧ c.toList = [.int 1, .int 2] ∧
    k.cells = [.int 7, .null, .int 9, .int 4] ∧ k.type = c.type ∧ rows.size ≤ k.size ∧
    c.scatter k rows = (.ok (), c') ∧
    c'.toList = [.int 7, .int 2, .null, .null, .int 9] ∧
    c'.gather rows ⟨.int64, [.int 0, .int 0, .int 0, .int 5]⟩ =
      (.ok (), ⟨.int64, [.int 7, .null, .int 9, .int 5]⟩) ∧
    ∃ k', c'.gather rows k = (.ok (), k') ∧ c'.scatter k' rows = (.ok (), c') := by
  let rows : KeySet := ⟨[⟨0, 1⟩, ⟨3, 5⟩], by simp [Spaced, maxKey]⟩
  let c : Column := ⟨.int64, .persistent [.int 1, .int 2]⟩
  let k : Chunk := ⟨.int64, [.int 7, .null, .int 9, .int 4]⟩
  have hk : k.type = c.type := rfl
  have hroom : rows.size ≤ k.size := by decide
  obtain ⟨⟨c', hc', hover, hgather⟩, -⟩ := scatter_gather_inverse hk hroom
  have hrows : ∀ row ∈ rows.toList, row < c'.size := by
    rw [hover.size]
    decide
  have hk' : k.type = c'.type := hover.type.symm
  obtain ⟨-, hback⟩ := scatter_gather_inverse hk' hroom
  obtain rfl : (c.scatter k rows).2 = c' := congrArg Prod.snd hc'
  exact ⟨rows, c, _, k, rfl, rfl, rfl, rfl, hroom, hc', rfl, hgather _ rfl (by decide),
    hback hrows⟩

end Column

end LiveTables
