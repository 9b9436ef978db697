import LiveTables.Proofs.Column.Gather

/-!
# Run by run and row by row

A set of rows is copied run by run, and a list of rows one by one. Of a set it is checked in advance
that the column has its greatest row, of a list that it has each row. Where the list is that of the
set, both come to the same (`Column.copies_agree`): they succeed on the same columns and chunks,
leave the same behind, and fail for the same kind of reason.

There is one difference. Where some rows lie past the end of the column, the copy of the set reports
the greatest of them and the copy of the list the first.
-/

namespace LiveTables

/-! ## Outcomes of one kind -/

/-- Errors of one kind, whatever numbers and names they carry. -/
def Error.SameKind (e e' : Error) : Prop := e.ctorIdx = e'.ctorIdx

/-- Outcomes that are both good or both bad, and bad for one kind of reason. -/
inductive Alike {α : Type} : Except Error α → Except Error α → Prop
  | ok (a : α) : Alike (.ok a) (.ok a)
  | error {e e' : Error} (h : e.SameKind e') : Alike (.error e) (.error e')

theorem Alike.refl {α : Type} (x : Except Error α) : Alike x x := by
  cases x with
  | ok a => exact .ok a
  | error e => exact .error rfl

/-! ## The greatest row -/

/-- The greatest key of a set is the greatest member of its list. -/
theorem KeySet.max?_toList (rows : KeySet) : rows.toList.max? = rows.last? := by
  rw [← getLast?_toList]
  cases hlast : rows.toList.getLast? with
  | none => rw [List.getLast?_eq_none_iff.mp hlast, List.max?_nil]
  | some last =>
    exact List.max?_eq_some_iff.mpr
      ⟨List.mem_of_getLast? hlast, fun row hrow => le_of_getLast? rows.ascending hlast hrow⟩

namespace Column

variable {c : Column} {k dest : Chunk} {rows : KeySet} {list : List Nat} {source read : List Cell}

/-! ## Scattering -/

/-- Every row of a set can be addressed, so the same is asked of a set and of its list. -/
theorem requireScatterEach_toList :
    c.requireScatterEach k rows.toList = c.requireScatter k rows := by
  have haddressable : rows.last?.forM requireAddressable = .ok () := by
    rw [← KeySet.getLast?_toList]
    cases hlast : rows.toList.getLast? with
    | none => rfl
    | some last =>
      have hlt := KeySet.lt_maxKey (List.mem_of_getLast? hlast)
      exact if_neg (Nat.not_le_of_lt hlt)
  rw [requireScatterEach, requireScatter, KeySet.length_toList, KeySet.max?_toList, haddressable]
  rfl

/-- Cells can be scattered to distinct rows of a column, if there are enough. -/
theorem scatterRows_spec (hnodup : list.Nodup) (hrows : ∀ row ∈ list, row < c.size)
    (hsource : list.length ≤ source.length) : ∃ c', scatterRows list source c = (.ok (), c') ∧
      c'.type = c.type ∧ c'.backing = c.backing ∧ c'.size = c.size ∧
      ∀ i, c'.toList[i]? = ((list.zip source).lookup i).or c.toList[i]? := by
  induction list generalizing source c with
  | nil => exact ⟨c, rfl, rfl, rfl, rfl, fun i => rfl⟩
  | cons row list ih =>
    obtain ⟨hrow, hnodup⟩ := List.nodup_cons.mp hnodup
    obtain ⟨hlt, hrows⟩ := List.forall_mem_cons.mp hrows
    cases source with
    | nil => exact absurd hsource (Nat.not_succ_le_zero _)
    | cons x source =>
      let d : Column := { c with cells := c.cells.set row x }
      have hcells : d.toList = c.toList.set row x := c.cells.toList_set row x
      have hsize : d.size = c.size := c.cells.size_set row x
      obtain ⟨c', hc', htype, hbacking, hsize', hread⟩ := ih (c := d) hnodup
        (fun i hi => by rw [hsize]; exact hrows i hi) (Nat.le_of_succ_le_succ hsource)
      refine ⟨c', ?_, htype, ?_, hsize'.trans hsize, fun i => ?_⟩
      · rw [scatterRows, requireRow_eq_ok_iff.mpr hlt]
        exact hc'
      · rw [hbacking]
        exact c.cells.backing_set row x
      · rw [hread, hcells, List.zip_cons_cons, List.lookup_cons]
        by_cases hi : i = row
        · -- no later row is this one, so what is written now stays
          have hlt' : row < c.toList.length := by rwa [length_toList]
          rw [hi, lookup_zip_of_not_mem hrow, beq_self_eq_true, List.getElem?_set_self hlt',
            Option.none_or, Option.some_or]
        · rw [beq_false_of_ne hi, List.getElem?_set_ne (Ne.symm hi)]

/-- Where a column has the rows, it is the same to scatter to their runs and to each of them. -/
theorem scatterRuns_eq_scatterRows (hrows : ∀ row ∈ rows.toList, row < c.size)
    (hsource : rows.size ≤ source.length) :
    scatterRuns rows.runs source c = scatterRows rows.toList source c := by
  obtain ⟨c', hc', htype, hbacking, -, hread⟩ :=
    scatterRuns_spec rows.spaced hrows (rows.size_eq ▸ hsource)
  have hsource' : rows.toList.length ≤ source.length := by rwa [KeySet.length_toList]
  obtain ⟨d, hd, htype', hbacking', -, hread'⟩ :=
    scatterRows_spec rows.nodup hrows hsource'
  rw [hc', hd, ext_toList (htype.trans htype'.symm) (hbacking.trans hbacking'.symm)
    (List.ext_getElem? fun i => (hread i).trans (hread' i).symm)]

/-- It is the same to scatter a chunk to a set of rows and to the list of these rows. -/
theorem scatter_eq_scatterEach : c.scatter k rows = c.scatterEach k rows.toList := by
  rw [scatter, scatterEach, requireScatterEach_toList]
  cases hcheck : c.requireScatter k rows with
  | error e => rfl
  | ok greatest =>
    simp only [requireScatter, bind_eq_ok, pure_eq_ok] at hcheck
    obtain ⟨⟨⟩, -, ⟨⟩, hroom, rfl⟩ := hcheck
    cases hlast : rows.last? with
    | none => rfl
    | some last =>
      refine scatterRuns_eq_scatterRows (fun row hrow => ?_) (requireRoom_eq_ok_iff.mp hroom)
      have hreach := KeySet.reach_eq hlast
      have hlt := KeySet.lt_reach hrow
      rw [size_growFor]
      omega

/-! ## Gathering -/

theorem cellAt_eq_ok_iff {row : Nat} {x : Cell} :
    c.cellAt row = .ok x ↔ c.toList[row]? = some x := by
  rw [cellAt, Cells.get?_eq, ← toList]
  cases c.toList[row]? <;> simp

/-- The rows of a list are gathered into the front of a chunk that has room for them. -/
theorem gatherEach_eq (hread : List.Forall₂ (fun row x => c.toList[row]? = some x) list read)
    (htype : dest.type = c.type) (hroom : list.length ≤ dest.size) :
    c.gatherEach list dest = (.ok (), dest.overwrite 0 read) := by
  have hcells : c.cellsFor list dest = .ok read := by
    rw [cellsFor, ColumnType.require_eq_ok_iff.mpr htype.symm, ok_bind,
      requireRoom_eq_ok_iff.mpr hroom, ok_bind]
    exact mapM_eq_ok.mpr (hread.imp fun _ _ => cellAt_eq_ok_iff.mpr)
  rw [gatherEach, hcells]

/-- If a set has rows past the end of a column, the last of them is missed. -/
theorem requireSet_eq_error {row : Nat} (hrow : row ∈ rows.toList) (hmissing : c.size ≤ row) :
    ∃ last, requireSet c.size rows = .error (.indexOutOfRange last c.size) := by
  have hlast := List.getLast?_eq_some_getLast (List.ne_nil_of_mem hrow)
  have hle := le_of_getLast? rows.ascending hlast hrow
  rw [KeySet.getLast?_toList] at hlast
  rw [requireSet, hlast]
  exact ⟨_, if_pos (Nat.le_trans hmissing hle)⟩

/-- If a list has rows past the end of a column, the first of them is missed. -/
theorem mapM_cellAt_eq_error {row : Nat} (hrow : row ∈ list) (hmissing : c.size ≤ row) :
    ∃ first, list.mapM c.cellAt = .error (.indexOutOfRange first c.size) := by
  cases hread : list.mapM c.cellAt with
  | ok read =>
    obtain ⟨x, -, hx⟩ := exists_of_forall₂ (mapM_eq_ok.mp hread) hrow
    exact absurd (lt_size (cellAt_eq_ok_iff.mp hx)) (Nat.not_lt_of_le hmissing)
  | error e =>
    obtain ⟨i, first, -, herror, -⟩ := mapM_eq_error hread
    rw [cellAt] at herror
    split at herror
    · cases herror
    · exact ⟨first, congrArg Except.error (Except.error.inj herror).symm⟩

/-- It comes to the same to gather a set of rows and the list of these rows, but for which of the
missing rows is reported. -/
theorem gather_alike_gatherEach :
    (c.gather rows dest).2 = (c.gatherEach rows.toList dest).2 ∧
      Alike (c.gather rows dest).1 (c.gatherEach rows.toList dest).1 := by
  -- both ask for the type and for room first, in this order
  let asked := c.type.require dest.type >>= fun _ => requireRoom rows.size dest.size
  have hset : c.requireGather rows dest = asked >>= fun _ => requireSet c.size rows :=
    (bind_assoc ..).symm
  have hlist : c.cellsFor rows.toList dest = asked >>= fun _ => rows.toList.mapM c.cellAt := by
    rw [cellsFor, KeySet.length_toList]
    exact (bind_assoc ..).symm
  cases hasked : asked with
  | error e =>
    rw [gather, gatherEach, hset, hlist, hasked]
    exact ⟨rfl, .refl _⟩
  | ok granted =>
    by_cases hrows : ∀ row ∈ rows.toList, row < c.size
    · obtain ⟨⟨⟩, htype, hroom⟩ := bind_eq_ok.mp hasked
      have htype := (ColumnType.require_eq_ok_iff.mp htype).symm
      have hroom := requireRoom_eq_ok_iff.mp hroom
      obtain ⟨read, hread⟩ := exists_reads hrows
      rw [gather_eq hread htype hroom,
        gatherEach_eq hread htype (by rwa [KeySet.length_toList])]
      exact ⟨rfl, .refl _⟩
    · push Not at hrows
      obtain ⟨row, hrow, hmissing⟩ := hrows
      obtain ⟨last, hlast⟩ := requireSet_eq_error hrow hmissing
      obtain ⟨first, hfirst⟩ := mapM_cellAt_eq_error hrow hmissing
      rw [gather, gatherEach, hset, hlist, hasked, ok_bind, ok_bind, hlast, hfirst]
      exact ⟨rfl, .error rfl⟩

/-- Rows of a set are copied run by run as they are copied one by one. Gathering them succeeds for
the same columns and chunks, leaves the same chunk, and fails for one kind of reason; scattering to
them has the same outcome and leaves the same column. -/
theorem copies_agree (c : Column) (k : Chunk) (rows : KeySet) :
    ((c.gather rows k).2 = (c.gatherEach rows.toList k).2 ∧
      Alike (c.gather rows k).1 (c.gatherEach rows.toList k).1) ∧
    c.scatter k rows = c.scatterEach k rows.toList :=
  ⟨gather_alike_gatherEach, scatter_eq_scatterEach⟩

/-- Of rows 1, 2 and 4 a column of two rows misses row 4 in the set and row 2 in the list. -/
example :
    let c : Column := ⟨.bool, .persistent [.bool true, .null]⟩
    let k : Chunk := .nulls .bool 3
    let rows : KeySet := ⟨[⟨1, 3⟩, ⟨4, 5⟩], by simp [Spaced, maxKey]⟩
    c.gather rows k = (.error (.indexOutOfRange 4 2), k) ∧
      c.gatherEach rows.toList k = (.error (.indexOutOfRange 2 2), k) := ⟨rfl, rfl⟩

end Column

end LiveTables
