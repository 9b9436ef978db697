import LiveTables.Proofs.Column.Gather
import LiveTables.Proofs.Table.Acceptance
import LiveTables.Proofs.Table.Replay

/-!
# Reading what a change names

The row sets of a change are meant to be read from its snapshots: removed rows from the table before
the update, added rows from the table after it, and modified rows from the table after it as well as
from the one just before the modifications. A row set that translates keys of a snapshot can be read
from this snapshot, and what is read are the cells of these keys (`LiveTable.Aligned.reads`).

Modified rows are translated only once, by the keys after the update. That they can be read before
the modifications too is so because an update with modified keys adds none
(`Schema.Admits.added_eq_nil`), so the keys are the same then.
-/

namespace LiveTables

/-- The rows of a set can be copied from column `j` into any chunk of a type that has room for them,
and `cells` is what the front of the chunk is afterwards. -/
def Snapshot.Reads (s : Snapshot) (j : Nat) (rows : KeySet) (type : ColumnType)
    (cells : List Cell) : Prop :=
  ∀ dest : Chunk, dest.type = type → rows.size ≤ dest.size →
    s.gather j rows dest = (.ok (), dest.overwrite 0 cells)

/-! ## Cells of keys -/

namespace Content

variable {m : Content} {modified : List KeySet} {cells : List (List Cell)} {rows : List Row}
  {added : KeySet} {row : Row} {i j k : Nat}

/-- The cell in column `j` of the row that is bound to a key. -/
def cell? (m : Content) (k j : Nat) : Option Cell := (m.lookup k).bind (·[j]?)

/-- The cells in column `j` of the rows that are bound to the keys of a set. -/
def Values (m : Content) (j : Nat) (keys : KeySet) (cells : List Cell) : Prop :=
  List.Forall₂ (fun k x => m.cell? k j = some x) keys.toList cells

/-- A row that is bound to a key is found. -/
theorem lookup_eq_some (hm : m.Pairwise fun e f => e.1 < f.1) (h : (k, row) ∈ m) :
    m.lookup k = some row := by
  obtain ⟨front, back, rfl⟩ := List.append_of_mem h
  refine List.lookup_eq_some_iff.mpr ⟨front, back, rfl, fun e he => ?_⟩
  have hlt := (List.pairwise_append.mp hm).2.2 e he _ (List.mem_cons_self ..)
  exact bne_iff_ne.mpr (Nat.ne_of_gt hlt)

/-- Where cells are replaced a key has the cell that is bound to it, or else the one it had. -/
theorem cell?_modify : (m.modify modified cells).cell? k j =
    (m.cell? k j).map fun x => (newCell? modified cells k j).getD x := by
  have hlookup : (m.modify modified cells).lookup k = (m.lookup k).map (edit k modified cells) := by
    induction m with
    | nil => rfl
    | cons e m ih =>
      rw [modify, List.map_cons, List.lookup_cons, List.lookup_cons]
      split
      · rename_i heq
        rw [← beq_iff_eq.mp heq]
        rfl
      · exact ih
  rw [cell?, cell?, hlookup, Option.bind_map, Option.map_bind]
  exact Option.bind_congr fun row _ => getElem?_edit

/-- Where rows are added an added key has its row. -/
theorem cell?_add (hadd : (m.add added rows).Pairwise fun e f => e.1 < f.1)
    (hk : added.toList[i]? = some k) (hi : rows[i]? = some row) :
    (m.add added rows).cell? k j = row[j]? := by
  have hmem : (k, row) ∈ m.add added rows := by
    refine (List.merge_perm_append _).mem_iff.mpr (List.mem_append_right _ ?_)
    exact List.mem_of_getElem? (List.getElem?_zip_eq_some.mpr ⟨hk, hi⟩)
  rw [cell?, lookup_eq_some hadd hmem]
  rfl

end Content

namespace LiveTable

variable {t t' : LiveTable} {u : Update} {p : Plan} {erased shifted final : KeySpace}
  {moves : List Move} {columns₁ columns₂ columns₃ : List Column} {keys rows : KeySet}
  {change : Change} {c : Column} {d : ColumnDef} {cells : List Cell} {i j k : Nat}

/-- The cell of a key is at the position of the key. -/
theorem Aligned.cell?_content (ht : t.Aligned) (hk : t.keys.toList[i]? = some k)
    (hc : t.columns[j]? = some c) : t.content.cell? k j = c.toList[i]? := by
  have hi : i < t.rows := by
    rw [LiveTable.rows, ← KeySpace.length_toList]
    exact (List.getElem?_eq_some_iff.mp hk).1
  rw [Content.cell?, content, lookup_zip_of_getElem? t.keys.ascending.nodup hk, getElem?_rowsOf hi,
    Option.bind_some, ht.getElem?_row hi hc]

/-- In an aligned table there is a column for each of the schema. -/
theorem Aligned.exists_column (ht : t.Aligned) (hd : t.schema.columns[j]? = some d) :
    ∃ c, t.columns[j]? = some c ∧ c.type = d.type ∧ c.size = t.rows := by
  have hj : j < t.columns.length := by
    rw [← ht.columns.length_eq]
    exact (List.getElem?_eq_some_iff.mp hd).1
  have hc : t.columns[j]? = some t.columns[j] := List.getElem?_eq_getElem hj
  exact ⟨_, hc, ((forall₂_iff_getElem?.mp ht.columns).2 j d _ hd hc).1,
    ht.sizes _ (List.mem_of_getElem? hc)⟩

/-- A present key has a cell in each column. -/
theorem Aligned.exists_cell (ht : t.Aligned) (hd : t.schema.columns[j]? = some d)
    (hk : k ∈ t.keys.toList) : ∃ x, t.content.cell? k j = some x := by
  obtain ⟨c, hc, -, hsize⟩ := ht.exists_column hd
  obtain ⟨i, hi⟩ := List.getElem?_of_mem hk
  have hlt : i < c.toList.length := by
    rw [Column.length_toList, hsize, LiveTable.rows, ← KeySpace.length_toList]
    exact (List.getElem?_eq_some_iff.mp hi).1
  exact ⟨c.toList[i], by rw [ht.cell?_content hi hc, List.getElem?_eq_getElem hlt]⟩

/-- Present keys have cells. -/
theorem Aligned.exists_values (ht : t.Aligned) (hd : t.schema.columns[j]? = some d)
    (hkeys : ∀ k ∈ keys.toList, k ∈ t.keys.toList) : ∃ cells, t.content.Values j keys cells :=
  exists_forall₂ fun k hk => ht.exists_cell hd (hkeys k hk)

/-- Where rows are the positions of keys the cells of the keys are read. -/
theorem Aligned.reads (ht : t.Aligned) (hd : t.schema.columns[j]? = some d)
    (hrows : t.keys.positions keys = .ok rows) (hcells : t.content.Values j keys cells) :
    t.snapshot.Reads j rows d.type cells := by
  obtain ⟨c, hc, htype, -⟩ := ht.exists_column hd
  obtain ⟨hlist, hkeys⟩ := KeySpace.toList_positions hrows
  have hread : List.Forall₂ (fun i x => c.toList[i]? = some x) rows.toList cells := by
    rw [hlist, List.forall₂_map_left_iff]
    refine ((List.forall₂_and_left _ _).mpr ⟨hkeys, hcells⟩).imp fun k x hk => ?_
    rw [← ht.cell?_content (KeySpace.getElem?_rank hk.1) hc]
    exact hk.2
  intro dest hdest hroom
  have hcolumn : t.snapshot.column j = .ok c := by
    have hsame : t.snapshot.columns[j]? = some c := hc
    rw [Snapshot.column, hsame]
  rw [Snapshot.gather, hcolumn]
  exact Column.gather_eq hread (hdest.trans htype.symm) hroom

/-! ## The row sets of a change -/

/-- Added keys have the cells that the add batches hold. -/
theorem added_values (hform : t.schema.Admits u) (hr : t.Rehearsed u p erased shifted final)
    (hc : t.Committed u p erased shifted final moves columns₁ columns₂ columns₃)
    (hd : t.schema.columns[j]? = some d) :
    ∃ cells, (t.replace final columns₃).content.Values j u.added cells ∧
      Batches.Hold d.type j u.addBatches cells := by
  obtain ⟨hholds, hsizes⟩ := Schema.addedData_spec hr.addedData
  obtain ⟨chunk, hk, hhold⟩ := hholds.exists_chunk hd
  refine ⟨chunk.cells, forall₂_iff_getElem?.mpr ⟨?_, fun i k x hkey hcell => ?_⟩, hhold⟩
  · rw [KeySet.length_toList]
    exact (hsizes _ (List.mem_of_getElem? hk)).symm
  have hi : i < u.added.size := by
    rw [← KeySet.length_toList]
    exact (List.getElem?_eq_some_iff.mp hkey).1
  have hbelow : ∀ cells ∈ p.addedData.map Chunk.cells, i < cells.length := by
    intro cells hcells
    obtain ⟨chunk, hchunk, rfl⟩ := List.mem_map.mp hcells
    rw [← Chunk.size, hsizes chunk hchunk]
    exact hi
  -- no added key is modified, so the row that was added is there in the end
  have hnone : Content.newCell? u.modified (p.modifiedData.map Chunk.cells) k j = none := by
    refine Content.newCell?_eq_none fun keys hkeys hmem => ?_
    rw [hform.added_eq_nil (List.mem_of_getElem? hkeys) (List.ne_nil_of_mem hmem)] at hkey
    cases hkey
  have hgrown := pairwise_content (t := t.replace final columns₂)
  rw [hc.add] at hgrown
  rw [hc.modify, Content.cell?_modify, hnone, hc.add,
    Content.cell?_add hgrown hkey (getElem?_rowsOf hi), getElem?_rowAt hbelow, List.getElem?_map, hk,
    Option.map_some, Option.bind_some, hcell]
  rfl

/-- Modified keys have the cells that the batches of modifications hold. -/
theorem modified_values (hr : t.Rehearsed u p erased shifted final)
    (hc : t.Committed u p erased shifted final moves columns₁ columns₂ columns₃)
    (hd : t.schema.columns[j]? = some d) (hkeys : u.modified[j]? = some keys)
    (hrows : final.positions keys = .ok rows) :
    ∃ cells, (t.replace final columns₃).content.Values j keys cells ∧
      Batches.Hold d.type j u.modBatches cells := by
  rcases Schema.modifiedData_spec hr.modifiedData with ⟨hnone, -⟩ | ⟨hholds, hsizes⟩
  · rw [hnone] at hkeys
    cases hkeys
  obtain ⟨chunk, hk, hhold⟩ := hholds.exists_chunk hd
  refine ⟨chunk.cells, forall₂_iff_getElem?.mpr ⟨?_, fun i k x hkey hcell => ?_⟩, hhold⟩
  · rw [KeySet.length_toList]
    exact ((forall₂_iff_getElem?.mp hsizes).2 j _ keys hk hkeys).symm
  -- the key had a cell before, in place of which it gets the one that is bound to it
  obtain ⟨old, hold⟩ := hc.alignedGrown.exists_cell hd
    ((KeySpace.toList_positions hrows).2 k (List.mem_of_getElem? hkey))
  have hnew : Content.newCell? u.modified (p.modifiedData.map Chunk.cells) k j = some x := by
    have hbound : (u.modified.zip (p.modifiedData.map Chunk.cells))[j]? =
        some (keys, chunk.cells) := by
      rw [List.getElem?_zip_eq_some, List.getElem?_map, hk]
      exact ⟨hkeys, rfl⟩
    rw [Content.newCell?, hbound, Option.bind_some,
      lookup_zip_of_getElem? keys.ascending.nodup hkey, hcell]
  rw [hc.modify, Content.cell?_modify, hold, hnew]
  rfl

/-- If no key is added the keys are those that removing and renumbering have left. -/
theorem Rehearsed.shifted_eq_final (hr : t.Rehearsed u p erased shifted final)
    (h : u.added.toList = []) : shifted = final := by
  have hadded := hr.addAll
  rw [KeySet.eq_empty h] at hadded
  exact Except.ok.inj hadded

/-- Modified rows are positions of the modified keys before the modifications too: if there are any,
no key was added. -/
theorem positions_shifted (hform : t.schema.Admits u) (hr : t.Rehearsed u p erased shifted final)
    (hkeys : keys ∈ u.modified) (hrows : final.positions keys = .ok rows) :
    shifted.positions keys = .ok rows := by
  by_cases hne : keys.toList = []
  · obtain rfl := KeySet.eq_empty hne
    exact hrows
  · rwa [hr.shifted_eq_final (hform.added_eq_nil hkeys hne)]

/-- Each set of modified rows translates a set of modified keys. -/
theorem Rehearsed.exists_modified (hr : t.Rehearsed u p erased shifted final)
    (hrows : p.modifiedRows[j]? = some rows) :
    ∃ keys, u.modified[j]? = some keys ∧ final.positions keys = .ok rows := by
  obtain ⟨hlen, hbeside⟩ := forall₂_iff_getElem?.mp (mapM_eq_ok.mp hr.modifiedRows)
  have hj : j < u.modified.length := by
    rw [hlen]
    exact (List.getElem?_eq_some_iff.mp hrows).1
  have hkeys : u.modified[j]? = some u.modified[j] := List.getElem?_eq_getElem hj
  exact ⟨_, hkeys, hbeside j _ _ hkeys hrows⟩

/-- Each row set of a change can be read from the snapshots that it is about. What is read from
column `j` are, for removed rows, the cells of the removed keys; for added rows, what the add
batches hold; and for modified rows what the batches of modifications hold, or, from the table
before the modifications, the cells that their keys had. If any row is modified no key was added, so
before the modifications the table has the keys that it has after them, at the same positions. -/
theorem Reachable.reads_change (h : Reachable t) (hu : t.apply u = (.ok change, t')) :
    ∃ moves, u.shifts.schedule = .ok moves ∧
      (∀ (j : Nat) d, t.schema.columns[j]? = some d →
        (∃ cells, change.beforeRemoves.Reads j change.removed d.type cells ∧
          t.content.Values j u.removed cells) ∧
        (∃ cells, change.current.Reads j change.added d.type cells ∧
          Batches.Hold d.type j u.addBatches cells) ∧
        ∀ rows, change.modified[j]? = some rows →
          (∃ cells, change.current.Reads j rows d.type cells ∧
            Batches.Hold d.type j u.modBatches cells) ∧
          ∃ keys cells, u.modified[j]? = some keys ∧
            change.beforeModifies.Reads j rows d.type cells ∧
            ((t.content.remove u.removed).renumber moves).Values j keys cells) ∧
      ((∃ rows ∈ change.modified, rows.toList ≠ []) →
        u.added.toList = [] ∧
        ((t.content.remove u.removed).renumber moves).map Prod.fst = t'.keys.toList ∧
        ((t.content.remove u.removed).renumber moves).map Prod.snd =
          change.beforeModifies.rowList) := by
  obtain ⟨p, erased, shifted, final, moves, columns₁, columns₂, columns₃, hr, hc, rfl, rfl⟩ :=
    h.settled.apply_eq_ok hu
  obtain ⟨_, hprepare⟩ := h.settled.accepts_iff.mp ⟨_, _, hu⟩
  have hform := admits_of_prepare hprepare
  refine ⟨moves, hc.schedule, ?_⟩
  rw [← hc.remove, ← hc.renumber]
  refine ⟨fun j d hd => ⟨?_, ?_, fun rows hrows => ⟨?_, ?_⟩⟩, ?_⟩
  · obtain ⟨cells, hcells⟩ := h.settled.aligned.exists_values hd
      (KeySpace.toList_positions hr.removedRows).2
    exact ⟨cells, h.settled.aligned.reads hd hr.removedRows hcells, hcells⟩
  · obtain ⟨cells, hcells, hhold⟩ := added_values hform hr hc hd
    exact ⟨cells, hc.alignedFinal.reads hd hr.addedRows hcells, hhold⟩
  · obtain ⟨keys, hkeys, hpositions⟩ := hr.exists_modified hrows
    obtain ⟨cells, hcells, hhold⟩ := modified_values hr hc hd hkeys hpositions
    exact ⟨cells, hc.alignedFinal.reads hd hpositions hcells, hhold⟩
  · obtain ⟨keys, hkeys, hpositions⟩ := hr.exists_modified hrows
    have hbefore := positions_shifted hform hr (List.mem_of_getElem? hkeys) hpositions
    obtain ⟨cells, hcells⟩ := hc.alignedShifted.exists_values hd
      (KeySpace.toList_positions hbefore).2
    exact ⟨keys, cells, hkeys, hc.alignedShifted.reads hd hbefore hcells, hcells⟩
  · rintro ⟨rows, hrows, hne⟩
    obtain ⟨j, hj⟩ := List.getElem?_of_mem hrows
    obtain ⟨keys, hkeys, hpositions⟩ := hr.exists_modified hj
    rw [(KeySpace.toList_positions hpositions).1, Ne, List.map_eq_nil_iff] at hne
    have hnone := hform.added_eq_nil (List.mem_of_getElem? hkeys) hne
    obtain rfl := hr.shifted_eq_final hnone
    exact ⟨hnone, map_fst_content, (rowList_snapshot _).symm⟩

/-- After key 7 has become key 3 its cell is replaced. Row 0 can be read before and after that. -/
theorem Reachable.reads_change_of_quotes : ∃ change t',
    Quotes.table.apply Quotes.reprice = (.ok change, t') ∧ t'.keys.toList = [3] ∧
    ∃ old new, change.beforeModifies.Reads 0 (.ofRange 0 1) .int64 old ∧
      change.current.Reads 0 (.ofRange 0 1) .int64 new ∧
      Batches.Hold .int64 0 Quotes.reprice.modBatches new := by
  have hreprice : Quotes.table.apply Quotes.reprice = (.ok _, _) := rfl
  have hchange := Reachable.reads_change Quotes.reachable_table hreprice
  obtain ⟨_, -, hreads, -⟩ := hchange
  obtain ⟨⟨new, hnew, hhold⟩, -, old, -, hold, -⟩ :=
    (hreads 0 ⟨"price", .int64⟩ rfl).2.2 (.ofRange 0 1) rfl
  exact ⟨_, _, hreprice, rfl, old, new, hold, hnew, hhold⟩

end LiveTable

end LiveTables
