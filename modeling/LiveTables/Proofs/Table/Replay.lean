import LiveTables.Proofs.Keys.Rehearsal
import LiveTables.Proofs.Table.Apply

/-!
# Replaying changes

A subscriber knows nothing of keys. What it is told of an update is a `Change`: three snapshots, and
positions of rows in them. `Change.replay` is a subscriber that keeps a list of rows and does to it
what the positions say. It drops the removed rows, takes over the added rows and the modified cells
from the table after the update, and leaves all other cells as they are.

That this keeps the list equal to the table rests on what a single change says about its snapshots
(`Change.Replays`). Positions are ranks of keys. So the rows outside a set of positions are those of
the keys outside a set of keys (`LiveTable.unmarked_rowList`), and what is said about positions is
read off from the contents of the table in the phases of the update.
-/

namespace LiveTables

/-! ## A subscriber that keeps rows -/

/-- The rows of a snapshot. -/
def Snapshot.rowList (s : Snapshot) : List Row := rowsOf s.rows (s.columns.map Column.toList)

/-- The members of a list at positions outside a set, with their positions. -/
def unmarked {α : Type} (marks : KeySet) (l : List α) : List (α × Nat) :=
  l.zipIdx.filter fun x => !marks.contains x.2

namespace Change

/-- Does the change replace the cell of row `i` in column `j`? -/
def touches (c : Change) (i j : Nat) : Bool := c.modified[j]?.any (·.contains i)

/-- The row `i` after the change: the cells of the old row, and where the change replaces them those
of the new one. -/
def patch (c : Change) (i : Nat) (old new : Row) : Row :=
  old.mapIdx fun j x => if c.touches i j then new.getD j x else x

/-- The rows from row `i` on after the change. Of the rows `new` in the table those are taken over
that were added, and the others are made from what was kept. -/
def patchAll (c : Change) : Nat → List Row → List Row → List Row
  | _, _, [] => []
  | i, kept, row :: new =>
    if c.added.contains i then row :: c.patchAll (i + 1) kept new
    else match kept with
      | old :: kept => c.patch i old row :: c.patchAll (i + 1) kept new
      | [] => []

/-- What becomes of a list of rows by a change. -/
def replay (c : Change) (rows : List Row) : List Row :=
  c.patchAll 0 ((unmarked c.removed rows).map Prod.fst) c.current.rowList

/-- The rows are the same but for cells that the change replaces in row `i`. -/
def SameBut (c : Change) (i : Nat) (old new : Row) : Prop :=
  old.length = new.length ∧ ∀ j, c.touches i j = false → old[j]? = new[j]?

/-- What a change says about its snapshots. -/
structure Replays (c : Change) : Prop where
  /-- no row of a snapshot lacks a cell -/
  aligned : c.beforeRemoves.Aligned ∧ c.beforeModifies.Aligned ∧ c.current.Aligned
  /-- without the removed rows, all at once, the rows are those before anything is added or
  modified -/
  removes : (unmarked c.removed c.beforeRemoves.rowList).map Prod.fst = c.beforeModifies.rowList
  /-- without the added rows, the rows after the change are those before, but for modified cells -/
  keeps : List.Forall₂ (fun old row => c.SameBut row.2 old row.1) c.beforeModifies.rowList
    (unmarked c.added c.current.rowList)
  /-- each removed position is one of a row -/
  shrinks : c.removed.size + c.beforeModifies.rows = c.beforeRemoves.rows
  /-- each added position is one of a row -/
  grows : c.beforeModifies.rows + c.added.size = c.current.rows

/-- Each change begins with the snapshot with which the one before has ended. -/
def Linked : Snapshot → List Change → Snapshot → Prop
  | first, [], last => first = last
  | first, c :: changes, last => c.beforeRemoves = first ∧ Linked c.current changes last

variable {c : Change} {i : Nat} {old new : Row}

/-- A row that is the same but for replaced cells becomes the new row by replacing them. -/
theorem SameBut.patch_eq (h : c.SameBut i old new) : c.patch i old new = new := by
  obtain ⟨hlen, hsame⟩ := h
  refine List.ext_getElem ?_ fun j hj hj' => ?_
  · rw [patch, List.length_mapIdx, hlen]
  rw [patch, List.length_mapIdx] at hj
  simp only [patch, List.getElem_mapIdx]
  split
  · rw [List.getD_eq_getElem?_getD, List.getElem?_eq_getElem hj', Option.getD_some]
  · rename_i huntouched
    have hcell := hsame j (Bool.not_eq_true _ ▸ huntouched)
    rw [List.getElem?_eq_getElem hj, List.getElem?_eq_getElem hj'] at hcell
    exact Option.some.inj hcell

/-- Where the kept rows are the same but for replaced cells all rows become those of the table. -/
theorem patchAll_eq {kept now : List Row}
    (h : List.Forall₂ (fun old row => c.SameBut row.2 old row.1) kept
      ((now.zipIdx i).filter fun x => !c.added.contains x.2)) : c.patchAll i kept now = now := by
  induction now generalizing i kept with
  | nil => rfl
  | cons row now ih =>
    rw [List.zipIdx_cons, List.filter_cons] at h
    cases hadded : c.added.contains i with
    | true =>
      rw [hadded] at h
      unfold patchAll
      rw [hadded, if_pos rfl, ih h]
    | false =>
      rw [hadded] at h
      obtain ⟨old, kept, hsame, hrest, rfl⟩ := List.forall₂_cons_right_iff.mp h
      rw [patchAll, hadded, if_neg (by simp), hsame.patch_eq, ih hrest]

/-- A subscriber that has the rows before the change has those after it when it has replayed it. -/
theorem Replays.replay_eq (h : c.Replays) :
    c.replay c.beforeRemoves.rowList = c.current.rowList := by
  rw [replay, h.removes]
  exact patchAll_eq h.keeps

end Change

/-! ## Positions and keys -/

/-- Positions have no say in which members of a kind there are. -/
theorem map_fst_filter_zipIdx {α : Type} (l : List α) (p : α → Bool) :
    (l.zipIdx.filter fun x => p x.1).map Prod.fst = l.filter p := by
  conv_rhs => rw [← List.zipIdx_map_fst 0 l, List.filter_map]
  rfl

namespace LiveTable

variable {t t' : LiveTable} {u : Update} {p : Plan} {erased shifted final : KeySpace}
  {moves : List Move} {columns₁ columns₂ columns₃ : List Column} {marked rows : KeySet}
  {change : Change} {changes : List Change}

/-- The rows of a snapshot are those of the content. -/
theorem rowList_snapshot (t : LiveTable) : t.snapshot.rowList = t.content.map Prod.snd :=
  map_snd_content.symm

/-- What is bound at a position is bound to the key of this position. -/
theorem getElem?_keys_of_mem {x : (Nat × Row) × Nat} (hx : x ∈ t.content.zipIdx) :
    t.keys.toList[x.2]? = some x.1.1 := by
  rw [← map_fst_content, List.getElem?_map, List.mem_zipIdx_iff_getElem?.mp hx]
  rfl

/-- The rows outside the positions of keys are the rows of the other keys. -/
theorem unmarked_rowList (h : t.keys.positions marked = .ok rows) :
    unmarked rows t.snapshot.rowList =
      (t.content.zipIdx.filter fun x => !marked.contains x.1.1).map fun x => (x.1.2, x.2) := by
  rw [unmarked, rowList_snapshot, List.zipIdx_map, List.filter_map]
  congr 1
  refine List.filter_congr fun x hx => ?_
  have hiff := KeySpace.mem_positions_iff h (getElem?_keys_of_mem hx)
  rw [← KeySet.contains_iff, ← KeySet.contains_iff, ← Bool.eq_iff_iff] at hiff
  exact congrArg not hiff

/-- What is left of the table after removing is what the subscriber keeps. -/
theorem removes_of_committed (hr : t.Rehearsed u p erased shifted final)
    (hc : t.Committed u p erased shifted final moves columns₁ columns₂ columns₃) :
    (unmarked p.removedRows t.snapshot.rowList).map Prod.fst =
      (t.replace shifted columns₁).snapshot.rowList := by
  have hkept := map_fst_filter_zipIdx t.content fun e => !u.removed.contains e.1
  rw [unmarked_rowList hr.removedRows, List.map_map, rowList_snapshot, hc.renumber,
    Content.map_snd_renumber, hc.remove, Content.remove, ← hkept, List.map_map]
  rfl

/-- Without the keys that were added the table holds what it held before, but for new cells. -/
theorem filter_content_of_committed (hr : t.Rehearsed u p erased shifted final)
    (hc : t.Committed u p erased shifted final moves columns₁ columns₂ columns₃) :
    (t.replace final columns₃).content.filter (fun e => !u.added.contains e.1) =
      (t.replace shifted columns₁).content.modify u.modified (p.modifiedData.map Chunk.cells) := by
  have hgrown := pairwise_content (t := t.replace final columns₂)
  rw [hc.add] at hgrown
  have hout : ∀ e ∈ (t.replace shifted columns₁).content, e.1 ∉ u.added.toList := fun e he hadded =>
    KeySpace.not_mem_of_addAll hr.addAll e.1 hadded (List.of_mem_zip he).1
  rw [hc.modify, hc.add, Content.modify, List.filter_map]
  exact congrArg _ (Content.filter_add pairwise_content hgrown hout)

/-- A position that is not touched in a column is one of a key that is not modified there. -/
theorem not_mem_of_untouched {i j k : Nat} (hr : t.Rehearsed u p erased shifted final)
    (hmodified : change.modified = p.modifiedRows) (hk : final.toList[i]? = some k)
    (huntouched : change.touches i j = false) :
    ∀ keys, u.modified[j]? = some keys → k ∉ keys.toList := by
  intro keys hkeys hmem
  obtain ⟨hlen, hbeside⟩ := forall₂_iff_getElem?.mp (mapM_eq_ok.mp hr.modifiedRows)
  have hj : j < p.modifiedRows.length := by
    rw [← hlen]
    exact (List.getElem?_eq_some_iff.mp hkeys).1
  have hrows : p.modifiedRows[j]? = some p.modifiedRows[j] := List.getElem?_eq_getElem hj
  rw [← KeySpace.mem_positions_iff (hbeside j keys _ hkeys hrows) hk, ← KeySet.contains_iff] at hmem
  rw [Change.touches, hmodified, hrows, Option.any_some, hmem] at huntouched
  cases huntouched

/-- What is kept of the table is what the subscriber keeps, but for modified cells. -/
theorem keeps_of_committed (hr : t.Rehearsed u p erased shifted final)
    (hc : t.Committed u p erased shifted final moves columns₁ columns₂ columns₃)
    (hmodified : change.modified = p.modifiedRows) :
    List.Forall₂ (fun old row => change.SameBut row.2 old row.1)
      (t.replace shifted columns₁).snapshot.rowList
      (unmarked p.addedRows (t.replace final columns₃).snapshot.rowList) := by
  have hrows : (t.replace final columns₃).keys.positions u.added = .ok p.addedRows := hr.addedRows
  rw [unmarked_rowList hrows, rowList_snapshot, List.forall₂_map_left_iff,
    List.forall₂_map_right_iff]
  -- what is bound to the keys that are kept, beside what was bound to them before
  have hkept := map_fst_filter_zipIdx (t.replace final columns₃).content
    fun e => !u.added.contains e.1
  rw [filter_content_of_committed hr hc] at hkept
  have hbeside := List.forall₂_eq_eq_eq ▸ hkept.symm
  rw [Content.modify, List.forall₂_map_left_iff, List.forall₂_map_right_iff] at hbeside
  refine List.forall₂_iff_zip.mpr ⟨hbeside.length_eq, fun {e x} hex => ?_⟩
  have hedit : (e.1, _) = x.1 := (List.forall₂_iff_zip.mp hbeside).2 hex
  have hkey := getElem?_keys_of_mem (List.mem_of_mem_filter (List.of_mem_zip hex).2)
  rw [← hedit] at hkey ⊢
  exact ⟨Content.length_edit.symm, fun j huntouched =>
    (Content.getElem?_edit_of_not_mem (not_mem_of_untouched hr hmodified hkey huntouched)).symm⟩

/-- An update that is accepted reports a change that can be replayed, from the table before it to
the table after it. -/
theorem Settled.replays_change (h : t.Settled) (hu : t.apply u = (.ok change, t')) :
    change.Replays ∧ change.beforeRemoves = t.snapshot ∧ change.current = t'.snapshot := by
  obtain ⟨p, erased, shifted, final, moves, columns₁, columns₂, columns₃, hr, hc, rfl, rfl⟩ :=
    h.apply_eq_ok hu
  refine ⟨⟨⟨h.aligned.snapshot, hc.alignedShifted.snapshot, hc.alignedFinal.snapshot⟩,
    removes_of_committed hr hc, keeps_of_committed hr hc rfl, ?_, ?_⟩, rfl, rfl⟩
  · change p.removedRows.size + shifted.size = t.keys.size
    rw [KeySpace.size_positions hr.removedRows, KeySpace.size_renumber hr.renumber]
    exact (KeySpace.eraseAll_eq_ok hr.eraseAll).2
  · change shifted.size + p.addedRows.size = final.size
    rw [KeySpace.size_positions hr.addedRows]
    exact (KeySpace.addAll_eq_ok hr.addAll).2

/-! ## Runs of updates -/

/-- The changes that a run of accepted updates reports, from one table to another. -/
inductive History : LiveTable → List Change → LiveTable → Prop
  /-- no update is applied -/
  | nil (t : LiveTable) : History t [] t
  /-- one update is applied, and then others to what it leaves -/
  | cons {t t' t'' : LiveTable} {u : Update} {change : Change} {changes : List Change}
    (h : t.apply u = (.ok change, t')) (rest : History t' changes t'') :
    History t (change :: changes) t''

/-- Over any run of updates of a settled table, a subscriber that starts with its rows has the rows
of the table at each tick. -/
theorem Settled.replays_history (h : t.Settled) (hrun : History t changes t') :
    (∀ c ∈ changes, c.Replays) ∧ Change.Linked t.snapshot changes t'.snapshot ∧
      changes.foldl (fun rows c => c.replay rows) t.snapshot.rowList = t'.snapshot.rowList := by
  induction hrun with
  | nil t => exact ⟨fun c hc => absurd hc List.not_mem_nil, rfl, rfl⟩
  | @cons t t' t'' u change changes hu _ ih =>
    obtain ⟨hreplays, hbefore, hafter⟩ := h.replays_change hu
    have ht' : t'.Settled := by
      have hnext := h.apply u
      rwa [hu] at hnext
    obtain ⟨hall, hlinked, hrows⟩ := ih ht'
    refine ⟨List.forall_mem_cons.mpr ⟨hreplays, hall⟩, ⟨hbefore, hafter ▸ hlinked⟩, ?_⟩
    rw [List.foldl_cons, ← hbefore, hreplays.replay_eq, hafter, hrows]

/-- Over any run of updates of a table that was empty at first, a subscriber that has started with
no rows has the rows of the table. Each change tells it what to drop, what to keep and what to take
over, and begins where the one before has ended. -/
theorem History.replays {schema : Schema} {config : TableConfig}
    (h : History (new schema config) changes t) :
    changes.foldl (fun rows c => c.replay rows) [] = t.snapshot.rowList ∧
      (∀ c ∈ changes, c.Replays) ∧
      Change.Linked (new schema config).snapshot changes t.snapshot := by
  obtain ⟨hall, hlinked, hrows⟩ := (settled_new schema config).replays_history h
  exact ⟨hrows, hall, hlinked⟩

/-- Two rows appear, and then one of them vanishes and the other one gets another price. -/
theorem History.replays_quotes : ∃ first second t,
    History (new Quotes.schema {}) [first, second] t ∧
      second.replay (first.replay []) = t.snapshot.rowList ∧ t.snapshot.rowList = [[.int 50]] ∧
      second.beforeRemoves = first.current := by
  have hstart : (new Quotes.schema {}).apply Quotes.start = (.ok _, Quotes.table) := rfl
  have hreprice : Quotes.table.apply Quotes.reprice = (.ok _, _) := rfl
  have hrun := History.cons hstart (.cons hreprice (.nil _))
  obtain ⟨hrows, -, -, hlinked, -⟩ := History.replays hrun
  exact ⟨_, _, _, hrun, hrows, rfl, hlinked⟩

end LiveTable

end LiveTables
