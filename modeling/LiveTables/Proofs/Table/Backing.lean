import LiveTables.Proofs.Column.Script
import LiveTables.Proofs.Table.Export

/-!
# How tables are stored

A table that is stored in another way has the same keys and its columns stored in this way, and its
settings say so (`LiveTable.restore`). What an update is checked against are the keys and the
schema. What it then does to the columns is done with operations that come to the same however a
column is stored. So an update of a table that is stored in another way gives the same answer, apart
from how the columns of the snapshots are stored, and leaves the table that it would leave, stored
in this way (`LiveTable.apply_restore`). The snapshots are exported alike, or fail to be
(`Snapshot.recordBatch_restore`).
-/

namespace LiveTables

/-- The snapshot with all columns stored in another way. -/
def Snapshot.restore (b : Backing) (s : Snapshot) : Snapshot :=
  { s with columns := s.columns.map (Column.restore b) }

/-- What can be seen of a snapshot: its schema, how many rows it has, and what its columns hold. -/
def Snapshot.shown (s : Snapshot) : Schema × Nat × List Chunk :=
  (s.schema, s.rows, s.columns.map Column.contents)

@[simp] theorem Snapshot.shown_restore (b : Backing) (s : Snapshot) :
    (s.restore b).shown = s.shown := by
  simp [shown, restore]

/-- A snapshot that is stored in another way leaves as the same arrays. -/
@[simp] theorem Snapshot.recordBatch_restore (b : Backing) (s : Snapshot) :
    (s.restore b).recordBatch = s.recordBatch := by
  have harrays : (s.columns.map (Column.restore b)).mapM Column.toArray =
      s.columns.mapM Column.toArray := by
    rw [List.mapM_map]
    exact congrArg (s.columns.mapM ·) (funext fun c => Column.toArray_restore)
  rw [recordBatch, recordBatch]
  change ((s.columns.map (Column.restore b)).mapM Column.toArray >>= _) = _
  rw [harrays]
  rfl

/-- The change with all columns of its snapshots stored in another way. -/
def Change.restore (b : Backing) (c : Change) : Change :=
  { c with
    beforeRemoves := c.beforeRemoves.restore b
    beforeModifies := c.beforeModifies.restore b
    current := c.current.restore b }

/-- What can be seen of a change: the rows that were removed, modified and added, and the
snapshots. -/
def Change.shown (c : Change) :
    (KeySet × List KeySet × KeySet) × List (Schema × Nat × List Chunk) :=
  ((c.removed, c.modified, c.added),
    [c.beforeRemoves.shown, c.beforeModifies.shown, c.current.shown])

/-- What the snapshots of a change are exported as. -/
def Change.exported (c : Change) : List (Except Failure RecordBatch) :=
  [c.beforeRemoves.recordBatch, c.beforeModifies.recordBatch, c.current.recordBatch]

@[simp] theorem Change.shown_restore (b : Backing) (c : Change) :
    (c.restore b).shown = c.shown := by
  simp [shown, restore]

@[simp] theorem Change.exported_restore (b : Backing) (c : Change) :
    (c.restore b).exported = c.exported := by
  simp [exported, restore]

namespace LiveTable

variable {b : Backing}

/-- The table with all columns stored in another way. -/
def restore (b : Backing) (t : LiveTable) : LiveTable :=
  { t with
    config := { t.config with backing := b }
    columns := t.columns.map (Column.restore b) }

/-- A table without rows is made to be stored in some way. -/
theorem new_restore (schema : Schema) (config : TableConfig) :
    (new schema config).restore b = new schema { config with backing := b } := by
  simp [new, restore, Column.empty_restore]

/-! ## The steps of a commit -/

theorem eraseRun_restore (t : LiveTable) (r : Run) :
    (t.restore b).eraseRun r = restore b <$> t.eraseRun r := by
  have hcolumns : ∀ index,
      (t.columns.map (Column.restore b)).mapM (·.spliceOut index r.width) =
        List.map (Column.restore b) <$> t.columns.mapM (·.spliceOut index r.width) :=
    fun index => mapM_map_eq (by exact fun c => Column.spliceOut_restore) t.columns
  simp only [eraseRun, restore, hcolumns, bind_map_left, map_bind, map_pure]

theorem insertRows_restore (index width : Nat) (cs : List Column) (ks : List Chunk) :
    insertRows index width (cs.map (Column.restore b)) ks =
      Prod.map (List.map (Column.restore b)) id <$> insertRows index width cs ks := by
  induction cs generalizing ks with
  | nil => rfl
  | cons c cs ih =>
    cases ks with
    | nil => rfl
    | cons k ks =>
      simp only [List.map_cons, insertRows, Column.spliceIn_restore, ih, bind_map_left, map_bind,
        map_pure]
      rfl

theorem addRun_restore (t : LiveTable) (data : List Chunk) (r : Run) :
    addRun (t.restore b, data) r = Prod.map (restore b) id <$> addRun (t, data) r := by
  simp only [addRun, restore, insertRows_restore, bind_map_left, map_bind, map_pure]
  rfl

theorem modifyRows_restore (cs : List Column) (rows : List KeySet) (ks : List Chunk) :
    modifyRows (cs.map (Column.restore b)) rows ks =
      List.map (Column.restore b) <$> modifyRows cs rows ks := by
  induction cs generalizing rows ks with
  | nil => rfl
  | cons c cs ih =>
    cases rows with
    | nil => rfl
    | cons keys rows =>
      cases ks with
      | nil => rfl
      | cons k ks =>
        rw [List.map_cons, modifyRows, modifyRows, Column.scatter_restore]
        cases c.scatter k keys with
        | mk outcome c =>
          cases outcome with
          | error e => rfl
          | ok _ =>
            simp only [Prod.map, id, ih, bind_map_left, map_bind, map_pure, List.map_cons]

theorem verify_restore (t : LiveTable) : (t.restore b).verify = t.verify := by
  have hrows : (t.restore b).rows = t.rows := rfl
  rw [verify, verify, hrows, restore, List.zipIdx_map, List.forM_eq_forM, List.forM_map]
  simp only [Prod.map, Column.size_restore, id]

/-- A plan is carried out on a table that is stored in another way as it is on the table. -/
theorem commit_restore (t : LiveTable) (p : Plan) :
    (t.restore b).commit p = Prod.map (restore b) (Change.restore b) <$> t.commit p := by
  have henter : ∀ (t : LiveTable) phase, (t.restore b).enter phase = (t.enter phase).restore b :=
    fun _ _ => rfl
  have herase : ∀ t : LiveTable, p.removed.runs.foldlM eraseRun (t.restore b) =
      restore b <$> p.removed.runs.foldlM eraseRun t :=
    foldlM_map_eq eraseRun_restore p.removed.runs
  have hadd : ∀ t : LiveTable, p.added.runs.foldlM addRun (t.restore b, p.addedData) =
      Prod.map (restore b) id <$> p.added.runs.foldlM addRun (t, p.addedData) :=
    fun t => foldlM_map_eq (g := Prod.map (restore b) id) (fun state r => addRun_restore ..)
      p.added.runs (t, p.addedData)
  simp only [commit, henter, herase, bind_map_left, map_bind, map_pure]
  refine bind_congr fun t => bind_congr fun keys => ?_
  -- what follows is done to the table with the renumbered keys
  let shifted : LiveTable := { t.enter .applyingShifts with keys := keys }
  change (p.added.runs.foldlM addRun ((shifted.enter .applyingAdds).restore b, p.addedData) >>= _) =
    _
  rw [hadd, bind_map_left]
  refine bind_congr fun state => ?_
  change (modifyRows (state.1.columns.map (Column.restore b)) _ _ >>= _) = _
  rw [modifyRows_restore, bind_map_left]
  refine bind_congr fun columns => bind_congr fun _ => ?_
  change (LiveTable.verify (({ state.1 with columns := columns }.enter .idle).restore b) >>= _) = _
  rw [verify_restore]
  rfl

/-- An update of a table that is stored in another way gives the same answer, with the snapshots
stored in this way, and leaves the table that it would leave, stored in this way. -/
theorem apply_restore (t : LiveTable) (u : Update) :
    (t.restore b).apply u = ((Change.restore b <$> (t.apply u).1), (t.apply u).2.restore b) := by
  have hprepare : (t.restore b).prepare u = t.prepare u := rfl
  rw [apply, apply, hprepare]
  change (if t.poisoned = true then _ else _) = _
  split
  · rfl
  · cases t.prepare u with
    | error e => rfl
    | ok p =>
      simp only [commit_restore]
      cases t.commit p with
      | error e => rfl
      | ok after => rfl

/-- So are several updates, of which some may be refused. -/
theorem applyAll_restore (t : LiveTable) (us : List Update) :
    (t.restore b).applyAll us = (t.applyAll us).restore b := by
  induction us generalizing t with
  | nil => rfl
  | cons u us ih => rw [applyAll_cons, applyAll_cons, apply_restore, ih]

/-- However a table is stored, its answers agree in all that storing changes in another way leaves
as it is. -/
theorem map_apply_restore {α : Type} {view : Change → α}
    (hview : ∀ c : Change, view (c.restore b) = view c) (t : LiveTable) (us : List Update)
    (u : Update) :
    (((t.restore b).applyAll us).apply u).1.map view = ((t.applyAll us).apply u).1.map view := by
  rw [applyAll_restore, apply_restore]
  cases ((t.applyAll us).apply u).1 with
  | error e => rfl
  | ok c => exact congrArg Except.ok (hview c)

/-- How cells are stored cannot be seen. Tables that differ in it answer each update of a sequence
with the same error, or with changes that look the same and are exported alike. Scripts that differ
in it have the same outcomes, and slots that look the same, after each step. Blocks of cells are
read, written and added as if this was done with one cell after another. And a step of a script
leaves all columns stored as they were, but for one that it may put into its target. -/
theorem backings_show_alike :
    (∀ (schema : Schema) (config : TableConfig) (b b' : Backing) (us : List Update) (u : Update),
      (((new schema { config with backing := b }).applyAll us).apply u).1.map Change.shown =
        (((new schema { config with backing := b' }).applyAll us).apply u).1.map Change.shown ∧
      (((new schema { config with backing := b }).applyAll us).apply u).1.map Change.exported =
        (((new schema { config with backing := b' }).applyAll us).apply u).1.map
          Change.exported) ∧
    (∀ (script script' : List ColumnStep) (s s' : Slots),
      List.Forall₂ ColumnStep.Alike script script' → s.shown = s'.shown →
        (s.trace script).map (Prod.map id Slots.shown) =
          (s'.trace script').map (Prod.map id Slots.shown)) ∧
    (∀ (s : Cells) (n i : Nat) (r : Run) (cells : List Cell),
      s.growTo n = (fun s : Cells => s.append [.null])^[n - s.size] s ∧
      s.slice r = r.keys.filterMap s.get? ∧
      (i + cells.length ≤ s.size →
        s.overwrite i cells = (cells.zipIdx i).foldl (fun s x => s.set x.2 x.1) s)) ∧
    ∀ (s : Slots) (a : ColumnStep) (name : String), (s.run a).2.backing? name =
      if name = a.target ∧ (s.run a).1.isOk = true then a.backing? s else s.backing? name := by
  refine ⟨fun schema config b b' us u => ?_, fun script script' s s' => Slots.trace_of_alike,
    fun s n i r cells => ⟨s.growTo_eq_iterate n, s.slice_eq_filterMap r, Cells.overwrite_eq_foldl⟩,
    fun s a => s.run_stores a⟩
  rw [← new_restore schema config (b := b), ← new_restore schema config (b := b')]
  constructor
  · rw [map_apply_restore (Change.shown_restore b), map_apply_restore (Change.shown_restore b')]
  · rw [map_apply_restore (Change.exported_restore b),
      map_apply_restore (Change.exported_restore b')]

/-- A column in one block and one in a list are joined, in one script the second to the first, and
in the other with the ways of storing exchanged. -/
theorem backings_show_alike_of_prices : ∃ script script' : List ColumnStep,
    script = [.columnOfArray "a" Quotes.prices .array, .columnOfArray "b" Quotes.prices .persistent,
      .append "a" "b"] ∧
    script' = [.columnOfArray "a" Quotes.prices .persistent,
      .columnOfArray "b" Quotes.prices .array, .append "a" "b"] ∧
    (Slots.empty.trace script).map (Prod.map id Slots.shown) =
      (Slots.empty.trace script').map (Prod.map id Slots.shown) ∧
    (((new Quotes.schema { backing := .array }).applyAll [Quotes.start]).apply Quotes.move).1.map
        Change.shown =
      (((new Quotes.schema { backing := .persistent }).applyAll [Quotes.start]).apply
        Quotes.move).1.map Change.shown ∧
    (((new Quotes.schema { backing := .array }).applyAll [Quotes.start]).apply Quotes.move).1.map
        Change.exported =
      (((new Quotes.schema { backing := .persistent }).applyAll [Quotes.start]).apply
        Quotes.move).1.map Change.exported := by
  obtain ⟨htables, hscripts, -, -⟩ := backings_show_alike
  refine ⟨_, _, rfl, rfl, hscripts _ _ _ _ ?_ rfl, ?_⟩
  · exact .cons (fun _ => rfl) (.cons (fun _ => rfl) (.cons (fun _ => rfl) .nil))
  · exact htables Quotes.schema {} .array .persistent [Quotes.start] Quotes.move

end LiveTable

end LiveTables
