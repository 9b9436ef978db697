import LiveTables.Proofs.Column.Fill
import LiveTables.Proofs.Table.Content

/-!
# The phases of an update

Each phase of an update changes keys and columns of a table side by side. If what it does to the
keys succeeds, so does what it does to the columns, as these are aligned with the keys and stay so
after every single run. On contents the phase is a simple operation.

Removing and adding work run by run, and the positions of a run are those in the key space that the
runs before have left. So both are inductions over runs, in which a content falls into the part
before the run, the run, and the part after it (`LiveTable.content_eq_append`).
-/

namespace LiveTables

/-- A column may be followed by one of its type and backing. -/
def Column.Like (c c' : Column) : Prop := c'.type = c.type ∧ c'.backing = c.backing

namespace LiveTable

/-- The table with other keys and columns. -/
def replace (t : LiveTable) (keys : KeySpace) (columns : List Column) : LiveTable :=
  { t with keys, columns }

variable {t : LiveTable} {keys : KeySpace} {columns : List Column} {data : List Chunk} {r : Run}
  {rs : List Run} {i w limit low : Nat} {front mid back : List Nat}

/-- A table stays aligned if columns are replaced along with keys. -/
theorem Aligned.replace (h : t.Aligned)
    (hcolumns : List.Forall₂ (fun c c' => c.Like c' ∧ c'.size = keys.size) t.columns columns) :
    (t.replace keys columns).Aligned where
  columns := by
    refine forall₂_glue (fun c d c' hc hc' => ?_) h.columns.flip hcolumns
    exact ⟨hc'.1.1.trans hc.1, hc'.1.2.trans hc.2⟩
  sizes := forall_mem_right (fun _ _ h => h.2) hcolumns

/-! ## Parts of a content -/

/-- A content falls into parts as its keys do. -/
theorem content_eq_append (h : t.keys.toList = front ++ (mid ++ back)) :
    t.content = front.zip (rowsOf front.length t.cells) ++
      (mid.zip (rowsOf mid.length (t.cells.map (·.drop front.length))) ++
        back.zip (rowsOf back.length (t.cells.map (·.drop (front.length + mid.length))))) := by
  have hrows : t.rows = front.length + (mid.length + back.length) := by
    rw [rows, ← KeySpace.length_toList, h, List.length_append, List.length_append]
  have hdrop : (t.cells.map (·.drop front.length)).map (·.drop mid.length) =
      t.cells.map (·.drop (front.length + mid.length)) := by
    rw [List.map_map]
    exact List.map_congr_left fun c _ => List.drop_drop
  rw [content, h, hrows, rowsOf_add, rowsOf_add, hdrop, List.zip_append length_rowsOf.symm,
    List.zip_append length_rowsOf.symm]

/-- If keys in the middle are replaced by others, and in each column the cells at their positions,
then so is the middle of the content. -/
theorem content_splice (mid mid' : List Nat) (hs : t.keys.toList = front ++ (mid ++ back))
    (hs' : keys.toList = front ++ (mid' ++ back))
    (hcolumns : List.Forall₂ (fun c c' => ∃ piece, piece.length = mid'.length ∧
      c.Spliced front.length mid.length piece c') t.columns columns) :
    ∃ before after, (∀ e ∈ before, e.1 ∈ front) ∧ (∀ e ∈ after, e.1 ∈ back) ∧
      t.content = before ++
        (mid.zip (rowsOf mid.length (t.cells.map (·.drop front.length))) ++ after) ∧
      (t.replace keys columns).content = before ++
        (mid'.zip (rowsOf mid'.length ((columns.map Column.toList).map (·.drop front.length))) ++
          after) := by
  have hbefore : rowsOf front.length t.cells = rowsOf front.length (columns.map Column.toList) := by
    refine rowsOf_congr ?_
    rw [cells, List.forall₂_map_left_iff, List.forall₂_map_right_iff]
    refine hcolumns.imp fun c c' hc j hj => ?_
    obtain ⟨piece, -, hsplice⟩ := hc
    exact hsplice.before hj
  have hafter : rowsOf back.length (t.cells.map (·.drop (front.length + mid.length))) =
      rowsOf back.length
        ((columns.map Column.toList).map (·.drop (front.length + mid'.length))) := by
    refine rowsOf_congr ?_
    rw [cells, List.forall₂_map_left_iff, List.forall₂_map_right_iff, List.forall₂_map_left_iff,
      List.forall₂_map_right_iff]
    refine hcolumns.imp fun c c' hc j _ => ?_
    obtain ⟨piece, hlen, hsplice⟩ := hc
    rw [hsplice.after, hlen]
  refine ⟨_, _, fun e he => (List.of_mem_zip he).1, fun e he => (List.of_mem_zip he).1,
    content_eq_append hs, ?_⟩
  rw [hbefore, hafter]
  exact content_eq_append (t := t.replace keys columns) hs'

/-! ## Removing -/

/-- Keys before and after a run are not in it. -/
theorem not_contains_of_parts (h : (front ++ (r.keys ++ back)).Pairwise (· < ·)) {k : Nat}
    (hk : k ∈ front ∨ k ∈ back) : r.contains k = false := by
  obtain ⟨-, hrest, hfront⟩ := List.pairwise_append.mp h
  obtain ⟨-, -, hmid⟩ := List.pairwise_append.mp hrest
  have hout : k ∉ r.keys := by
    intro hmem
    rcases hk with hk | hk
    · exact Nat.lt_irrefl k (hfront k hk k (List.mem_append_left _ hmem))
    · exact Nat.lt_irrefl k (hmid k hmem k hk)
  rw [Run.mem_keys] at hout
  simpa [Run.contains] using hout

/-- Present keys of a run can be removed with their rows. -/
theorem eraseRun_spec (ht : t.Aligned) (hr : r.start < r.stop) (hmax : r.stop ≤ maxKey)
    (h : t.keys.eraseRange r.start r.stop = .ok (i, keys)) :
    ∃ columns, t.eraseRun r = .ok (t.replace keys columns) ∧ (t.replace keys columns).Aligned ∧
      (t.replace keys columns).content = t.content.filter fun e => !r.contains e.1 := by
  obtain ⟨front, back, hs, hs', rfl⟩ := KeySpace.toList_eraseRange hr h
  have hrows : t.rows = front.length + (r.width + back.length) := by
    rw [rows, ← KeySpace.length_toList, hs, List.length_append, List.length_append, Run.length_keys]
  have hkeys : keys.size = front.length + back.length := by
    rw [← KeySpace.length_toList, hs', List.length_append]
  -- the rows end where their keys do at the latest, which is a machine word
  have hword : front.length + r.width ≤ maxKey := by
    have hindex := KeySpace.index_le_of_eraseRange hr h
    rw [Run.width]
    omega
  obtain ⟨columns, hcolumns, hspec⟩ := exists_mapM_eq_ok fun c hc =>
    Column.spliceOut_spec (c := c) (i := front.length) (w := r.width) (by
      rw [ht.sizes c hc]
      omega) hword
  refine ⟨columns, ?_, ht.replace ?_, ?_⟩
  · rw [eraseRun, h, ok_bind]
    change (t.columns.mapM _ >>= _) = _
    rw [hcolumns]
    rfl
  · refine ((List.forall₂_and_left _ _).mpr ⟨ht.sizes, hspec⟩).imp fun c c' hc => ?_
    obtain ⟨hsize, hc⟩ := hc
    have := hc.size
    rw [List.length_nil] at this
    exact ⟨⟨hc.type, hc.backing⟩, by omega⟩
  · obtain ⟨before, after, hfront, hback, hbefore, hafter⟩ :=
      content_splice r.keys [] hs hs' (hspec.imp fun c c' hc =>
        ⟨[], rfl, by rwa [Run.length_keys]⟩)
    have hparts : ∀ {k}, k ∈ front ∨ k ∈ back → r.contains k = false :=
      not_contains_of_parts (hs ▸ t.keys.ascending)
    have hkeep : ∀ l : Content, (∀ e ∈ l, r.contains e.1 = false) →
        l.filter (fun e => !r.contains e.1) = l := fun l hl =>
      List.filter_eq_self.mpr fun e he => by rw [hl e he]; rfl
    have hdrop : ∀ vals : List Row, (r.keys.zip vals).filter (fun e => !r.contains e.1) = [] := by
      intro vals
      refine List.filter_eq_nil_iff.mpr fun e he => ?_
      have hmem := Run.mem_keys.mp (List.of_mem_zip he).1
      simpa [Run.contains] using hmem
    rw [hbefore, hafter, List.filter_append, List.filter_append, hdrop,
      hkeep before fun e he => hparts (.inl (hfront e he)),
      hkeep after fun e he => hparts (.inr (hback e he))]
    rfl

/-- Present keys of runs can be removed with their rows, run by run. -/
theorem eraseRuns_spec (ht : t.Aligned) (hrs : Spaced maxKey low rs)
    (h : rs.foldlM (fun s r => return (← s.eraseRange r.start r.stop).2) t.keys = .ok keys) :
    ∃ columns, rs.foldlM eraseRun t = .ok (t.replace keys columns) ∧
      (t.replace keys columns).Aligned ∧
      (t.replace keys columns).content = t.content.filter fun e => !Runs.contains rs e.1 := by
  induction rs generalizing t low with
  | nil =>
    obtain rfl := Except.ok.inj h
    exact ⟨t.columns, rfl, ht, (List.filter_true _).symm⟩
  | cons r rs ih =>
    obtain ⟨-, hr, hmax, hrest⟩ := hrs
    obtain ⟨i, keys₁, herase, h⟩ := foldlM_snd_cons_eq_ok.mp h
    -- the other runs are removed from what the first one leaves, at the positions they have there
    obtain ⟨columns₁, hrun, haligned, hcontent⟩ := eraseRun_spec ht hr hmax herase
    obtain ⟨columns, hruns, haligned', hcontent'⟩ := ih haligned hrest h
    refine ⟨columns, ?_, haligned', ?_⟩
    · rw [List.foldlM_cons, hrun]
      exact hruns
    · refine hcontent'.trans ?_
      rw [hcontent, List.filter_filter]
      refine List.filter_congr fun e _ => ?_
      rw [Runs.contains, Runs.contains, List.any_cons, Bool.not_or, Bool.and_comm]

/-- The removing phase of an update. -/
theorem removed_spec (ht : t.Aligned) {removed : KeySet}
    (h : t.keys.eraseAll removed = .ok keys) :
    ∃ columns, removed.runs.foldlM eraseRun t = .ok (t.replace keys columns) ∧
      (t.replace keys columns).Aligned ∧
      (t.replace keys columns).content = t.content.remove removed := by
  simp only [Content.remove, KeySet.contains_eq]
  exact eraseRuns_spec ht removed.spaced h

/-! ## Renumbering -/

/-- The renumbering phase of an update. Columns stay as they are, and so rows stay with their
keys. -/
theorem renumbered_spec (ht : t.Aligned) {shifts : Renumbering}
    (h : t.keys.renumber shifts = .ok keys) :
    ∃ moves, shifts.schedule = .ok moves ∧ (t.replace keys t.columns).Aligned ∧
      (t.replace keys t.columns).content = t.content.renumber moves := by
  obtain ⟨moves, hmoves, hfold⟩ := KeySpace.renumber_eq_ok_iff.mp h
  have hkeys := KeySpace.toList_foldlM_shift hfold
  have hsize : keys.size = t.rows := KeySpace.size_renumber h
  refine ⟨moves, hmoves, ht.replace ?_, ?_⟩
  · refine List.forall₂_same.mpr fun c hc => ⟨⟨rfl, rfl⟩, ?_⟩
    rw [ht.sizes c hc, hsize]
  · change keys.toList.zip (rowsOf keys.size t.cells) = _
    rw [hkeys, hsize, List.zip_map_left]
    rfl

/-! ## Adding -/

/-- Chunks that have the types of the columns and at least `w` cells are good for `w` rows anywhere
in the columns. They are left with their other cells. -/
theorem insertRows_spec
    (h : List.Forall₂ (fun c k => i ≤ c.size ∧ k.type = c.type ∧ w ≤ k.size) columns data) :
    ∃ columns', insertRows i w columns data =
        .ok (columns', data.map fun k => { k with cells := k.cells.drop w }) ∧
      List.Forall₂ (fun c c' => ∃ piece, piece.length = w ∧ c.Spliced i 0 piece c')
        columns columns' ∧
      List.Forall₂ (fun k c' => ∀ j < w, k.cells[j]? = (c'.toList.drop i)[j]?) data columns' := by
  induction h with
  | nil => exact ⟨[], rfl, .nil, .nil⟩
  | @cons c k columns data hck _ ih =>
    obtain ⟨hi, htype, hw⟩ := hck
    obtain ⟨columns', hinsert, hspliced, hcells⟩ := ih
    obtain ⟨c', hc', hsplice⟩ := Column.spliceIn_spec (k := { k with cells := k.cells.take w }) hi
      htype
    have hlen : (k.cells.take w).length = w := by
      rw [List.length_take, ← Chunk.size]
      omega
    refine ⟨c' :: columns', ?_, .cons ⟨_, hlen, hsplice⟩ hspliced, .cons (fun j hj => ?_) hcells⟩
    · rw [insertRows, Chunk.take_eq_ok hw, ok_bind, Chunk.drop_eq_ok hw, ok_bind, hc', ok_bind,
        hinsert]
      rfl
    · rw [← hsplice.between (by rwa [hlen]), List.getElem?_take_of_lt hj]

/-- Absent keys of a run can be added, with the next rows of data. -/
theorem addRun_spec (ht : t.Aligned) (hr : r.start < r.stop)
    (hdata : List.Forall₂ (fun (d : ColumnDef) k => k.type = d.type ∧ r.width ≤ k.size)
      t.schema.columns data)
    (h : t.keys.addRange r.start r.stop = .ok (i, keys)) :
    ∃ columns, addRun (t, data) r = .ok (t.replace keys columns,
        data.map fun k => { k with cells := k.cells.drop r.width }) ∧
      (t.replace keys columns).Aligned ∧
      (t.replace keys columns).content.Perm
        (t.content ++ r.keys.zip (rowsOf r.width (data.map Chunk.cells))) := by
  obtain ⟨front, back, hs, hs', rfl⟩ := KeySpace.toList_addRange hr h
  have hrows : t.rows = front.length + back.length := by
    rw [rows, ← KeySpace.length_toList, hs, List.length_append]
  have hkeys : keys.size = t.rows + r.width := by
    rw [hrows, ← KeySpace.length_toList, hs', List.length_append, List.length_append,
      Run.length_keys]
    omega
  have hfit : List.Forall₂ (fun c k => k.type = c.type ∧ r.width ≤ k.size) t.columns data :=
    forall₂_glue (fun d c k hc hk => ⟨hk.1.trans hc.1.symm, hk.2⟩) ht.columns hdata
  obtain ⟨columns, hinsert, hspliced, hcells⟩ := insertRows_spec (i := front.length)
    (((List.forall₂_and_left _ _).mpr ⟨ht.sizes, hfit⟩).imp fun c k h =>
      ⟨by rw [h.1]; omega, h.2⟩)
  refine ⟨columns, ?_, ht.replace ?_, ?_⟩
  · rw [addRun, h, ok_bind]
    change (insertRows front.length r.width t.columns data >>= _) = _
    rw [hinsert]
    rfl
  · refine ((List.forall₂_and_left _ _).mpr ⟨ht.sizes, hspliced⟩).imp fun c c' hc => ?_
    obtain ⟨hsize, piece, hpiece, hc⟩ := hc
    have := hc.size
    exact ⟨⟨hc.type, hc.backing⟩, by omega⟩
  · obtain ⟨before, after, -, -, hbefore, hafter⟩ :=
      content_splice [] r.keys hs hs' (hspliced.imp fun c c' hc => by
        rwa [Run.length_keys])
    have hnew : rowsOf r.width ((columns.map Column.toList).map (·.drop front.length)) =
        rowsOf r.width (data.map Chunk.cells) := by
      refine (rowsOf_congr ?_).symm
      rw [List.forall₂_map_left_iff, List.forall₂_map_right_iff, List.forall₂_map_right_iff]
      exact hcells
    rw [hbefore, hafter, Run.length_keys, hnew, List.zip_nil_left, List.nil_append,
      List.append_assoc]
    exact List.perm_append_comm.append_left before

/-- Absent keys of runs can be added, run by run, if there are as many rows of data. -/
theorem addRuns_spec (ht : t.Aligned) (hrs : Spaced limit low rs)
    (hdata : List.Forall₂ (fun (d : ColumnDef) k => k.type = d.type ∧ k.size = Runs.size rs)
      t.schema.columns data)
    (h : rs.foldlM (fun s r => return (← s.addRange r.start r.stop).2) t.keys = .ok keys) :
    ∃ columns left, rs.foldlM addRun (t, data) = .ok (t.replace keys columns, left) ∧
      (t.replace keys columns).Aligned ∧
      (t.replace keys columns).content.Perm
        (t.content ++ (Runs.toList rs).zip (rowsOf (Runs.size rs) (data.map Chunk.cells))) := by
  induction rs generalizing t data low with
  | nil =>
    obtain rfl := Except.ok.inj h
    refine ⟨t.columns, data, rfl, ht, ?_⟩
    rw [Runs.toList_nil, List.zip_nil_left, List.append_nil]
    exact .refl _
  | cons r rs ih =>
    obtain ⟨-, hr, -, hrest⟩ := hrs
    obtain ⟨i, keys₁, hadd, h⟩ := foldlM_snd_cons_eq_ok.mp h
    -- the first run takes as many rows as it is wide, and the other runs take the rest
    have hsize : Runs.size (r :: rs) = r.width + Runs.size rs := rfl
    obtain ⟨columns₁, hrun, haligned, hcontent⟩ := addRun_spec ht hr
      (hdata.imp fun c k hk => ⟨hk.1, by omega⟩) hadd
    have hleft : List.Forall₂ (fun (d : ColumnDef) k => k.type = d.type ∧ k.size = Runs.size rs)
        t.schema.columns (data.map fun k => { k with cells := k.cells.drop r.width }) := by
      refine List.forall₂_map_right_iff.mpr (hdata.imp fun d k hk => ⟨hk.1, ?_⟩)
      rw [Chunk.size, List.length_drop, ← Chunk.size]
      omega
    obtain ⟨columns, left, hruns, haligned', hcontent'⟩ := ih haligned hrest hleft h
    refine ⟨columns, left, ?_, haligned', ?_⟩
    · rw [List.foldlM_cons, hrun]
      exact hruns
    · refine hcontent'.trans ((hcontent.append_right _).trans ?_)
      rw [hsize, rowsOf_add, Runs.toList_cons,
        List.zip_append (by rw [Run.length_keys, length_rowsOf]), List.append_assoc, List.map_map,
        List.map_map]
      exact .refl _

/-- Rows bound to keys are in the order of the keys, so they are settled by what is bound. -/
theorem content_eq_add {m : Content} {added : KeySet} {new : List Row}
    (hm : m.Pairwise fun e f => e.1 < f.1)
    (h : t.content.Perm (m ++ added.toList.zip new)) : t.content = m.add added new := by
  have hadd : (m.add added new).Pairwise fun e f => decide (e.1 ≤ f.1) = true := by
    refine List.pairwise_merge ?_ ?_ _ _ ?_ ?_
    · simp only [decide_eq_true_eq]
      exact fun e f g => Nat.le_trans
    · intro e f
      simpa using Nat.le_total e.1 f.1
    · exact hm.imp fun h => decide_eq_true (Nat.le_of_lt h)
    · exact (pairwise_zip added.ascending new).imp fun h => decide_eq_true (Nat.le_of_lt h)
  have hperm : t.content.Perm (m.add added new) :=
    h.trans (List.merge_perm_append _).symm
  have hkeys : (t.content.map Prod.fst).Nodup := by
    rw [map_fst_content]
    exact t.keys.ascending.nodup
  -- both lists ascend, and no key is bound twice
  refine List.Perm.eq_of_pairwise (fun e f he hf hef hfe => ?_)
    (pairwise_content.imp fun h => decide_eq_true (Nat.le_of_lt h)) hadd hperm
  refine List.inj_on_of_nodup_map hkeys he (hperm.mem_iff.mpr hf) ?_
  exact Nat.le_antisymm (of_decide_eq_true hef) (of_decide_eq_true hfe)

/-- The adding phase of an update. -/
theorem added_spec (ht : t.Aligned) {added : KeySet}
    (hdata : List.Forall₂ (fun (d : ColumnDef) k => k.type = d.type ∧ k.size = added.size)
      t.schema.columns data)
    (h : t.keys.addAll added = .ok keys) :
    ∃ columns left, added.runs.foldlM addRun (t, data) = .ok (t.replace keys columns, left) ∧
      (t.replace keys columns).Aligned ∧ (t.replace keys columns).content =
        t.content.add added (rowsOf added.size (data.map Chunk.cells)) := by
  rw [added.size_eq] at hdata ⊢
  obtain ⟨columns, left, hruns, haligned, hcontent⟩ := addRuns_spec ht added.spaced hdata h
  rw [← added.size_eq] at hcontent ⊢
  exact ⟨columns, left, hruns, haligned, content_eq_add pairwise_content hcontent⟩

/-! ## Modifying -/

/-- Positions of keys are bound to cells just as the keys are. -/
theorem lookup_positions {s : KeySpace} {found : KeySet} {rows : KeySet} {new : List Cell} {k : Nat}
    (h : s.positions found = .ok rows) (hi : s.toList[i]? = some k) :
    (rows.toList.zip new).lookup i = (found.toList.zip new).lookup k := by
  obtain ⟨hrows, hpresent⟩ := KeySpace.toList_positions h
  rw [hrows, ← KeySpace.rank_eq_of_getElem? hi]
  -- a present key is settled by its rank
  refine lookup_zip_map fun a ha hrank => ?_
  have ha' := KeySpace.getElem?_rank (hpresent a ha)
  rw [← hrank, KeySpace.rank_eq_of_getElem? hi, hi] at ha'
  exact Option.some.inj ha'

/-- The rows of present keys can be modified, column by column. Every row of a key becomes what the
new cells make of it. -/
theorem modifyRows_spec {s : KeySpace} {modified rows : List KeySet}
    (hcolumns : List.Forall₂ (fun c k => c.size = s.size ∧ k.type = c.type) columns data)
    (hdata : List.Forall₂ (fun k (keys : KeySet) => k.size = keys.size) data modified)
    (hrows : List.Forall₂ (fun keys rows => s.positions keys = .ok rows) modified rows) :
    ∃ columns', modifyRows columns rows data = .ok columns' ∧
      List.Forall₂ (fun c c' => c.Like c' ∧ c'.size = s.size) columns columns' ∧
      ∀ i k, s.toList[i]? = some k → rowAt (columns'.map Column.toList) i =
        Content.edit k modified (data.map Chunk.cells) (rowAt (columns.map Column.toList) i) := by
  induction hcolumns generalizing modified rows with
  | nil =>
    refine ⟨[], rfl, .nil, fun i k _ => ?_⟩
    cases modified <;> rfl
  | @cons c k columns data hck _ ih =>
    obtain ⟨keys, modified, hk, hdata', rfl⟩ := List.forall₂_cons_left_iff.mp hdata
    obtain ⟨found, rows, hfound, hrows', rfl⟩ := List.forall₂_cons_left_iff.mp hrows
    obtain ⟨hsize, htype⟩ := hck
    obtain ⟨columns', hmodify, hlike, hrest⟩ := ih hdata' hrows'
    have hroom : found.size ≤ k.size := by
      rw [KeySpace.size_positions hfound, hk]
    have hbelow : ∀ p ∈ found.toList, p < c.size := fun p hp => by
      rw [hsize]
      exact KeySpace.lt_size_of_mem_positions hfound hp
    obtain ⟨c', hc', htype', hbacking, hsize', hread⟩ := Column.scatter_spec htype hroom hbelow
    refine ⟨c' :: columns', ?_, .cons ⟨⟨htype', hbacking⟩, hsize'.trans hsize⟩ hlike,
      fun i key hi => ?_⟩
    · rw [modifyRows, hc']
      change (modifyRows columns rows data >>= _) = _
      rw [hmodify]
      rfl
    · have hlt : i < c.toList.length := by
        rw [Column.length_toList, hsize, ← KeySpace.length_toList]
        exact (List.getElem?_eq_some_iff.mp hi).1
      have hcell : c'.toList[i]? =
          some (((keys.toList.zip k.cells).lookup key).getD c.toList[i]) := by
        rw [hread, lookup_positions hfound hi, List.getElem?_eq_getElem hlt]
        cases (keys.toList.zip k.cells).lookup key <;> rfl
      rw [List.map_cons, List.map_cons, List.map_cons, rowAt, rowAt, List.filterMap_cons,
        List.filterMap_cons, hcell, List.getElem?_eq_getElem hlt, Content.edit]
      exact congrArg _ (hrest i key hi)

/-- The modifying phase of an update. -/
theorem modified_spec (ht : t.Aligned) {modified rows : List KeySet}
    (hdata : modified = [] ∧ data = [] ∨
      List.Forall₂ (fun (d : ColumnDef) k => k.type = d.type) t.schema.columns data ∧
        List.Forall₂ (fun k (keys : KeySet) => k.size = keys.size) data modified)
    (hrows : modified.mapM t.keys.positions = .ok rows) :
    ∃ columns, modifyRows t.columns rows data = .ok columns ∧
      (t.replace t.keys columns).Aligned ∧ (t.replace t.keys columns).content =
        t.content.modify modified (data.map Chunk.cells) := by
  rcases hdata with ⟨rfl, rfl⟩ | ⟨htypes, hsizes⟩
  · obtain rfl : [] = rows := Except.ok.inj hrows
    refine ⟨t.columns, ?_, ht, (List.map_id' _).symm⟩
    cases t.columns <;> rfl
  · have hcolumns : List.Forall₂ (fun c k => c.size = t.keys.size ∧ k.type = c.type)
        t.columns data :=
      (List.forall₂_and_left _ _).mpr ⟨ht.sizes,
        forall₂_glue (fun d c k hc hk => hk.trans hc.1.symm) ht.columns htypes⟩
    obtain ⟨columns, hmodify, hlike, hread⟩ :=
      modifyRows_spec hcolumns hsizes (mapM_eq_ok.mp hrows)
    refine ⟨columns, hmodify, ht.replace hlike, ?_⟩
    refine List.ext_getElem ?_ fun i hi _ => ?_
    · rw [Content.modify, List.length_map, content, content, List.length_zip, List.length_zip,
        length_rowsOf, length_rowsOf]
      rfl
    · have hlt : i < t.keys.toList.length := by
        rw [content, List.length_zip] at hi
        exact (Nat.lt_min.mp hi).1
      simp only [content, replace, Content.modify, rowsOf, List.getElem_zip, List.getElem_map,
        List.getElem_range]
      exact congrArg _ (hread i _ (List.getElem?_eq_getElem hlt))

end LiveTable

end LiveTables
