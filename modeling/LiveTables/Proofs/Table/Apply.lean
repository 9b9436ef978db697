import LiveTables.Proofs.Table.Phases
import LiveTables.Proofs.Update.Data

/-!
# Applying updates

What `LiveTable.prepare` rehearses on a copy of the keys is what `LiveTable.commit` then does to the
keys (`LiveTable.Rehearsed`). In an aligned table the columns can follow in each phase, so a commit
of what was prepared never fails (`LiveTable.commit_spec`). Aligned tables are all that a table
without rows can become by updates (`LiveTable.Reachable.settled`). So such a table is never
poisoned, an update that is refused changes nothing, and one that is accepted does to the content
what it says.
-/

namespace LiveTables

namespace LiveTable

variable {t t' : LiveTable} {u : Update} {p : Plan} {erased shifted final : KeySpace}

/-! ## What a preparation has found out -/

/-- The plan is what comes of rehearsing the update, and the three key spaces are those after
removing, renumbering and adding. -/
structure Rehearsed (t : LiveTable) (u : Update) (p : Plan) (erased shifted final : KeySpace) :
    Prop where
  removed : p.removed = u.removed
  shifts : p.shifts = u.shifts
  added : p.added = u.added
  addedData : t.schema.addedData u.added u.addBatches = .ok p.addedData
  modifiedData : t.schema.modifiedData u.modified u.modBatches = .ok p.modifiedData
  removedRows : t.keys.positions u.removed = .ok p.removedRows
  eraseAll : t.keys.eraseAll u.removed = .ok erased
  renumber : erased.renumber u.shifts = .ok shifted
  addAll : shifted.addAll u.added = .ok final
  addedRows : final.positions u.added = .ok p.addedRows
  modifiedRows : u.modified.mapM final.positions = .ok p.modifiedRows
  finalSize : p.finalSize = final.size

theorem rehearsed_of_prepare (h : t.prepare u = .ok p) :
    ∃ erased shifted final, t.Rehearsed u p erased shifted final := by
  rw [prepare] at h
  split at h
  · cases h
  simp only [bind_eq_ok, pure_eq_ok] at h
  obtain ⟨⟨⟩, -, addedData, hadded, modifiedData, hmodified, removedRows, hremovedRows, erased,
    herase, shifted, hrenumber, final, haddAll, addedRows, haddedRows, modifiedRows, hmodifiedRows,
    rfl⟩ := h
  exact ⟨erased, shifted, final, rfl, rfl, rfl, hadded, hmodified, hremovedRows, herase, hrenumber,
    haddAll, haddedRows, hmodifiedRows, rfl⟩

/-- In an aligned table the last check of a commit finds nothing. -/
theorem Aligned.verify_eq_ok (ht : t.Aligned) : t.verify = .ok () := by
  rw [verify]
  split
  · exact forM_zipIdx_eq_ok.mpr fun i c hc => if_pos (ht.sizes c (List.mem_of_getElem? hc))
  · rfl

/-- The phase of an update has nothing to do with keys and columns. -/
theorem Aligned.enter (ht : t.Aligned) (phase : Phase) : (t.enter phase).Aligned :=
  ⟨ht.columns, ht.sizes⟩

/-- The steps of a commit, one after another. Where each of them succeeds and the last one leaves an
aligned table, so does the whole. -/
theorem commit_eq_ok {columns₁ columns₂ columns₃ : List Column} {left : List Chunk}
    (herase : p.removed.runs.foldlM eraseRun (t.enter .applyingRemoves) =
      .ok ((t.replace erased columns₁).enter .applyingRemoves))
    (hrenumber : erased.renumber p.shifts = .ok shifted)
    (hadd : p.added.runs.foldlM addRun
        ((t.replace shifted columns₁).enter .applyingAdds, p.addedData) =
      .ok ((t.replace final columns₂).enter .applyingAdds, left))
    (hmodify : modifyRows columns₂ p.modifiedRows p.modifiedData = .ok columns₃)
    (hsize : p.finalSize = final.size) (hfinal : (t.replace final columns₃).Aligned) :
    t.commit p = .ok ((t.replace final columns₃).enter .idle, {
      beforeRemoves := t.snapshot
      beforeModifies := (t.replace shifted columns₁).snapshot
      current := (t.replace final columns₃).snapshot
      removed := p.removedRows
      modified := p.modifiedRows
      added := p.addedRows }) := by
  have hrows : ((t.replace final columns₃).enter .idle).requireRows p.finalSize = .ok () :=
    if_pos hsize.symm
  rw [commit, herase, ok_bind]
  change (erased.renumber p.shifts >>= _) = _
  rw [hrenumber, ok_bind]
  change (p.added.runs.foldlM addRun ((t.replace shifted columns₁).enter .applyingAdds,
    p.addedData) >>= _) = _
  rw [hadd, ok_bind]
  change (modifyRows columns₂ p.modifiedRows p.modifiedData >>= _) = _
  rw [hmodify, ok_bind]
  change (((t.replace final columns₃).enter .idle).requireRows p.finalSize >>= _) = _
  rw [hrows, ok_bind]
  change (((t.replace final columns₃).enter .idle).verify >>= _) = _
  rw [(hfinal.enter .idle).verify_eq_ok]
  rfl

/-- What was prepared is committed. The columns are those after removing and renumbering, after
adding, and after modifying. -/
structure Committed (t : LiveTable) (u : Update) (p : Plan) (erased shifted final : KeySpace)
    (moves : List Move) (columns₁ columns₂ columns₃ : List Column) : Prop where
  schedule : u.shifts.schedule = .ok moves
  commit : t.commit p = .ok ((t.replace final columns₃).enter .idle, {
    beforeRemoves := t.snapshot
    beforeModifies := (t.replace shifted columns₁).snapshot
    current := (t.replace final columns₃).snapshot
    removed := p.removedRows
    modified := p.modifiedRows
    added := p.addedRows })
  alignedErased : (t.replace erased columns₁).Aligned
  alignedShifted : (t.replace shifted columns₁).Aligned
  alignedGrown : (t.replace final columns₂).Aligned
  alignedFinal : (t.replace final columns₃).Aligned
  remove : (t.replace erased columns₁).content = t.content.remove u.removed
  renumber : (t.replace shifted columns₁).content =
    (t.replace erased columns₁).content.renumber moves
  add : (t.replace final columns₂).content = (t.replace shifted columns₁).content.add u.added
    (rowsOf u.added.size (p.addedData.map Chunk.cells))
  modify : (t.replace final columns₃).content = (t.replace final columns₂).content.modify u.modified
    (p.modifiedData.map Chunk.cells)

/-- What was prepared can be committed. The table stays aligned in each phase, and its content goes
the way that the update describes. -/
theorem commit_spec (ht : t.Aligned) (h : t.Rehearsed u p erased shifted final) :
    ∃ moves columns₁ columns₂ columns₃,
      t.Committed u p erased shifted final moves columns₁ columns₂ columns₃ := by
  obtain ⟨hadded, haddedSizes⟩ := Schema.addedData_spec h.addedData
  have haddedData : List.Forall₂ (fun (d : ColumnDef) k => k.type = d.type ∧
      k.size = u.added.size) t.schema.columns p.addedData :=
    List.forall₂_iff_zip.mpr ⟨hadded.types.length_eq, fun {d k} hk =>
      ⟨(List.forall₂_iff_zip.mp hadded.types).2 hk, haddedSizes k (List.of_mem_zip hk).2⟩⟩
  have hmodifiedData := (Schema.modifiedData_spec h.modifiedData).imp_right fun hm =>
    And.intro hm.1.types hm.2
  -- each phase takes over the table of the one before; the name of the phase is all that differs
  obtain ⟨columns₁, herase, halignedᵣ, hremove⟩ :=
    removed_spec (ht.enter .applyingRemoves) h.eraseAll
  have herased : (t.replace erased columns₁).Aligned := halignedᵣ.enter t.phase
  obtain ⟨moves, hmoves, halignedₛ, hrenumber⟩ :=
    renumbered_spec (herased.enter .applyingShifts) h.renumber
  have hshifted : (t.replace shifted columns₁).Aligned := halignedₛ.enter t.phase
  obtain ⟨columns₂, left, hadds, halignedₐ, hadd⟩ :=
    added_spec (hshifted.enter .applyingAdds) haddedData h.addAll
  have hgrown : (t.replace final columns₂).Aligned := halignedₐ.enter t.phase
  obtain ⟨columns₃, hmodifies, halignedₘ, hmodify⟩ :=
    modified_spec (hgrown.enter .applyingModifies) hmodifiedData h.modifiedRows
  have hfinal : (t.replace final columns₃).Aligned := halignedₘ.enter t.phase
  refine ⟨moves, columns₁, columns₂, columns₃, hmoves, ?_, herased, hshifted, hgrown, hfinal,
    hremove, hrenumber, hadd, hmodify⟩
  rw [← h.removed] at herase
  rw [← h.added] at hadds
  exact commit_eq_ok herase (h.shifts ▸ h.renumber) hadds hmodifies h.finalSize hfinal

/-! ## Tables between updates -/

/-- A table is settled if no update is under way, none has failed half way, and columns and keys
agree. -/
structure Settled (t : LiveTable) : Prop where
  aligned : t.Aligned
  idle : t.phase = .idle
  sound : t.poisoned = false

/-- A table without rows is settled. -/
theorem settled_new (schema : Schema) (config : TableConfig) : (new schema config).Settled where
  aligned := by
    refine ⟨List.forall₂_map_right_iff.mpr (List.forall₂_same.mpr fun d _ => ⟨rfl, ?_⟩), ?_⟩
    · exact Cells.backing_ofList _ _
    · intro c hc
      obtain ⟨d, -, rfl⟩ := List.mem_map.mp hc
      change (Column.empty d.type config.backing).size = 0
      cases config.backing <;> rfl
  idle := rfl
  sound := rfl

/-- An update of a settled table is refused and changes nothing, or it is prepared and committed. -/
theorem Settled.apply_cases (h : t.Settled) (u : Update) :
    (∃ e, t.prepare u = .error e ∧ t.apply u = (.error e, t)) ∨
    ∃ p after change, t.prepare u = .ok p ∧ t.commit p = .ok (after, change) ∧
      t.apply u = (.ok change, after) ∧ after.Settled := by
  have hsound : ¬ (t.poisoned = true) := by simp [h.sound]
  rw [apply, if_neg hsound]
  cases hp : t.prepare u with
  | error e => exact .inl ⟨e, rfl, rfl⟩
  | ok p =>
    obtain ⟨erased, shifted, final, hrehearsed⟩ := rehearsed_of_prepare hp
    obtain ⟨_, _, _, _, hc⟩ := commit_spec h.aligned hrehearsed
    refine .inr ⟨p, _, _, rfl, hc.commit, ?_, hc.alignedFinal.enter .idle, rfl, h.sound⟩
    simp only [hc.commit]

/-- A table that refuses an update is as it was. -/
theorem Settled.refused_or_accepted (h : t.Settled) (u : Update) :
    (∃ e, t.apply u = (.error e, t)) ∨ ∃ change t', t.apply u = (.ok change, t') := by
  rcases h.apply_cases u with ⟨e, -, happly⟩ | ⟨p, t', change, -, -, happly, -⟩
  · exact .inl ⟨e, happly⟩
  · exact .inr ⟨change, t', happly⟩

/-- Updates, accepted or refused, leave a settled table settled. -/
theorem Settled.apply (h : t.Settled) (u : Update) : (t.apply u).2.Settled := by
  rcases h.apply_cases u with ⟨e, -, happly⟩ | ⟨p, after, change, -, -, happly, hafter⟩
  · rw [happly]
    exact h
  · rw [happly]
    exact hafter

/-- An update that is accepted was rehearsed and committed, and what it reports are the snapshots
and the rows of the plan. -/
theorem Settled.apply_eq_ok {change : Change} (h : t.Settled) (hu : t.apply u = (.ok change, t')) :
    ∃ p erased shifted final moves columns₁ columns₂ columns₃,
      t.Rehearsed u p erased shifted final ∧
      t.Committed u p erased shifted final moves columns₁ columns₂ columns₃ ∧
      t' = (t.replace final columns₃).enter .idle ∧
      change = {
        beforeRemoves := t.snapshot
        beforeModifies := (t.replace shifted columns₁).snapshot
        current := (t.replace final columns₃).snapshot
        removed := p.removedRows
        modified := p.modifiedRows
        added := p.addedRows } := by
  rcases h.apply_cases u with ⟨e, -, hrefused⟩ | ⟨p, after, change', hp, hcommit, hdone, -⟩
  · rw [hrefused] at hu
    cases (Prod.mk.inj hu).1
  · rw [hdone] at hu
    obtain ⟨hchange, hafter⟩ := Prod.mk.inj hu
    obtain rfl := Except.ok.inj hchange
    obtain rfl := hafter
    obtain ⟨erased, shifted, final, hr⟩ := rehearsed_of_prepare hp
    obtain ⟨moves, columns₁, columns₂, columns₃, hc⟩ := commit_spec h.aligned hr
    obtain ⟨rfl, rfl⟩ := Prod.mk.inj (Except.ok.inj (hcommit.symm.trans hc.commit))
    exact ⟨p, erased, shifted, final, moves, columns₁, columns₂, columns₃, hr, hc, rfl, rfl⟩

/-- The tables that a table without rows can become by updates, accepted or refused. -/
inductive Reachable : LiveTable → Prop
  | new (schema : Schema) (config : TableConfig) : Reachable (new schema config)
  | apply {t : LiveTable} (h : Reachable t) (u : Update) : Reachable (t.apply u).2

/-- Between updates a table is settled. -/
theorem Reachable.settled (h : Reachable t) : t.Settled := by
  induction h with
  | new schema config => exact settled_new schema config
  | apply _ u ih => exact ih.apply u

end LiveTable

/-! ## A small table

Two quotes and an update of them, for instances of the general results. -/

namespace Quotes

/-- One column of whole numbers. -/
def schema : Schema := ⟨[⟨"price", .int64⟩], by simp⟩

/-- Two prices. -/
def prices : EncodedArray :=
  .ofCells .int64 [.int 50, .int 70] (by simp [Encoding.holds, Cell.isInt]) rfl

/-- Keys 5 and 7 with a price each. -/
def start : Update where
  added := ⟨[⟨5, 6⟩, ⟨7, 8⟩], by simp [Spaced, maxKey]⟩
  addBatches := [[prices]]

/-- The table that has keys 5 and 7. -/
def table : LiveTable := ((LiveTable.new schema {}).apply start).2

/-- Key 5 vanishes and key 7 becomes key 3. -/
def move : Update where
  removed := .ofRange 5 6
  shifts := ⟨.ofRange 7 8, .ofRange 7 8, .ofRange 3 4⟩

/-- What is left of the keys then. -/
def moved : KeySpace := ⟨[⟨3, 4⟩], by simp [Spaced, maxKey]⟩

/-- Besides, key 3 gets another price. -/
def reprice : Update :=
  { move with modified := [.ofRange 3 4], modBatches := [[prices.slice 0 1]] }

theorem reachable_table : table.Reachable := .apply (.new schema {}) start

end Quotes

/-! ## What an update does -/

namespace LiveTable

variable {t t' : LiveTable} {u : Update}

/-- Whatever is wrong with an update is found before anything is changed. What was prepared can be
committed, so no table is ever poisoned, and a table that has refused an update is as it was. -/
theorem Reachable.apply_atomic (h : Reachable t) (u : Update) :
    t.poisoned = false ∧ t.phase = .idle ∧
    (∀ p, t.prepare u = .ok p → ∃ after change, t.commit p = .ok (after, change)) ∧
    ∀ e after, t.apply u = (.error e, after) → after = t := by
  refine ⟨h.settled.sound, h.settled.idle, fun p hp => ?_, fun e after happly => ?_⟩
  · obtain ⟨erased, shifted, final, hrehearsed⟩ := rehearsed_of_prepare hp
    obtain ⟨_, _, _, _, hc⟩ := commit_spec h.settled.aligned hrehearsed
    exact ⟨_, _, hc.commit⟩
  · rcases h.settled.apply_cases u with ⟨e', -, hrefused⟩ | ⟨p, after', change, -, -, hdone, -⟩
    · rw [hrefused] at happly
      exact (Prod.mk.inj happly).2.symm
    · rw [hdone] at happly
      cases (Prod.mk.inj happly).1

/-- The last key of an update is absent: nothing of the update is done. -/
theorem Reachable.apply_refused : ∃ (t : LiveTable) (u : Update) (e : Error), Reachable t ∧
    t.keys.toList = [5, 7] ∧ t.apply u = (.error e, t) ∧ t.poisoned = false := by
  let u : Update := {
    removed := .ofRange 5 6
    modified := [⟨[⟨7, 8⟩, ⟨9, 10⟩], by simp [Spaced, maxKey]⟩]
    modBatches := [[Quotes.prices]] }
  have hkeys : Quotes.table.keys.toList = [5, 7] := by decide +kernel
  have hrefused : (Quotes.table.apply u).1.toOption.isNone = true := by decide +kernel
  obtain ⟨hsound, -, -, hsame⟩ := Reachable.apply_atomic Quotes.reachable_table u
  cases happly : Quotes.table.apply u with
  | mk answer after =>
    rw [happly] at hrefused
    cases answer with
    | ok change => cases hrefused
    | error e =>
      rw [hsame e after happly] at happly
      exact ⟨Quotes.table, u, e, Quotes.reachable_table, hkeys, happly, hsound⟩

/-- An update that is accepted does to the content what it says: keys vanish, the others are
renumbered by one move after another, new keys get the rows of the add batches, and modified keys
get the cells of the batches of modifications. All other cells stay with their keys. -/
theorem Reachable.content_apply (h : Reachable t) {change : Change}
    (hu : t.apply u = (.ok change, t')) :
    ∃ moves added new, u.shifts.schedule = .ok moves ∧
      t.schema.Holds u.addBatches added ∧ (∀ k ∈ added, k.size = u.added.size) ∧
      (u.modified ≠ [] → t.schema.Holds u.modBatches new ∧
        List.Forall₂ (fun k (keys : KeySet) => k.size = keys.size) new u.modified) ∧
      t'.content = (((t.content.remove u.removed).renumber moves).add u.added
        (rowsOf u.added.size (added.map Chunk.cells))).modify u.modified (new.map Chunk.cells) ∧
      t'.schema = t.schema ∧ ∀ e ∈ t'.content, e.2.length = t'.schema.width := by
  rcases h.settled.apply_cases u with
    ⟨e, -, hrefused⟩ | ⟨p, after, change', hp, hcommit, hdone, hafter⟩
  · rw [hrefused] at hu
    cases (Prod.mk.inj hu).1
  · rw [hdone] at hu
    obtain rfl : after = t' := (Prod.mk.inj hu).2
    obtain ⟨erased, shifted, final, hr⟩ := rehearsed_of_prepare hp
    obtain ⟨moves, _, _, _, hc⟩ := commit_spec h.settled.aligned hr
    obtain ⟨hadded, hsizes⟩ := Schema.addedData_spec hr.addedData
    obtain ⟨rfl, -⟩ := Prod.mk.inj (Except.ok.inj (hcommit.symm.trans hc.commit))
    refine ⟨moves, p.addedData, p.modifiedData, hc.schedule, hadded, hsizes, fun hne => ?_, ?_, rfl,
      fun e he => hafter.aligned.length_row he⟩
    · rcases Schema.modifiedData_spec hr.modifiedData with ⟨hnone, -⟩ | hmodified
      · exact absurd hnone hne
      · exact hmodified
    · rw [← hc.remove, ← hc.renumber, ← hc.add, ← hc.modify]
      rfl

/-- Key 5 vanishes, key 7 becomes key 3, and then the cell of key 3 is replaced. -/
theorem Reachable.content_apply_of_moved : ∃ (t t' : LiveTable) (u : Update) (change : Change)
    (moves : List Move) (added new : List Chunk), Reachable t ∧ t.keys.toList = [5, 7] ∧
    t'.keys.toList = [3] ∧ t.apply u = (.ok change, t') ∧
    t'.content = (((t.content.remove u.removed).renumber moves).add u.added
      (rowsOf u.added.size (added.map Chunk.cells))).modify u.modified (new.map Chunk.cells) := by
  have hkeys : Quotes.table.keys.toList = [5, 7] := by decide +kernel
  have hkeys' : (Quotes.table.apply Quotes.reprice).2.keys.toList = [3] := by decide +kernel
  have haccepted : (Quotes.table.apply Quotes.reprice).1.toOption.isSome = true := by
    decide +kernel
  cases happly : Quotes.table.apply Quotes.reprice with
  | mk answer after =>
    rw [happly] at haccepted hkeys'
    cases answer with
    | error e => cases haccepted
    | ok change =>
      obtain ⟨moves, added, new, -, -, -, -, hcontent, -⟩ :=
        Reachable.content_apply Quotes.reachable_table happly
      exact ⟨Quotes.table, after, Quotes.reprice, change, moves, added, new,
        Quotes.reachable_table, hkeys, hkeys', happly, hcontent⟩

end LiveTable

end LiveTables
