import LiveTables.Proofs.Table.Acceptance
import LiveTables.Proofs.Update.Batches

/-!
# Updates whose batches are cut in other places

The sender of an update may cut its data into batches wherever it likes. Two updates that differ in
nothing else (`Schema.Regroups`) have the same plan or are refused with the same error, so they do
the same to a table, as long as each array is converted for its own cells
(`LiveTable.prepare_regrouped`).

An array brings along more than its cells: the lists stored around a part, the items of lists that
are not there, and offsets that may need more than 32 bits. If something of this cannot be
converted, the update is refused for cells that it does not have, however it would fare without them
(`LiveTable.apply_regrouped`, `LiveTable.exists_refused_cut`).
-/

namespace LiveTables

/-- Two updates that differ in nothing but where the batches of one kind are cut. -/
inductive Schema.Regroups (s : Schema) : Update → Update → Prop
  /-- the rows of added keys are cut in other places -/
  | added {u : Update} {batches : List Batch} (data : s.SameData u.addBatches batches)
      (even : ∀ b ∈ u.addBatches ++ batches, ∀ a ∈ b, ∀ a' ∈ b, a.size = a'.size) :
      Regroups s u { u with addBatches := batches }
  /-- the cells of modified keys are cut in other places -/
  | modified {u : Update} {batches : List Batch} (keys : u.modified ≠ [])
      (data : s.SameData u.modBatches batches) : Regroups s u { u with modBatches := batches }

theorem Schema.Regroups.symm {s : Schema} {u u' : Update} (h : s.Regroups u u') :
    s.Regroups u' u := by
  cases h with
  | added data even =>
    exact .added data.symm fun b hb => even b (List.mem_append.mpr (List.mem_append.mp hb).symm)
  | modified keys data => exact .modified keys data.symm

/-- All arrays of an update are clear. -/
def Update.Clear (u : Update) : Prop := Batches.Clear u.addBatches ∧ Batches.Clear u.modBatches

/-! ## An example

Visits are lists of instants, which come in seconds and are kept in nanoseconds. -/

namespace Visits

/-- One column of lists of instants. -/
def schema : Schema := ⟨[⟨"visits", .list .timestamp⟩], by simp⟩

/-- The encoding in which they come. -/
def encoding : Encoding := .list false "item" true (.timestamp .second none)

/-- A list of one visit, no list, and a list of no visits. -/
def lists : EncodedArray :=
  .ofCells encoding [.list [.int 7], .null, .list []]
    (by simp [encoding, Encoding.holds, Cell.isInt]) rfl

/-- Two lists, of which the first one has an instant that is out of range. -/
def late : EncodedArray :=
  .ofCells encoding [.list [.int 9223372042], .list [.int 7]]
    (by simp [encoding, Encoding.holds, Cell.isInt]) rfl

/-- A list of one visit. Of a list that is not there, an instant that is out of range is stored. -/
def absent : EncodedArray where
  layout := .lists false "item" true [0, 1, 2] (some [true, false])
    (.flat (.timestamp .second none) [.int 7, .int 9223372042])
  sound := .lists (.flat rfl (by decide)) ⟨by decide, by decide, by decide⟩
    (fun l hl => by cases hl; rfl) (fun _ _ => rfl) fun _ => by decide

@[simp] theorem encoding_lists : lists.encoding = encoding := EncodedArray.encoding_ofCells ..

@[simp] theorem cells_lists : lists.cells = [.list [.int 7], .null, .list []] :=
  EncodedArray.cells_ofCells ..

@[simp] theorem encoding_late : late.encoding = encoding := EncodedArray.encoding_ofCells ..

@[simp] theorem cells_late : late.cells = [.list [.int 9223372042], .list [.int 7]] :=
  EncodedArray.cells_ofCells ..

/-- An update that adds `n` keys with the rows of some batches. -/
def adding (n : Nat) (batches : List Batch) : Update :=
  { added := .ofRange 4 (4 + n), addBatches := batches }

/-- Batches of one array each regroup visits if they hold the same ones. -/
theorem regroups {n : Nat} {batches batches' : List Batch}
    (hne : batches ≠ [] ∧ batches' ≠ [])
    (hform : ∀ b ∈ batches ++ batches', ∃ a, b = [a] ∧ a.encoding = encoding)
    (hcells : (Batches.column 0 batches).flatMap EncodedArray.cells =
      (Batches.column 0 batches').flatMap EncodedArray.cells) :
    schema.Regroups (adding n batches) (adding n batches') := by
  have hwidth : ∀ b ∈ batches ++ batches', b.length = 1 := fun b hb => by
    obtain ⟨a, rfl, -⟩ := hform b hb
    rfl
  have hnone : ∀ {j : Nat}, 0 < j → ∀ b ∈ batches ++ batches', b.length ≤ j := fun hj b hb =>
    hwidth b hb ▸ hj
  refine .added (u := adding n batches) ⟨hne, hwidth, fun j => ⟨encoding, ?_⟩, fun j => ?_⟩ ?_
  · intro a ha
    obtain ⟨b, hb, hget⟩ := List.mem_filterMap.mp ha
    obtain ⟨a', rfl, henc⟩ := hform b hb
    rwa [List.mem_singleton.mp (List.mem_of_getElem? hget)]
  · cases j with
    | zero => exact hcells
    | succ j =>
      obtain ⟨hl, hr⟩ := List.forall_mem_append.mp (hnone (Nat.zero_lt_succ j))
      have hboth : Batches.column (j + 1) batches = Batches.column (j + 1) batches' :=
        (Batches.column_eq_nil hl).trans (Batches.column_eq_nil hr).symm
      exact congrArg (List.flatMap EncodedArray.cells) hboth
  · intro b hb a ha a' ha'
    obtain ⟨c, rfl, -⟩ := hform b hb
    rw [List.mem_singleton.mp ha, List.mem_singleton.mp ha']

/-- Clear batches make a clear update. -/
theorem clear_adding {n : Nat} {batches : List Batch} (h : ∀ b ∈ batches, ∀ a ∈ b, a.Clear) :
    (adding n batches).Clear :=
  ⟨h, fun _ hb => absurd hb List.not_mem_nil⟩

end Visits

namespace LiveTable

variable {t t' : LiveTable} {u u' : Update} {p : Plan} {change : Change}

/-- Clear data is prepared in the same way wherever it is cut. -/
theorem prepare_regrouped (h : t.schema.Regroups u u') (hclear : u.Clear) (hclear' : u'.Clear) :
    t.prepare u = t.prepare u' := by
  cases h with
  | added data even =>
    have hdata := data.addedData_eq u.added even hclear.1 hclear'.1
    simp [prepare, hdata, data.nonempty]
  | modified keys data =>
    have hdata := data.modifiedData_eq keys hclear.2 hclear'.2
    simp [prepare, hdata, data.nonempty]

/-- Data that was prepared is clear, since all of it was converted. -/
theorem clear_of_prepare (h : t.schema.Regroups u u') (hp : t.prepare u = .ok p) : u.Clear := by
  have hform := admits_of_prepare hp
  cases h with
  | added data even =>
    have hnone : u.modBatches = [] := hform.exclusive.resolve_left data.nonempty.1
    refine ⟨fun b hb => (hform.added.takes b hb).clear, ?_⟩
    rw [hnone]
    exact fun b hb => absurd hb List.not_mem_nil
  | modified keys data =>
    have hnone : u.addBatches = [] := hform.exclusive.resolve_right data.nonempty.1
    have hfits := hform.modified.resolve_left fun hnone => keys hnone.1
    refine ⟨?_, fun b hb => (hfits.takes b hb).clear⟩
    rw [hnone]
    exact fun b hb => absurd hb List.not_mem_nil

/-- What an update does is settled by its plan. -/
theorem apply_congr (h : t.prepare u = t.prepare u') : t.apply u = t.apply u' := by
  rw [apply, apply, h]

theorem exists_prepare_of_apply (h : t.apply u = (.ok change, t')) : ∃ p, t.prepare u = .ok p := by
  rw [apply] at h
  split at h
  · cases h
  · split at h
    · cases h
    · exact ⟨_, ‹_›⟩

/-- Where the batches of an update end is of no consequence, as long as nothing is in the way of a
conversion but the cells. Two updates of such arrays that differ only in where their batches end do
the same, or are refused alike. Where one of them is accepted, the other does the same just if all
of its arrays are such. -/
theorem apply_regrouped (t : LiveTable) (h : t.schema.Regroups u u') :
    (u.Clear → u'.Clear → t.apply u = t.apply u') ∧
      ∀ change t', t.apply u' = (.ok change, t') → (t.apply u = t.apply u' ↔ u.Clear) := by
  have hsame : u.Clear → u'.Clear → t.apply u = t.apply u' := fun hclear hclear' =>
    apply_congr (prepare_regrouped h hclear hclear')
  refine ⟨hsame, fun change t' haccepted => ⟨fun happly => ?_, fun hclear => hsame hclear ?_⟩⟩
  · obtain ⟨p, hp⟩ := exists_prepare_of_apply (happly.trans haccepted)
    exact clear_of_prepare h hp
  · obtain ⟨p, hp⟩ := exists_prepare_of_apply haccepted
    exact clear_of_prepare h.symm hp

/-- Three lists may as well come one by one, with a batch in between that has none. -/
theorem apply_regrouped_of_visits : ∃ (u u' : Update) (change : Change) (t' : LiveTable),
    u.addBatches.map (·.map EncodedArray.size) = [[1], [0], [2]] ∧
    u'.addBatches.map (·.map EncodedArray.size) = [[3]] ∧ u'.Clear ∧ u.Clear ∧
    (LiveTable.new Visits.schema {}).apply u' = (.ok change, t') ∧
    (LiveTable.new Visits.schema {}).apply u = (.ok change, t') := by
  let cut : List Batch :=
    [[Visits.lists.slice 0 1], [Visits.lists.slice 1 0], [Visits.lists.slice 1 2]]
  have hregroups : Visits.schema.Regroups (Visits.adding 3 cut)
      (Visits.adding 3 [[Visits.lists]]) :=
    Visits.regroups (by simp [cut]) (by simp [cut]) (by simp [cut, Batches.column])
  have hcells : Visits.lists.cellsAs (.list .timestamp) =
      .ok [.list [.int 7000000000], .null, .list []] := rfl
  have hwhole : (Visits.adding 3 [[Visits.lists]]).Clear :=
    Visits.clear_adding (by simpa using EncodedArray.clear_of_cellsAs hcells)
  have hparts : ∀ i n, (Visits.lists.slice i n).Clear := fun i n =>
    EncodedArray.clear_of_cellsAs (EncodedArray.cellsAs_slice hcells)
  have hcut : (Visits.adding 3 cut).Clear :=
    Visits.clear_adding (by simp [cut, hparts])
  have happly := (apply_regrouped (LiveTable.new Visits.schema {}) hregroups).1 hcut hwhole
  exact ⟨_, _, _, _, rfl, rfl, hwhole, hcut, rfl, happly⟩

/-- The second of two lists is added by the update that has it alone, and not by the one that has it
as a part of the array of both. -/
theorem exists_refused_cut : ∃ (t : LiveTable) (u u' : Update), Reachable t ∧
    t.schema.Regroups u u' ∧ (∃ change t', t.apply u' = (.ok change, t')) ∧
    t.apply u = (.error (.conversion (.overflow 9223372042 1000000000)), t) ∧
    t.apply u ≠ t.apply u' := by
  let alone : EncodedArray := .ofCells Visits.encoding [.list [.int 7]]
    (by simp [Visits.encoding, Encoding.holds, Cell.isInt]) rfl
  have hencoding : alone.encoding = Visits.encoding := EncodedArray.encoding_ofCells ..
  have hcells : alone.cells = [.list [.int 7]] := EncodedArray.cells_ofCells ..
  have hregroups : Visits.schema.Regroups (Visits.adding 1 [[Visits.late.slice 1 1]])
      (Visits.adding 1 [[alone]]) :=
    Visits.regroups (by simp) (by simp [hencoding]) (by simp [hcells, Batches.column])
  have haccepted : ∃ change t', (LiveTable.new Visits.schema {}).apply (Visits.adding 1 [[alone]]) =
      (.ok change, t') := ⟨_, _, rfl⟩
  have hrefused : (LiveTable.new Visits.schema {}).apply
      (Visits.adding 1 [[Visits.late.slice 1 1]]) =
      (.error (.conversion (.overflow 9223372042 1000000000)), LiveTable.new Visits.schema {}) :=
    rfl
  refine ⟨_, _, _, .new Visits.schema {}, hregroups, haccepted, hrefused, fun hsame => ?_⟩
  obtain ⟨change, t', happly⟩ := haccepted
  cases hrefused.symm.trans (hsame.trans happly)

/-- An array that is no part of another one can be refused for what is not there as well. -/
example : Visits.absent.cells = [.list [.int 7], .null] ∧
    ((LiveTable.new Visits.schema {}).apply (Visits.adding 2 [[Visits.absent]])).1 =
      .error (.conversion (.overflow 9223372042 1000000000)) := ⟨rfl, rfl⟩

end LiveTable

end LiveTables
