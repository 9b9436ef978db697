import LiveTables.Proofs.Column.Backing
import LiveTables.Proofs.Lookup

/-!
# What scripts show

A script shows whether its steps went through, and what its slots hold. A step that works on slots
whose columns are stored in another way shows the same (`Slots.run_restore`). So do two scripts
that are alike but for the backings that they ask for, after every step (`Slots.trace_of_alike`).

What becomes of the backings is said by `Slots.run_stores`: a column in a slot keeps its backing
until a step puts another thing into the slot, and that has the backing that was asked for, or the
one of the column that it was made of.
-/

namespace LiveTables

namespace Slot

variable {b : Backing}

/-- The slot with its column stored in another way. -/
def restore (b : Backing) : Slot → Slot
  | column c => .column (c.restore b)
  | chunk k => .chunk k

/-- What can be seen of a slot: a column or a chunk, but not how the column is stored. -/
def shown : Slot → Chunk ⊕ Chunk
  | column c => .inl c.contents
  | chunk k => .inr k

/-- How the column in a slot is stored, if there is one. -/
def backing? : Slot → Option Backing
  | column c => some c.backing
  | chunk _ => none

@[simp] theorem shown_restore (x : Slot) : (x.restore b).shown = x.shown := by
  cases x with
  | column c => exact congrArg Sum.inl Column.contents_restore
  | chunk k => rfl

/-- A slot that is seen, with its column stored in a way. -/
def store (b : Backing) : Chunk ⊕ Chunk → Slot
  | .inl k => column (.ofChunk k b)
  | .inr k => chunk k

/-- To store a slot in a way nothing has to be known of it but what can be seen. -/
@[simp] theorem store_shown (x : Slot) : store b x.shown = x.restore b := by
  cases x <;> rfl

/-- A column that is made, stored in another way, is put into a slot stored in this way. -/
theorem map_column {made made' : Except Error Column} (h : made' = Column.restore b <$> made) :
    made'.map column = restore b <$> made.map column := by
  rw [h]
  cases made <;> rfl

/-- A chunk that is made is put into a slot as it is. -/
theorem map_chunk (made : Except Error Chunk) : made.map chunk = restore b <$> made.map chunk := by
  cases made <;> rfl

/-- A slot with a column that is made has the backing in which this is stored. -/
theorem backing?_of_made {made : Except Error Column} (h : made = Column.restore b <$> made) :
    ∀ x, made.map column = .ok x → x.backing? = some b := by
  intro x hx
  cases hd : made with
  | error e =>
    rw [hd] at hx
    cases hx
  | ok d =>
    rw [hd] at hx
    obtain rfl := Except.ok.inj hx
    exact congrArg some (Column.backing_of_made h hd)

/-- A slot with a chunk that is made has no backing. -/
theorem backing?_of_made_chunk {made : Except Error Chunk} :
    ∀ x, made.map chunk = .ok x → x.backing? = none := by
  intro x hx
  cases made with
  | error e => cases hx
  | ok k =>
    obtain rfl := Except.ok.inj hx
    rfl

end Slot

/-- How the column in the slot of a name is stored, if there is one. -/
def Slots.backing? (s : Slots) (name : String) : Option Backing :=
  (s.get? name).bind Slot.backing?

namespace ColumnStep

/-- The step, asking for another backing where it asks for one. -/
def restore (b : Backing) : ColumnStep → ColumnStep
  | newColumn name type _ => newColumn name type b
  | columnOfArray name array _ => columnOfArray name array b
  | columnOfChunk name source _ => columnOfChunk name source b
  | a => a

/-- Two steps are alike if they do the same but for the backings that they ask for. -/
def Alike (a a' : ColumnStep) : Prop := ∀ b, a.restore b = a'.restore b

/-- Alike scripts are the same once all their steps ask for one backing. -/
theorem map_restore_of_alike {b : Backing} {script script' : List ColumnStep}
    (h : List.Forall₂ Alike script script') : script.map (restore b) = script'.map (restore b) := by
  induction h with
  | nil => rfl
  | cons ha _ ih => rw [List.map_cons, List.map_cons, ha, ih]

/-- How the column is stored that a step which goes through leaves in its target: as was asked for,
as the column that it was made of, or, if the step works in place, as it was. -/
def backing? (s : Slots) : ColumnStep → Option Backing
  | newColumn _ _ b | columnOfArray _ _ b | columnOfChunk _ _ b => some b
  | newChunk .. | chunkOfArray .. | chunkOfArrayAs .. => none
  | take name .. | snapshot name .. => s.backing? name
  | drop name .. | append name .. | appendArray name .. | scatter name .. | scatterEach name ..
  | look name => s.backing? name
  | gather _ dest _ | gatherEach _ dest _ => s.backing? dest

end ColumnStep

namespace Column

theorem empty_restore {type : ColumnType} {b b' : Backing} :
    (empty type b').restore b = empty type b :=
  (mk_restore (congrArg (Cells.ofList b) (Cells.toList_ofList b' []).symm)).symm

theorem ofChunk_restore {k : Chunk} {b b' : Backing} :
    (ofChunk k b').restore b = ofChunk k b :=
  (mk_restore (congrArg (Cells.ofList b) (Cells.toList_ofList b' k.cells).symm)).symm

theorem ofArray_restore {a : EncodedArray} {b b' : Backing} :
    ofArray a b = restore b <$> ofArray a b' := by
  rw [ofArray, ofArray]
  cases a.encoding.columnType with
  | error e => rfl
  | ok type =>
    rw [ok_bind, ok_bind]
    cases a.cellsAs type with
    | error e => rfl
    | ok cells =>
      exact congrArg Except.ok
        (mk_restore (congrArg (Cells.ofList b) (Cells.toList_ofList b' cells).symm))

end Column

namespace Slots

variable {s : Slots} {b : Backing} {name : String} {x : Slot}

/-- The slots with all columns stored in another way. -/
def restore (b : Backing) (s : Slots) : Slots := ⟨s.entries.map fun e => (e.1, e.2.restore b)⟩

/-- What can be seen of the slots. -/
def shown (s : Slots) : List (String × (Chunk ⊕ Chunk)) := s.entries.map fun e => (e.1, e.2.shown)

/-- The outcomes of the steps of a script, each with the slots after it. -/
def trace (s : Slots) : List ColumnStep → List (Except StepFailure Unit × Slots)
  | [] => []
  | a :: script => s.run a :: (s.run a).2.trace script

@[simp] theorem shown_restore : (s.restore b).shown = s.shown := by
  simp [shown, restore]

/-- Slots that look the same are the same once they are stored in one way. -/
theorem restore_eq_of_shown {s' : Slots} (h : s.shown = s'.shown) : s.restore b = s'.restore b := by
  have hstore : ∀ s : Slots,
      s.restore b = ⟨s.shown.map fun e => (e.1, Slot.store b e.2)⟩ := fun s => by
    simp [restore, shown]
  rw [hstore, hstore, h]

/-! ## Steps on slots that are stored in another way -/

theorem get?_restore : (s.restore b).get? name = (s.get? name).map (Slot.restore b) :=
  lookup_map_snd s.entries

theorem set_restore : (s.restore b).set name (x.restore b) = (s.set name x).restore b := by
  simp only [set, restore, List.map_cons, List.filter_map]
  rfl

theorem setMade_restore {made made' : Except Error Slot} (h : made' = Slot.restore b <$> made) :
    (s.restore b).setMade name made' = (s.setMade name made).map id (restore b) := by
  rw [h]
  cases made with
  | error e => rfl
  | ok x => exact congrArg (Prod.mk _) set_restore

theorem setColumn_restore {c c' : Column} (h : c' = c.restore b) :
    (s.restore b).setMade name (.ok (.column c')) =
      (s.setMade name (.ok (.column c))).map id (restore b) :=
  setMade_restore (congrArg (Except.ok ∘ Slot.column) h)

theorem setChunk_restore {k : Chunk} :
    (s.restore b).setMade name (.ok (.chunk k)) =
      (s.setMade name (.ok (.chunk k))).map id (restore b) :=
  setMade_restore rfl

theorem setChanged_restore {changed changed' : Except Error Unit × Slot}
    (h : changed' = changed.map id (Slot.restore b)) :
    (s.restore b).setChanged name changed' = (s.setChanged name changed).map id (restore b) := by
  rw [h]
  exact congrArg (Prod.mk _) set_restore

theorem onColumn_restore {work work' : Column → Except StepFailure Unit × Slots}
    (h : ∀ c, work' (c.restore b) = (work c).map id (restore b)) :
    (s.restore b).onColumn name work' = (s.onColumn name work).map id (restore b) := by
  rw [onColumn, onColumn, get?_restore]
  cases s.get? name with
  | none => rfl
  | some x =>
    cases x with
    | column c => exact h c
    | chunk k => rfl

theorem onChunk_restore {work work' : Chunk → Except StepFailure Unit × Slots}
    (h : ∀ k, work' k = (work k).map id (restore b)) :
    (s.restore b).onChunk name work' = (s.onChunk name work).map id (restore b) := by
  rw [onChunk, onChunk, get?_restore]
  cases s.get? name with
  | none => rfl
  | some x =>
    cases x with
    | column c => rfl
    | chunk k => exact h k

/-- A step on slots that are stored in another way has the same outcome, and leaves the slots that
it would leave, stored in this way. -/
theorem run_restore (s : Slots) (a : ColumnStep) :
    (s.restore b).run (a.restore b) = (s.run a).map id (restore b) := by
  cases a with
  | newColumn name type backing => exact setColumn_restore Column.empty_restore.symm
  | columnOfArray name array backing =>
    exact setMade_restore (Slot.map_column Column.ofArray_restore)
  | columnOfChunk name source backing =>
    exact onChunk_restore fun k => setColumn_restore Column.ofChunk_restore.symm
  | newChunk name type length => exact setChunk_restore
  | chunkOfArray name array => exact setMade_restore (Slot.map_chunk _)
  | chunkOfArrayAs name type array => exact setMade_restore (Slot.map_chunk _)
  | take name count dest =>
    simp only [ColumnStep.restore, run]
    rw [get?_restore]
    cases s.get? name with
    | none => rfl
    | some x =>
      cases x with
      | column c => exact setMade_restore (Slot.map_column Column.take_restore)
      | chunk k => exact setMade_restore (Slot.map_chunk _)
  | snapshot name dest => exact onColumn_restore fun c => setMade_restore rfl
  | drop name count =>
    simp only [ColumnStep.restore, run]
    rw [get?_restore]
    cases s.get? name with
    | none => rfl
    | some x =>
      cases x with
      | column c => exact setMade_restore (Slot.map_column Column.drop_restore)
      | chunk k => exact setMade_restore (Slot.map_chunk _)
  | append name other =>
    simp only [ColumnStep.restore, run]
    rw [get?_restore, get?_restore]
    cases s.get? name with
    | none => rfl
    | some x =>
      cases s.get? other with
      | none => cases x <;> rfl
      | some y =>
        cases x with
        | column c =>
          cases y with
          | column d => exact setMade_restore (Slot.map_column Column.append_restore)
          | chunk k => exact setMade_restore (Slot.map_column Column.appendChunk_restore)
        | chunk k =>
          cases y with
          | column d => rfl
          | chunk l => exact setMade_restore (Slot.map_chunk _)
  | appendArray name array =>
    exact onColumn_restore fun c => setMade_restore (Slot.map_column Column.appendArray_restore)
  | gather name dest rows =>
    refine onColumn_restore fun c => onChunk_restore fun k => setChanged_restore ?_
    rw [Column.gather_restore]
    rfl
  | gatherEach name dest rows =>
    refine onColumn_restore fun c => onChunk_restore fun k => setChanged_restore ?_
    rw [Column.gatherEach_restore]
    rfl
  | scatter name source rows =>
    refine onColumn_restore fun c => onChunk_restore fun k => setChanged_restore ?_
    rw [Column.scatter_restore]
    rfl
  | scatterEach name source rows =>
    refine onColumn_restore fun c => onChunk_restore fun k => setChanged_restore ?_
    rw [Column.scatterEach_restore]
    rfl
  | look name => rfl

/-- A script shows the same on slots that are stored in another way. -/
theorem trace_restore (s : Slots) (script : List ColumnStep) :
    (s.restore b).trace (script.map (ColumnStep.restore b)) =
      (s.trace script).map (Prod.map id (restore b)) := by
  induction script generalizing s with
  | nil => rfl
  | cons a script ih =>
    rw [List.map_cons, trace, run_restore, Prod.map_snd, ih, trace, List.map_cons]

/-- Scripts that are alike, run on slots that look the same, show the same: the same outcomes, and
the same in all slots after each step. -/
theorem trace_of_alike {script script' : List ColumnStep} {s s' : Slots}
    (hscript : List.Forall₂ ColumnStep.Alike script script') (hs : s.shown = s'.shown) :
    (s.trace script).map (Prod.map id shown) = (s'.trace script').map (Prod.map id shown) := by
  have hshown : ∀ l : List (Except StepFailure Unit × Slots),
      (l.map (Prod.map id (restore .array))).map (Prod.map id shown) =
        l.map (Prod.map id shown) := by
    intro l
    simp [Function.comp_def, Prod.map]
  rw [← hshown, ← hshown (s'.trace script'), ← trace_restore, ← trace_restore,
    ColumnStep.map_restore_of_alike hscript, restore_eq_of_shown hs]

/-! ## What steps do to backings -/

/-- All columns are stored as before the work. Only if it went through the one in slot `name` may be
another one, and is stored as `b?` says. -/
def Stores (s : Slots) (name : String) (b? : Option Backing)
    (r : Except StepFailure Unit × Slots) : Prop :=
  ∀ m, r.2.backing? m = if m = name ∧ r.1.isOk = true then b? else s.backing? m

variable {b? : Option Backing}

theorem get?_set {m : String} : (s.set name x).get? m = if m = name then some x else s.get? m := by
  rw [get?, set, List.lookup_cons]
  split
  · rename_i hm
    rw [if_pos (beq_iff_eq.mp hm)]
  · rename_i hm
    rw [beq_eq_false_iff_ne] at hm
    rw [if_neg hm, lookup_filter_ne _ hm, get?]

theorem stores_error {f : StepFailure} : s.Stores name b? (.error f, s) := by
  intro m
  exact (if_neg fun h => Bool.false_ne_true h.2).symm

theorem stores_setMade {made : Except Error Slot} (h : ∀ x, made = .ok x → x.backing? = b?) :
    s.Stores name b? (s.setMade name made) := by
  cases made with
  | error e => exact stores_error
  | ok x =>
    intro m
    change ((s.set name x).get? m).bind Slot.backing? = _
    rw [get?_set]
    by_cases hm : m = name
    · rw [if_pos hm, if_pos ⟨hm, rfl⟩]
      exact h x rfl
    · rw [if_neg hm, if_neg fun h => hm h.1]
      rfl

/-- What is worked on in place has to keep its backing. -/
theorem stores_setChanged {changed : Except Error Unit × Slot}
    (h : changed.2.backing? = s.backing? name) :
    s.Stores name (s.backing? name) (s.setChanged name changed) := by
  intro m
  change ((s.set name changed.2).get? m).bind Slot.backing? = _
  rw [get?_set]
  by_cases hm : m = name
  · rw [if_pos hm, hm, ite_self]
    exact h
  · rw [if_neg hm, if_neg fun h => hm h.1]
    rfl

theorem stores_onColumn {n : String} {work : Column → Except StepFailure Unit × Slots}
    (h : ∀ c, s.get? n = some (.column c) → s.Stores name b? (work c)) :
    s.Stores name b? (s.onColumn n work) := by
  rw [onColumn]
  split
  · exact h _ ‹_›
  · exact stores_error

theorem stores_onChunk {n : String} {work : Chunk → Except StepFailure Unit × Slots}
    (h : ∀ k, s.get? n = some (.chunk k) → s.Stores name b? (work k)) :
    s.Stores name b? (s.onChunk n work) := by
  rw [onChunk]
  split
  · exact h _ ‹_›
  · exact stores_error

/-- What is made of the column in a slot, and is the same when stored as the column is, has its
backing. -/
theorem stores_setMade_of_column {n : String} {c : Column} {made : Except Error Column}
    (hc : s.get? n = some (.column c)) (h : made = Column.restore c.backing <$> made) :
    s.Stores name (s.backing? n) (s.setMade name (made.map .column)) := by
  rw [backing?, hc]
  exact stores_setMade (Slot.backing?_of_made h)

/-- Where a slot has a chunk neither it nor what is made of it has a backing. -/
theorem stores_setMade_of_chunk {n : String} {k : Chunk} {made : Except Error Chunk}
    (hk : s.get? n = some (.chunk k)) :
    s.Stores name (s.backing? n) (s.setMade name (made.map .chunk)) := by
  rw [backing?, hk]
  exact stores_setMade Slot.backing?_of_made_chunk

theorem stores_setChanged_of_column {c : Column} {changed : Except Error Unit × Column}
    (hc : s.get? name = some (.column c))
    (h : changed = changed.map id (Column.restore c.backing)) :
    s.Stores name (s.backing? name) (s.setChanged name (changed.map id .column)) := by
  refine stores_setChanged ?_
  rw [backing?, hc]
  exact congrArg some (Column.backing_of_worked h)

theorem stores_setChanged_of_chunk {k : Chunk} {changed : Except Error Unit × Chunk}
    (hk : s.get? name = some (.chunk k)) :
    s.Stores name (s.backing? name) (s.setChanged name (changed.map id .chunk)) := by
  refine stores_setChanged ?_
  rw [backing?, hk]
  rfl

/-- A step leaves all columns stored as they are, but for one that it may put into its target. -/
theorem run_stores (s : Slots) (a : ColumnStep) : s.Stores a.target (a.backing? s) (s.run a) := by
  cases a with
  | newColumn name type backing =>
    refine stores_setMade ?_
    rintro _ ⟨⟩
    exact congrArg some (Cells.backing_ofList ..)
  | columnOfArray name array backing =>
    exact stores_setMade (Slot.backing?_of_made Column.ofArray_restore)
  | columnOfChunk name source backing =>
    refine stores_onChunk fun k _ => stores_setMade ?_
    rintro _ ⟨⟩
    exact congrArg some (Cells.backing_ofList ..)
  | newChunk name type length =>
    refine stores_setMade ?_
    rintro _ ⟨⟩
    rfl
  | chunkOfArray name array => exact stores_setMade Slot.backing?_of_made_chunk
  | chunkOfArrayAs name type array => exact stores_setMade Slot.backing?_of_made_chunk
  | take name count dest =>
    rw [run]
    split
    · exact stores_setMade_of_column ‹_› (by rw [← Column.take_restore, Column.restore_backing])
    · exact stores_setMade_of_chunk ‹_›
    · exact stores_error
  | snapshot name dest =>
    refine stores_onColumn fun c hc => stores_setMade ?_
    rintro _ ⟨⟩
    rw [ColumnStep.backing?, backing?, hc]
    rfl
  | drop name count =>
    rw [run]
    split
    · exact stores_setMade_of_column ‹_› (by rw [← Column.drop_restore, Column.restore_backing])
    · exact stores_setMade_of_chunk ‹_›
    · exact stores_error
  | append name other =>
    rw [run]
    split
    · rename_i hc hd
      refine stores_setMade_of_column hc ?_
      rw [Column.append_eq_appendChunk, ← Column.appendChunk_restore, Column.restore_backing]
    · rename_i hc hk
      refine stores_setMade_of_column hc ?_
      rw [← Column.appendChunk_restore, Column.restore_backing]
    · exact stores_setMade_of_chunk ‹_›
    · exact stores_error
  | appendArray name array =>
    refine stores_onColumn fun c hc => stores_setMade_of_column hc ?_
    rw [← Column.appendArray_restore, Column.restore_backing]
  | gather name dest rows =>
    exact stores_onColumn fun c _ => stores_onChunk fun k hk => stores_setChanged_of_chunk hk
  | gatherEach name dest rows =>
    exact stores_onColumn fun c _ => stores_onChunk fun k hk => stores_setChanged_of_chunk hk
  | scatter name source rows =>
    refine stores_onColumn fun c hc => stores_onChunk fun k _ => stores_setChanged_of_column hc ?_
    rw [← Column.scatter_restore, Column.restore_backing]
  | scatterEach name source rows =>
    refine stores_onColumn fun c hc => stores_onChunk fun k _ => stores_setChanged_of_column hc ?_
    rw [← Column.scatterEach_restore, Column.restore_backing]
  | look name =>
    intro m
    by_cases hm : m = name
    · rw [hm]
      exact (ite_self _).symm
    · exact (if_neg fun h => hm h.1).symm

end Slots

end LiveTables
