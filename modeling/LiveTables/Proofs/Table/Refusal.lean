import LiveTables.Proofs.Table.Acceptance

/-!
# Why updates are refused

Everything that an update calls can fail in its own way: sets of keys refuse ranges that overlap,
columns refuse rows that they do not have and cells of other types, and so on. Few of these errors
can come out of an update. What is wrong with its form is found before the first key is looked at
(`Error.OfForm`), and what is wrong with an update of the right form are its keys (`Error.OfKeys`);
the other errors are those of calls whose conditions have been checked by then. The two kinds have
in common that they end the feed of the table (`LiveTable.Reachable.refusal_apply`).
-/

namespace LiveTables

/-- The errors of updates that are of the wrong form. -/
inductive Error.OfForm : Error → Prop
  /-- the protocol asks for another form -/
  | protocol (violation : Violation) : OfForm (.protocol violation)
  /-- there is no column type for an array -/
  | notImplemented (gap : Gap) : OfForm (.notImplemented gap)
  /-- a cell of an array cannot be converted -/
  | conversion (fault : ConversionFault) : OfForm (.conversion fault)

/-- The errors of updates whose keys do not suit the table. -/
inductive Error.OfKeys : Error → Prop
  /-- a key that is removed or modified is absent -/
  | keyNotFound (key : Nat) : OfKeys (.keyNotFound key)
  /-- a key that is added is there already, or a shift lands on one that is -/
  | duplicateKey (key : Nat) : OfKeys (.duplicateKey key)
  /-- a shift leaves the key space -/
  | shiftLeavesKeySpace (start stop dest key : Nat) :
    OfKeys (.protocol (.shiftLeavesKeySpace start stop dest key))
  /-- a shift passes a key that stays -/
  | shiftPassesKey (start stop dest key : Nat) :
    OfKeys (.protocol (.shiftPassesKey start stop dest key))

theorem Error.OfForm.isFatal {e : Error} (h : e.OfForm) : e.isFatal = true := by
  cases h <;> rfl

theorem Error.OfKeys.isFatal {e : Error} (h : e.OfKeys) : e.isFatal = true := by
  cases h <;> rfl

variable {e : Error}

/-! ## The form -/

theorem Renumbering.validate_eq_error {r : Renumbering} (h : r.validate = .error e) :
    e.OfForm := by
  rw [validate] at h
  split at h
  · obtain rfl := Except.error.inj h
    exact .protocol _
  · split at h
    · obtain rfl := Except.error.inj h
      exact .protocol _
    · cases h

theorem Encoding.columnType_eq_error {encoding : Encoding} (h : encoding.columnType = .error e) :
    ∃ gap, e = .notImplemented gap := by
  rw [columnType] at h
  split at h
  · cases h
  · exact ⟨_, (Except.error.inj h).symm⟩

/-- An array has no cells of a type because there is no column for it, because it is one of another
type, or because it cannot be converted. -/
theorem EncodedArray.ofForm_of_cellsAs {a : EncodedArray} {type : ColumnType}
    (h : a.cellsAs type = .error e) :
    e.OfForm ∨ ∃ expected found, e = .typeMismatch expected found := by
  rcases EncodedArray.cellsAs_eq_error h with htype | ⟨found, -, hrequire⟩ | ⟨fault, rfl⟩
  · obtain ⟨gap, rfl⟩ := Encoding.columnType_eq_error htype
    exact .inl (.notImplemented gap)
  · rw [ColumnType.require] at hrequire
    split at hrequire
    · cases hrequire
    · exact .inr ⟨_, _, (Except.error.inj hrequire).symm⟩
  · exact .inl (.conversion fault)

namespace Schema

variable {s : Schema} {d : ColumnDef} {batches : List Batch} {b : Batch}

/-- An array of another type is a matter of the protocol here. -/
theorem cellsFor_eq_error {a : EncodedArray} (h : cellsFor d a = .error e) : e.OfForm := by
  rw [cellsFor, Chunk.ofArrayAs] at h
  cases hcells : a.cellsAs d.type with
  | ok cells =>
    rw [hcells] at h
    cases h
  | error e' =>
    rw [hcells] at h
    rcases EncodedArray.ofForm_of_cellsAs hcells with hform | ⟨expected, found, rfl⟩
    · cases hform <;> (obtain rfl := Except.error.inj h; constructor)
    · obtain rfl := Except.error.inj h
      exact .protocol _

/-- Arrays fail to be joined where one of them fails to be converted: all chunks have the type of
the column. -/
theorem joined_eq_error {arrays : List EncodedArray} (h : joined d arrays = .error e) :
    e.OfForm := by
  have hkeep : ∀ (k : Chunk) a k', k.type = d.type → (do k.append (← cellsFor d a)) = .ok k' →
      k'.type = d.type := by
    intro k a k' hk hstep
    obtain ⟨other, hother, happend⟩ := bind_eq_ok.mp hstep
    obtain ⟨cells, -, rfl⟩ := cellsFor_eq_ok_iff.mp hother
    rw [Chunk.append_eq_ok hk] at happend
    obtain rfl := Except.ok.inj happend
    exact hk
  obtain ⟨k, a, -, hk, hstep⟩ := foldlM_eq_error _ hkeep rfl h
  rcases bind_eq_error.mp hstep with hcells | ⟨other, hother, happend⟩
  · exact cellsFor_eq_error hcells
  · obtain ⟨cells, -, rfl⟩ := cellsFor_eq_ok_iff.mp hother
    rw [Chunk.append_eq_ok hk] at happend
    cases happend

theorem dataOf_eq_error (h : s.dataOf batches = .error e) : e.OfForm := by
  obtain ⟨i, d, -, herror, -⟩ := mapM_eq_error h
  exact joined_eq_error herror

theorem requireWidth_eq_error {kind : BatchKind} {i : Nat}
    (h : s.requireWidth kind i b = .error e) : e.OfForm := by
  rw [requireWidth] at h
  split at h
  · cases h
  · obtain rfl := Except.error.inj h
    exact .protocol _

theorem requireEven_eq_error {i : Nat} (h : requireEven i b = .error e) : e.OfForm := by
  cases b with
  | nil => cases h
  | cons first rest =>
    rw [requireEven] at h
    split at h
    · obtain rfl := Except.error.inj h
      exact .protocol _
    · cases h

theorem addedData_eq_error {added : KeySet} (h : s.addedData added batches = .error e) :
    e.OfForm := by
  simp only [addedData, bind_eq_error] at h
  rcases h with hbatches | ⟨⟨⟩, -, hdata | ⟨chunks, -, hsizes | ⟨⟨⟩, -, hmade⟩⟩⟩
  · obtain ⟨b, -, hbatch⟩ := forM_eq_error hbatches
    rcases bind_eq_error.mp hbatch with hwidth | ⟨⟨⟩, -, heven⟩
    · exact requireWidth_eq_error hwidth
    · exact requireEven_eq_error heven
  · exact dataOf_eq_error hdata
  · obtain ⟨k, -, hsize⟩ := forM_eq_error hsizes
    split at hsize
    · cases hsize
    · obtain rfl := Except.error.inj hsize
      exact .protocol _
  · cases hmade

theorem modifiedData_eq_error {modified : List KeySet}
    (h : s.modifiedData modified batches = .error e) : e.OfForm := by
  rw [modifiedData] at h
  split at h
  · split at h
    · obtain rfl := Except.error.inj h
      exact .protocol _
    · cases h
  · split at h
    · obtain rfl := Except.error.inj h
      exact .protocol _
    · simp only [bind_eq_error] at h
      rcases h with hbatches | ⟨⟨⟩, -, hdata | ⟨chunks, -, hsizes | ⟨⟨⟩, -, hmade⟩⟩⟩
      · obtain ⟨b, -, hwidth⟩ := forM_eq_error hbatches
        exact requireWidth_eq_error hwidth
      · exact dataOf_eq_error hdata
      · obtain ⟨k, -, hsize⟩ := forM_eq_error hsizes
        split at hsize
        · cases hsize
        · obtain rfl := Except.error.inj hsize
          exact .protocol _
      · cases hmade

end Schema

/-! ## The keys -/

namespace KeySpace

variable {s : KeySpace} {keys : KeySet}

/-- Where a walk over keys goes through or names a key, an error names a key. -/
theorem exists_key_of_spec {α : Type} {walk : Except Error α} {good : Prop} {bad : Nat → Prop}
    {fail : Nat → Error}
    (hspec : (good ∧ ∃ a, walk = .ok a) ∨ ∃ k, bad k ∧ walk = .error (fail k))
    (h : walk = .error e) : ∃ k, e = fail k := by
  rcases hspec with ⟨-, a, hok⟩ | ⟨k, -, herror⟩
  · cases h.symm.trans hok
  · exact ⟨k, Except.error.inj (h.symm.trans herror)⟩

theorem positions_eq_error (h : s.positions keys = .error e) : e.OfKeys := by
  obtain ⟨k, rfl⟩ := exists_key_of_spec (s.positions_spec keys) h
  exact .keyNotFound k

theorem eraseAll_eq_error (h : s.eraseAll keys = .error e) : e.OfKeys := by
  obtain ⟨k, rfl⟩ := exists_key_of_spec (s.eraseAll_spec keys) h
  exact .keyNotFound k

theorem addAll_eq_error (h : s.addAll keys = .error e) : e.OfKeys := by
  obtain ⟨k, rfl⟩ := exists_key_of_spec (s.addAll_spec keys) h
  exact .duplicateKey k

/-- A move that has a source fails for the keys that it would lead to or past. -/
theorem shift_eq_error {m : Move} (hm : m.start ≤ m.stop) (h : s.shift m = .error e) :
    e.OfKeys := by
  rw [shift, if_neg (Nat.not_lt.mpr hm)] at h
  split at h
  · cases h
  dsimp only at h
  split at h
  · split at h
    · split at h
      · split at h
        · obtain rfl := Except.error.inj h
          exact .duplicateKey _
        · obtain rfl := Except.error.inj h
          exact .shiftPassesKey ..
      · cases h
    · obtain rfl := Except.error.inj h
      exact .shiftLeavesKeySpace ..
  · cases h

theorem renumber_eq_error {r : Renumbering} (hvalid : r.validate = .ok ())
    (h : s.renumber r = .error e) : e.OfKeys := by
  rcases bind_eq_error.mp h with hschedule | ⟨moves, hmoves, hshifts⟩
  · rw [Renumbering.schedule, hvalid] at hschedule
    cases hschedule
  · obtain ⟨t, m, hm, -, hshift⟩ := foldlM_eq_error (fun _ => True) (fun _ _ _ _ _ => trivial)
      trivial hshifts
    have hstart := Renumbering.start_lt_stop hvalid ((Renumbering.mem_schedule hmoves).mp hm).1
    exact shift_eq_error (Nat.le_of_lt hstart) hshift

end KeySpace

/-! ## Updates -/

namespace LiveTable

variable {t t' : LiveTable} {u : Update}

/-- An update fails its checks with an error that is about its form if this is wrong, and about its
keys otherwise. -/
theorem prepare_eq_error (h : t.prepare u = .error e) :
    (¬ t.schema.Admits u ∧ e.OfForm) ∨ (t.schema.Admits u ∧ e.OfKeys) := by
  rw [prepare] at h
  split at h
  · rename_i hboth
    obtain rfl := Except.error.inj h
    refine .inl ⟨fun hform => ?_, .protocol _⟩
    rcases hform.exclusive with hnone | hnone <;> simp [hnone] at hboth
  rename_i hexclusive
  simp only [bind_eq_error] at h
  rcases h with hshifts | ⟨⟨⟩, hshifts, h⟩
  · refine .inl ⟨fun hform => ?_, Renumbering.validate_eq_error hshifts⟩
    cases hshifts.symm.trans (Renumbering.validate_eq_ok_iff.mpr hform.shifts)
  rcases h with hadded | ⟨added, hadded, h⟩
  · refine .inl ⟨fun hform => ?_, Schema.addedData_eq_error hadded⟩
    obtain ⟨chunks, hchunks⟩ := Schema.exists_addedData_iff.mpr hform.added
    cases hadded.symm.trans hchunks
  rcases h with hmodified | ⟨modified, hmodified, h⟩
  · refine .inl ⟨fun hform => ?_, Schema.modifiedData_eq_error hmodified⟩
    obtain ⟨chunks, hchunks⟩ := Schema.exists_modifiedData_iff.mpr hform.modified
    cases hmodified.symm.trans hchunks
  -- the form is right, and the keys are looked at one kind after the other
  have hform : t.schema.Admits u := by
    refine Schema.admits_iff.mpr ⟨?_, hshifts, ⟨added, hadded⟩, modified, hmodified⟩
    simpa [← or_iff_not_imp_left] using hexclusive
  refine .inr ⟨hform, ?_⟩
  rcases h with hremoved | ⟨_, -, herase | ⟨_, -, hrenumber | ⟨_, -, hadd | ⟨_, -, h⟩⟩⟩⟩
  · exact KeySpace.positions_eq_error hremoved
  · exact KeySpace.eraseAll_eq_error herase
  · exact KeySpace.renumber_eq_error hshifts hrenumber
  · exact KeySpace.addAll_eq_error hadd
  rcases h with hadded | ⟨_, -, hrows | ⟨_, -, hmade⟩⟩
  · exact KeySpace.positions_eq_error hadded
  · obtain ⟨_, keys, -, hkeys, -⟩ := mapM_eq_error hrows
    exact KeySpace.positions_eq_error hkeys
  · cases hmade

/-- Between updates an error of an update comes from its checks. -/
theorem Settled.prepare_of_apply_error (h : t.Settled) (hu : t.apply u = (.error e, t')) :
    t.prepare u = .error e := by
  rcases h.apply_cases u with ⟨e', hp, happly⟩ | ⟨p, after, change, -, -, happly, -⟩
  · rw [happly] at hu
    obtain rfl := Except.error.inj (Prod.mk.inj hu).1
    exact hp
  · cases hu.symm.trans happly

/-- Every error with which a table answers an update ends its feed. It is one of those that an
update of the wrong form is refused with, or that one of the right form is whose keys do not suit
the table. -/
theorem Reachable.refusal_apply (h : Reachable t) (hu : t.apply u = (.error e, t')) :
    e.isFatal = true ∧ ((¬ t.schema.Admits u ∧ e.OfForm) ∨ (t.schema.Admits u ∧ e.OfKeys)) := by
  have hkinds := prepare_eq_error (h.settled.prepare_of_apply_error hu)
  refine ⟨?_, hkinds⟩
  rcases hkinds with ⟨-, hform⟩ | ⟨-, hkeys⟩
  · exact hform.isFatal
  · exact hkeys.isFatal

/-- Key 6 is not there to be removed, and prices are no text. -/
theorem Reachable.refusal_apply_of_quotes : ∃ (absent mistyped : Update) (e e' : Error),
    Quotes.table.apply absent = (.error e, Quotes.table) ∧ e = .keyNotFound 6 ∧
    Quotes.table.apply mistyped = (.error e', Quotes.table) ∧
    e' = .protocol (.columnType "price" "Int64" "Utf8") ∧
    (e.isFatal = true ∧ e.OfKeys) ∧ e'.isFatal = true ∧ e'.OfForm := by
  let absent : Update := { removed := .ofRange 6 7 }
  let names : EncodedArray := .ofCells .utf8 [.null] (by simp [Encoding.holds]) rfl
  let mistyped : Update := { added := .ofRange 6 7, addBatches := [[names]] }
  have habsent : Quotes.table.apply absent = (.error (.keyNotFound 6), Quotes.table) := rfl
  have hmistyped : Quotes.table.apply mistyped =
      (.error (.protocol (.columnType "price" "Int64" "Utf8")), Quotes.table) := rfl
  obtain ⟨hfatal, hkinds⟩ := Reachable.refusal_apply Quotes.reachable_table habsent
  obtain ⟨hfatal', hkinds'⟩ := Reachable.refusal_apply Quotes.reachable_table hmistyped
  refine ⟨absent, mistyped, _, _, habsent, rfl, hmistyped, rfl, ⟨hfatal, ?_⟩, hfatal', ?_⟩
  · rcases hkinds with ⟨-, hform⟩ | ⟨-, hkeys⟩
    · cases hform
    · exact hkeys
  · rcases hkinds' with ⟨-, hform⟩ | ⟨-, hkeys⟩
    · exact hform
    · cases hkeys

end LiveTable

end LiveTables
