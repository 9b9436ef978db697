import LiveTables.Proofs.Keys.Rehearsal
import LiveTables.Proofs.Table.Apply
import LiveTables.Proofs.Update.Accepted

/-!
# Which updates are accepted

Whether an update is accepted is settled by its form, which only the schema has a say in
(`Schema.Admits`), and by the keys that it names (`LiveTable.Suits`). An update of the right form is
held against the keys in the order in which it is applied: keys that it removes, shifts, keys that
it adds, and keys that it modifies, column by column. The first of these that does not go through
decides which error is answered.

`LiveTable.Judged` lists everything that can come of this, and `LiveTable.judged_prepare` is the one
place that follows the checks. What is said about accepted and refused updates is read off from it.
-/

namespace LiveTables

/-- An update has the form that a table of the schema asks for. -/
structure Schema.Admits (s : Schema) (u : Update) : Prop where
  /-- there are batches of one kind only -/
  exclusive : u.addBatches = [] ∨ u.modBatches = []
  /-- the shifts are moves -/
  shifts : u.shifts.Valid
  /-- there is a row for each added key -/
  added : s.FitsAdded u.added u.addBatches
  /-- there is nothing to modify, or a cell for each modified key of each column -/
  modified : (u.modified = [] ∧ ∀ b ∈ u.modBatches, ∀ a ∈ b, a.size = 0) ∨
    s.FitsModified u.modified u.modBatches

/-- The form of an update is right just if it passes each check that is made before the first key is
looked at. -/
theorem Schema.admits_iff {s : Schema} {u : Update} : s.Admits u ↔
    (u.addBatches = [] ∨ u.modBatches = []) ∧ u.shifts.validate = .ok () ∧
      (∃ chunks, s.addedData u.added u.addBatches = .ok chunks) ∧
      ∃ chunks, s.modifiedData u.modified u.modBatches = .ok chunks := by
  rw [Renumbering.validate_eq_ok_iff, exists_addedData_iff, exists_modifiedData_iff]
  refine ⟨?_, ?_⟩
  · intro h
    exact ⟨h.exclusive, h.shifts, h.added, h.modified⟩
  · rintro ⟨hexclusive, hshifts, hadded, hmodified⟩
    exact ⟨hexclusive, hshifts, hadded, hmodified⟩

/-- An update that modifies a key adds none. It has batches of one kind only, and the cells of a key
need a batch of the other kind each. -/
theorem Schema.Admits.added_eq_nil {s : Schema} {u : Update} {keys : KeySet} (h : s.Admits u)
    (hkeys : keys ∈ u.modified) (hne : keys.toList ≠ []) : u.added.toList = [] := by
  rcases h.modified with ⟨hnone, -⟩ | hfits
  · rw [hnone] at hkeys
    exact absurd hkeys List.not_mem_nil
  · obtain ⟨j, hj⟩ := List.getElem?_of_mem hkeys
    have hwidth : j < s.width := by
      rw [← hfits.sets]
      exact (List.getElem?_eq_some_iff.mp hj).1
    rcases h.exclusive with hbatches | hbatches
    · have hrows := h.added.rows j hwidth
      rw [hbatches] at hrows
      rw [← List.length_eq_zero_iff, KeySet.length_toList]
      exact hrows.symm
    · have hrows := hfits.rows j keys hj
      rw [hbatches] at hrows
      rw [Ne, ← List.length_eq_zero_iff, KeySet.length_toList] at hne
      exact absurd hrows.symm hne

namespace LiveTable

variable {t t' : LiveTable} {u : Update} {p : Plan} {shifted : KeySpace} {k : Nat}

/-- The keys of an update suit a table, of which removing and renumbering leave the keys
`shifted`. -/
structure Suits (t : LiveTable) (u : Update) (shifted : KeySpace) : Prop where
  /-- what is removed is there -/
  removed : ∀ k ∈ u.removed.toList, k ∈ t.keys.toList
  /-- the shifts can be made -/
  leaves : t.keys.Leaves u.removed u.shifts shifted
  /-- what is added is not there yet -/
  added : ∀ k ∈ u.added.toList, k ∉ shifted.toList
  /-- what is modified is there in the end -/
  modified : ∀ keys ∈ u.modified, ∀ k ∈ keys.toList, k ∈ shifted.toList ∨ k ∈ u.added.toList

/-- What comes of checking an update: the first thing that is wrong with it, or a plan. -/
inductive Judged (t : LiveTable) (u : Update) : Except Error Plan → Prop
  /-- the update is of the wrong form -/
  | malformed {e : Error} (hform : ¬ t.schema.Admits u) : Judged t u (.error e)
  /-- a removed key is absent -/
  | missing {k : Nat} (hform : t.schema.Admits u)
      (hk : IsLeast {k | k ∈ u.removed.toList ∧ k ∉ t.keys.toList} k) :
      Judged t u (.error (.keyNotFound k))
  /-- a shift cannot be made -/
  | immovable {e : Error} (hform : t.schema.Admits u)
      (hremoved : ∀ k ∈ u.removed.toList, k ∈ t.keys.toList)
      (hshifts : ∀ shifted, ¬ t.keys.Leaves u.removed u.shifts shifted) : Judged t u (.error e)
  /-- an added key is there already -/
  | taken {shifted : KeySpace} {k : Nat} (hform : t.schema.Admits u)
      (hremoved : ∀ k ∈ u.removed.toList, k ∈ t.keys.toList)
      (hshifts : t.keys.Leaves u.removed u.shifts shifted)
      (hk : IsLeast {k | k ∈ u.added.toList ∧ k ∈ shifted.toList} k) :
      Judged t u (.error (.duplicateKey k))
  /-- a modified key of column `j` is absent, and those of the columns before are not -/
  | absent {shifted : KeySpace} {j k : Nat} {keys : KeySet} (hform : t.schema.Admits u)
      (hremoved : ∀ k ∈ u.removed.toList, k ∈ t.keys.toList)
      (hshifts : t.keys.Leaves u.removed u.shifts shifted)
      (hadded : ∀ k ∈ u.added.toList, k ∉ shifted.toList) (hj : u.modified[j]? = some keys)
      (hbefore : ∀ keys ∈ u.modified.take j,
        ∀ k ∈ keys.toList, k ∈ shifted.toList ∨ k ∈ u.added.toList)
      (hk : IsLeast {k | k ∈ keys.toList ∧ ¬ (k ∈ shifted.toList ∨ k ∈ u.added.toList)} k) :
      Judged t u (.error (.keyNotFound k))
  /-- nothing is wrong -/
  | accepted {shifted : KeySpace} {p : Plan} (hform : t.schema.Admits u)
      (hkeys : t.Suits u shifted) : Judged t u (.ok p)

/-- An update that is prepared is of the right form. -/
theorem admits_of_prepare (h : t.prepare u = .ok p) : t.schema.Admits u := by
  rw [prepare] at h
  split at h
  · cases h
  rename_i hexclusive
  simp only [bind_eq_ok] at h
  obtain ⟨⟨⟩, hshifts, addedData, hadded, modifiedData, hmodified, -⟩ := h
  refine Schema.admits_iff.mpr ⟨?_, hshifts, ⟨addedData, hadded⟩, modifiedData, hmodified⟩
  simpa [← or_iff_not_imp_left] using hexclusive

/-- The keys that modifications name are there, or the least absent one of the first column that has
one is named. -/
theorem modifiedRows_spec (s : KeySpace) (modified : List KeySet) :
    ((∀ keys ∈ modified, ∀ k ∈ keys.toList, k ∈ s.toList) ∧
      ∃ rows, modified.mapM s.positions = .ok rows) ∨
    ∃ j keys k, modified[j]? = some keys ∧
      (∀ keys ∈ modified.take j, ∀ k ∈ keys.toList, k ∈ s.toList) ∧
      IsLeast {k | k ∈ keys.toList ∧ k ∉ s.toList} k ∧
      modified.mapM s.positions = .error (.keyNotFound k) := by
  cases hrows : modified.mapM s.positions with
  | ok rows =>
    refine .inl ⟨fun keys hkeys => ?_, rows, rfl⟩
    obtain ⟨found, -, hfound⟩ := exists_of_forall₂ (mapM_eq_ok.mp hrows) hkeys
    exact (KeySpace.toList_positions hfound).2
  | error e =>
    obtain ⟨j, keys, hj, herror, hbefore⟩ := mapM_eq_error hrows
    rcases s.positions_spec keys with ⟨-, rows, hok⟩ | ⟨k, hk, herror'⟩
    · rw [hok] at herror
      cases herror
    · obtain rfl := Except.error.inj (herror.symm.trans herror')
      refine .inr ⟨j, keys, k, hj, fun earlier hearlier => ?_, hk, rfl⟩
      obtain ⟨i, hi, rfl⟩ := List.mem_take_iff_getElem.mp hearlier
      obtain ⟨found, hfound⟩ := hbefore i (Nat.lt_min.mp hi).1 _ (List.getElem?_eq_getElem _)
      exact (KeySpace.toList_positions hfound).2

/-- Checking an update finds the first thing that is wrong with it, or makes a plan. -/
theorem judged_prepare (t : LiveTable) (u : Update) : t.Judged u (t.prepare u) := by
  by_cases hform : t.schema.Admits u
  swap
  · cases h : t.prepare u with
    | error e => exact .malformed hform
    | ok p => exact absurd (admits_of_prepare h) hform
  -- an update of the right form passes all checks that come before the first key
  obtain ⟨hexclusive, hvalid, ⟨addedData, hadded⟩, modifiedData, hmodified⟩ :=
    Schema.admits_iff.mp hform
  have hone : ¬ ((!u.addBatches.isEmpty && !u.modBatches.isEmpty) = true) := by
    rcases hexclusive with hnone | hnone <;> simp [hnone]
  rw [prepare, if_neg hone, hvalid, ok_bind, hadded, ok_bind, hmodified, ok_bind]
  rcases t.keys.positions_spec u.removed with ⟨hremoved, removedRows, hrows⟩ | ⟨k, hk, herror⟩
  swap
  · rw [herror]
    exact .missing hform hk
  obtain ⟨erased, herase⟩ := t.keys.exists_eraseAll hremoved
  rw [hrows, ok_bind, herase, ok_bind]
  cases hrenumber : erased.renumber u.shifts with
  | error e =>
    refine .immovable hform hremoved fun shifted hshifts => ?_
    rw [KeySpace.leaves_iff herase, hrenumber] at hshifts
    cases hshifts
  | ok shifted =>
    have hshifts := (KeySpace.leaves_iff herase).mpr hrenumber
    rw [ok_bind]
    rcases shifted.addAll_spec u.added with ⟨hadded, final, hfinal⟩ | ⟨k, hk, herror⟩
    swap
    · rw [herror]
      exact .taken hform hremoved hshifts hk
    have hmem := (KeySpace.addAll_eq_ok hfinal).1
    obtain ⟨addedRows, haddedRows⟩ := final.exists_positions fun k hk => (hmem k).mpr (.inr hk)
    rw [hfinal, ok_bind, haddedRows, ok_bind]
    -- modified keys are looked up last, where those of the update are present already
    have hlast := modifiedRows_spec final u.modified
    simp only [hmem] at hlast
    rcases hlast with ⟨hall, rows, hrows⟩ | ⟨j, keys, k, hj, hbefore, hk, herror⟩
    · rw [hrows]
      exact .accepted hform ⟨hremoved, hshifts, hadded, hall⟩
    · rw [herror]
      exact .absent hform hremoved hshifts hadded hj hbefore hk

/-! ## Acceptance and refusal -/

/-- A plan is made just for updates that have the right form and suit the table. -/
theorem exists_prepare_iff :
    (∃ p, t.prepare u = .ok p) ↔ t.schema.Admits u ∧ ∃ shifted, t.Suits u shifted := by
  have hjudged := judged_prepare t u
  generalize t.prepare u = verdict at hjudged
  cases hjudged with
  | malformed hform => exact iff_of_false (by simp) fun h => hform h.1
  | missing _ hk =>
    refine iff_of_false (by simp) ?_
    rintro ⟨-, _, hkeys⟩
    exact hk.1.2 (hkeys.removed _ hk.1.1)
  | immovable _ _ hshifts =>
    refine iff_of_false (by simp) ?_
    rintro ⟨-, shifted, hkeys⟩
    exact hshifts shifted hkeys.leaves
  | taken _ _ hshifts hk =>
    refine iff_of_false (by simp) ?_
    rintro ⟨-, shifted, hkeys⟩
    obtain rfl := hkeys.leaves.unique hshifts
    exact hkeys.added _ hk.1.1 hk.1.2
  | absent _ _ hshifts _ hj _ hk =>
    refine iff_of_false (by simp) ?_
    rintro ⟨-, shifted, hkeys⟩
    obtain rfl := hkeys.leaves.unique hshifts
    exact hk.1.2 (hkeys.modified _ (List.mem_of_getElem? hj) _ hk.1.1)
  | accepted hform hkeys => exact iff_of_true ⟨_, rfl⟩ ⟨hform, _, hkeys⟩

/-- Where a removed key is absent the least such key is named. -/
theorem prepare_missing (hform : t.schema.Admits u)
    (h : ¬ ∀ k ∈ u.removed.toList, k ∈ t.keys.toList) :
    ∃ k, IsLeast {k | k ∈ u.removed.toList ∧ k ∉ t.keys.toList} k ∧
      t.prepare u = .error (.keyNotFound k) := by
  have hjudged := judged_prepare t u
  generalize t.prepare u = verdict at hjudged
  cases hjudged with
  | malformed hform' => exact absurd hform hform'
  | missing _ hk => exact ⟨_, hk, rfl⟩
  | immovable _ hremoved => exact absurd hremoved h
  | taken _ hremoved => exact absurd hremoved h
  | absent _ hremoved => exact absurd hremoved h
  | accepted _ hkeys => exact absurd hkeys.removed h

/-- Where an added key is there already the least such key is named. -/
theorem prepare_taken (hform : t.schema.Admits u)
    (hremoved : ∀ k ∈ u.removed.toList, k ∈ t.keys.toList)
    (hshifts : t.keys.Leaves u.removed u.shifts shifted)
    (h : ¬ ∀ k ∈ u.added.toList, k ∉ shifted.toList) :
    ∃ k, IsLeast {k | k ∈ u.added.toList ∧ k ∈ shifted.toList} k ∧
      t.prepare u = .error (.duplicateKey k) := by
  have hjudged := judged_prepare t u
  generalize t.prepare u = verdict at hjudged
  cases hjudged with
  | malformed hform' => exact absurd hform hform'
  | missing _ hk => exact absurd (hremoved _ hk.1.1) hk.1.2
  | immovable _ _ hshifts' => exact absurd hshifts (hshifts' _)
  | taken _ _ hshifts' hk =>
    obtain rfl := hshifts.unique hshifts'
    exact ⟨_, hk, rfl⟩
  | absent _ _ hshifts' hadded =>
    obtain rfl := hshifts.unique hshifts'
    exact absurd hadded h
  | accepted _ hkeys =>
    obtain rfl := hshifts.unique hkeys.leaves
    exact absurd hkeys.added h

/-- Where a modified key is absent the least such key of the first column that has one is named. -/
theorem prepare_absent (hform : t.schema.Admits u)
    (hremoved : ∀ k ∈ u.removed.toList, k ∈ t.keys.toList)
    (hshifts : t.keys.Leaves u.removed u.shifts shifted)
    (hadded : ∀ k ∈ u.added.toList, k ∉ shifted.toList)
    (h : ¬ ∀ keys ∈ u.modified, ∀ k ∈ keys.toList, k ∈ shifted.toList ∨ k ∈ u.added.toList) :
    ∃ j keys k, u.modified[j]? = some keys ∧
      (∀ keys ∈ u.modified.take j,
        ∀ k ∈ keys.toList, k ∈ shifted.toList ∨ k ∈ u.added.toList) ∧
      IsLeast {k | k ∈ keys.toList ∧ ¬ (k ∈ shifted.toList ∨ k ∈ u.added.toList)} k ∧
      t.prepare u = .error (.keyNotFound k) := by
  have hjudged := judged_prepare t u
  generalize t.prepare u = verdict at hjudged
  cases hjudged with
  | malformed hform' => exact absurd hform hform'
  | missing _ hk => exact absurd (hremoved _ hk.1.1) hk.1.2
  | immovable _ _ hshifts' => exact absurd hshifts (hshifts' _)
  | taken _ _ hshifts' hk =>
    obtain rfl := hshifts.unique hshifts'
    exact absurd hk.1.2 (hadded _ hk.1.1)
  | absent _ _ hshifts' _ hj hbefore hk =>
    obtain rfl := hshifts.unique hshifts'
    exact ⟨_, _, _, hj, hbefore, hk, rfl⟩
  | accepted _ hkeys =>
    obtain rfl := hshifts.unique hkeys.leaves
    exact absurd hkeys.modified h

/-- Between updates an update that fails its checks is refused with the error they found. -/
theorem Settled.apply_of_prepare_error {e : Error} (h : t.Settled) (hp : t.prepare u = .error e) :
    t.apply u = (.error e, t) := by
  rcases h.apply_cases u with ⟨e', hp', happly⟩ | ⟨p, _, _, hp', -⟩
  · obtain rfl := Except.error.inj (hp.symm.trans hp')
    exact happly
  · rw [hp] at hp'
    cases hp'

/-- Between updates an update is accepted just if a plan can be made for it. -/
theorem Settled.accepts_iff (h : t.Settled) :
    (∃ change t', t.apply u = (.ok change, t')) ↔ ∃ p, t.prepare u = .ok p := by
  rcases h.apply_cases u with ⟨e, hp, happly⟩ | ⟨p, t', change, hp, -, happly, -⟩
  · rw [hp, happly]
    simp
  · exact iff_of_true ⟨change, t', happly⟩ ⟨p, hp⟩

/-- An update is accepted just if it has the right form and its keys suit the table. One of the
right form is refused with the least removed key that is absent; if there is none, and the shifts
can be made, with the least added key that is there already; and otherwise with the least absent key
of the first column of modifications that has one. -/
theorem Reachable.apply_accepts_iff (h : Reachable t) (u : Update) :
    ((∃ change t', t.apply u = (.ok change, t')) ↔
      t.schema.Admits u ∧ ∃ shifted, t.Suits u shifted) ∧
    (t.schema.Admits u → (¬ ∀ k ∈ u.removed.toList, k ∈ t.keys.toList) →
      ∃ k, IsLeast {k | k ∈ u.removed.toList ∧ k ∉ t.keys.toList} k ∧
        t.apply u = (.error (.keyNotFound k), t)) ∧
    ∀ shifted, t.schema.Admits u → (∀ k ∈ u.removed.toList, k ∈ t.keys.toList) →
      t.keys.Leaves u.removed u.shifts shifted →
      ((¬ ∀ k ∈ u.added.toList, k ∉ shifted.toList) →
        ∃ k, IsLeast {k | k ∈ u.added.toList ∧ k ∈ shifted.toList} k ∧
          t.apply u = (.error (.duplicateKey k), t)) ∧
      ((∀ k ∈ u.added.toList, k ∉ shifted.toList) →
        (¬ ∀ keys ∈ u.modified, ∀ k ∈ keys.toList,
          k ∈ shifted.toList ∨ k ∈ u.added.toList) →
        ∃ j keys k, u.modified[j]? = some keys ∧
          (∀ keys ∈ u.modified.take j,
            ∀ k ∈ keys.toList, k ∈ shifted.toList ∨ k ∈ u.added.toList) ∧
          IsLeast {k | k ∈ keys.toList ∧ ¬ (k ∈ shifted.toList ∨ k ∈ u.added.toList)} k ∧
          t.apply u = (.error (.keyNotFound k), t)) := by
  have hsettled := h.settled
  refine ⟨hsettled.accepts_iff.trans exists_prepare_iff, fun hform hmissing => ?_,
    fun shifted hform hremoved hshifts => ⟨fun htaken => ?_, fun hadded habsent => ?_⟩⟩
  · obtain ⟨k, hk, herror⟩ := prepare_missing hform hmissing
    exact ⟨k, hk, hsettled.apply_of_prepare_error herror⟩
  · obtain ⟨k, hk, herror⟩ := prepare_taken hform hremoved hshifts htaken
    exact ⟨k, hk, hsettled.apply_of_prepare_error herror⟩
  · obtain ⟨j, keys, k, hj, hbefore, hk, herror⟩ :=
      prepare_absent hform hremoved hshifts hadded habsent
    exact ⟨j, keys, k, hj, hbefore, hk, hsettled.apply_of_prepare_error herror⟩

/-- Where key 7 becomes key 3, the cell of key 3 can be replaced, but not that of key 4, nor can
keys 2 and 3 be added. Keys 5 to 7 cannot be removed, as key 6 is absent. -/
theorem Reachable.apply_accepts_iff_of_quotes :
    (∃ change t', Quotes.table.apply Quotes.reprice = (.ok change, t')) ∧
    Quotes.table.apply { Quotes.move with removed := .ofRange 5 8 } =
      (.error (.keyNotFound 6), Quotes.table) ∧
    Quotes.table.apply { Quotes.move with
      added := .ofRange 2 4, addBatches := [[Quotes.prices]] } =
      (.error (.duplicateKey 3), Quotes.table) ∧
    Quotes.table.apply { Quotes.move with
      modified := [.ofRange 3 5], modBatches := [[Quotes.prices]] } =
      (.error (.keyNotFound 4), Quotes.table) := by
  have hkeys : Quotes.table.keys.toList = [5, 7] := by decide +kernel
  have hremoved : ∀ k ∈ Quotes.move.removed.toList, k ∈ Quotes.table.keys.toList := by
    decide +kernel
  have hleaves : Quotes.table.keys.Leaves Quotes.move.removed Quotes.move.shifts Quotes.moved := by
    have herase : Quotes.table.keys.eraseAll Quotes.move.removed =
      .ok ⟨[⟨7, 8⟩], by simp [Spaced, maxKey]⟩ := rfl
    exact (KeySpace.leaves_iff herase).mpr rfl
  refine ⟨?_, ?_, ?_, ?_⟩
  · have haccepts := (Reachable.apply_accepts_iff Quotes.reachable_table Quotes.reprice).1
    exact haccepts.mpr ⟨Schema.admits_iff.mpr ⟨.inl rfl, rfl, ⟨_, rfl⟩, _, rfl⟩, Quotes.moved,
      hremoved, hleaves, by decide +kernel, by decide +kernel⟩
  · have hmissing := (Reachable.apply_accepts_iff Quotes.reachable_table { Quotes.move with
      removed := .ofRange 5 8 }).2.1
    obtain ⟨k, ⟨⟨hk, habsent⟩, -⟩, happly⟩ := hmissing
      (Schema.admits_iff.mpr ⟨.inl rfl, rfl, ⟨_, rfl⟩, _, rfl⟩) (by decide +kernel)
    have hrange : (KeySet.ofRange 5 8).toList = [5, 6, 7] := by decide +kernel
    rw [hrange] at hk
    rw [hkeys] at habsent
    obtain rfl : k = 6 := by
      simp only [List.mem_cons, List.not_mem_nil, or_false] at hk habsent
      omega
    exact happly
  · have htaken := (Reachable.apply_accepts_iff Quotes.reachable_table { Quotes.move with
      added := .ofRange 2 4, addBatches := [[Quotes.prices]] }).2.2 Quotes.moved
    obtain ⟨k, ⟨⟨-, hk⟩, -⟩, happly⟩ := (htaken
      (Schema.admits_iff.mpr ⟨.inr rfl, rfl, ⟨_, rfl⟩, _, rfl⟩) hremoved hleaves).1
      (by decide +kernel)
    obtain rfl : k = 3 := List.mem_singleton.mp hk
    exact happly
  · have habsent := (Reachable.apply_accepts_iff Quotes.reachable_table { Quotes.move with
      modified := [.ofRange 3 5], modBatches := [[Quotes.prices]] }).2.2 Quotes.moved
    obtain ⟨j, keys, k, hj, -, ⟨⟨hk, hout⟩, -⟩, happly⟩ := (habsent
      (Schema.admits_iff.mpr ⟨.inl rfl, rfl, ⟨_, rfl⟩, _, rfl⟩) hremoved hleaves).2
      (by decide +kernel) (by decide +kernel)
    have hkeys : keys = .ofRange 3 5 := List.mem_singleton.mp (List.mem_of_getElem? hj)
    have hrange : (KeySet.ofRange 3 5).toList = [3, 4] := by decide +kernel
    rw [hkeys, hrange] at hk
    obtain rfl : k = 4 := by
      rw [not_or] at hout
      rcases List.mem_pair.mp hk with rfl | rfl
      · exact absurd (List.mem_singleton.mpr rfl) hout.1
      · rfl
    exact happly

end LiveTable

end LiveTables
