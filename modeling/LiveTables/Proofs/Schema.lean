import LiveTables.Schema
import LiveTables.Proofs.Column.RoundTrip

/-!
# Types and schemas there and back

Many encodings stand for one column type, and a column type leaves in one of them. So a type comes
back from its encoding, whereas an encoding comes back as the canonical one of its type, which then
stays (`Encoding.canonical_canonical`). Whether there is a type at all is for the innermost elements
to say (`Encoding.columnType_eq_error_iff`).

Schemas find columns by an index of names that is filled column by column. Since no name is filed
twice the index answers what a search through the columns would (`Schema.indexOf?_eq_findIdx?`), and
with distinct names the search has one answer.
-/

namespace LiveTables

/-! ## Column types and encodings -/

namespace Encoding

variable {e c : Encoding} {err : Error} {kind : Unmapped}

theorem isList_innermost : e.innermost.isList = false := by
  induction e with
  | list _ _ _ _ ih => exact ih
  | _ => rfl

/-- There is a column type for an encoding unless there is none for the innermost elements. -/
theorem columnType?_eq_error_iff : e.columnType? = .error kind ↔ e.innermost = .unmapped kind := by
  induction e with
  | list _ _ _ element ih =>
    rw [innermost, ← ih, columnType?]
    cases element.columnType? <;> simp [Except.map]
  | _ => simp [columnType?, innermost]

theorem isUnmapped_iff : e.isUnmapped = true ↔ ∃ kind, e = .unmapped kind := by
  cases e <;> simp [isUnmapped]

/-- What is reported is the kind of the innermost elements. -/
theorem columnType_eq_error_iff : e.columnType = .error err ↔
    ∃ kind, e.innermost = .unmapped kind ∧
      err = .notImplemented (.noColumnMapping kind.name) := by
  simp only [← columnType?_eq_error_iff]
  rw [columnType]
  cases e.columnType? <;> simp [eq_comm]

/-- There is no column type just if there is none for the innermost elements. -/
theorem exists_columnType_eq_error_iff :
    (∃ err, e.columnType = .error err) ↔ e.innermost.isUnmapped = true := by
  simp only [isUnmapped_iff, columnType_eq_error_iff]
  exact ⟨fun ⟨_, kind, hkind, _⟩ => ⟨kind, hkind⟩, fun ⟨kind, hkind⟩ => ⟨_, kind, hkind, rfl⟩⟩

/-- The encoding that an array of this encoding leaves in, once it is in a column. -/
def canonical (e : Encoding) : Except Error Encoding := return (← e.columnType).encoding

/-- What has left once leaves as it is. -/
theorem canonical_canonical (h : e.canonical = .ok c) : c.canonical = .ok c := by
  obtain ⟨t, -, ht⟩ := bind_eq_ok.mp h
  obtain rfl := pure_eq_ok.mp ht
  rw [canonical, ColumnType.columnType_encoding]
  rfl

end Encoding

/-! ## The index of names -/

namespace NameIndex

variable {names names' : NameIndex} {i : Nat} {columns : List ColumnDef} {err : Error}

/-- Columns that are filed are found at the first position that has the name. Where there is none,
the answer is the earlier one. -/
theorem lookup_enter (h : names.enter i columns = .ok names') (name : String) :
    names'.lookup name =
      ((columns.findIdx? (·.name = name)).map (· + i)).or (names.lookup name) := by
  induction columns generalizing names i with
  | nil =>
    obtain rfl := Except.ok.inj h
    rfl
  | cons d ds ih =>
    rw [enter_cons] at h
    split at h
    case isFalse => cases h
    case isTrue =>
      have hnew := (enter_isOk_iff.mp ⟨_, h⟩).2
      rw [ih h, lookup_cons, List.findIdx?_cons]
      by_cases hname : d.name = name
      · -- the name is not filed again, or the position in the index would be a later one
        have hnone : ds.findIdx? (·.name = name) = none := by
          rw [List.findIdx?_eq_none_iff]
          intro x hx
          have hlookup := hnew x hx
          rw [lookup_cons] at hlookup
          split at hlookup
          case isTrue => cases hlookup
          case isFalse hne => exact decide_eq_false (hname ▸ hne)
        simp [hname, hnone]
      · have hsucc : (fun j => j + i) ∘ (fun j => j + 1) = fun j => j + (i + 1) := by
          funext j
          simp only [Function.comp_apply]
          omega
        simp [hname, Ne.symm hname, hsucc]

/-- The column that cannot be filed is the first one whose name is there by then. -/
theorem enter_eq_error (h : names.enter i columns = .error err) :
    ∃ before d after names', columns = before ++ d :: after ∧
      names.enter i before = .ok names' ∧ names'.lookup d.name ≠ none ∧
      err = .invalidArgument (.duplicateColumn d.name) := by
  induction columns generalizing names i with
  | nil => cases h
  | cons d ds ih =>
    rw [enter_cons] at h
    split at h
    case isFalse hd => exact ⟨[], d, ds, names, rfl, rfl, hd, (Except.error.inj h).symm⟩
    case isTrue hd =>
      obtain ⟨before, d', after, names', rfl, hbefore, hd', herr⟩ := ih h
      refine ⟨d :: before, d', after, names', rfl, ?_, hd', herr⟩
      rw [enter_cons, if_pos hd, hbefore]

end NameIndex

/-! ## Schemas -/

namespace Schema

variable {s : Schema} {columns : List ColumnDef} {err : Error}

/-- The index answers what a search through the columns would. -/
theorem indexOf?_eq_findIdx? (s : Schema) (name : String) :
    s.indexOf? name = s.columns.findIdx? (·.name = name) := by
  rw [indexOf?, byName]
  split
  case h_1 names h => simp [NameIndex.lookup_enter h]
  case h_2 h => exact absurd h s.enter_ne_error

/-- The position of a name is the one place where it stands. -/
theorem indexOf?_eq_some_iff {name : String} {i : Nat} :
    s.indexOf? name = some i ↔ ∃ d, s.columns[i]? = some d ∧ d.name = name := by
  rw [indexOf?_eq_findIdx?, List.findIdx?_eq_some_iff_getElem]
  simp only [decide_eq_true_eq]
  refine ⟨fun ⟨hi, hname, _⟩ => ⟨_, List.getElem?_eq_getElem hi, hname⟩, ?_⟩
  rintro ⟨d, hd, rfl⟩
  obtain ⟨hi, rfl⟩ := List.getElem?_eq_some_iff.mp hd
  have hdistinct := List.pairwise_iff_getElem.mp (List.pairwise_map.mp s.distinct)
  exact ⟨hi, rfl, fun j hj => hdistinct j i (hj.trans hi) hi hj⟩

theorem ofColumns_eq_ok (h : ofColumns columns = .ok s) : s.columns = columns := by
  rw [ofColumns] at h
  split at h
  · cases h
  · obtain rfl := Except.ok.inj h
    rfl

/-- Columns with distinct names make a schema. -/
theorem ofColumns_columns (s : Schema) : ofColumns s.columns = .ok s := by
  rw [ofColumns]
  split
  case h_1 h => exact absurd h s.enter_ne_error
  case h_2 => rfl

/-- Columns make a schema just if their names are distinct. -/
theorem exists_ofColumns_iff :
    (∃ s, ofColumns columns = .ok s) ↔ (columns.map ColumnDef.name).Nodup := by
  refine ⟨?_, ?_⟩
  · rintro ⟨s, h⟩
    exact ofColumns_eq_ok h ▸ s.distinct
  · exact fun hdistinct => ⟨_, ofColumns_columns ⟨columns, hdistinct⟩⟩

/-- The name that is refused is the first one that stands further up. -/
theorem ofColumns_eq_error (h : ofColumns columns = .error err) :
    ∃ before d after, columns = before ++ d :: after ∧ (before.map ColumnDef.name).Nodup ∧
      d.name ∈ before.map ColumnDef.name ∧
      err = .invalidArgument (.duplicateColumn d.name) := by
  rw [ofColumns] at h
  split at h
  case h_2 => cases h
  case h_1 e henter =>
    obtain rfl := Except.error.inj h
    obtain ⟨before, d, after, names, rfl, hbefore, hd, herr⟩ := NameIndex.enter_eq_error henter
    refine ⟨before, d, after, rfl, (NameIndex.enter_isOk_iff.mp ⟨_, hbefore⟩).1, ?_, herr⟩
    have hfound : before.findIdx? (·.name = d.name) ≠ none := fun hnone => by
      rw [NameIndex.lookup_enter hbefore, hnone] at hd
      exact hd rfl
    simp only [ne_eq, List.findIdx?_eq_none_iff, decide_eq_false_iff_not, not_forall,
      not_not] at hfound
    obtain ⟨x, hx, hname⟩ := hfound
    exact hname ▸ List.mem_map_of_mem hx

/-- The columns that leave as fields are there again when the fields arrive. -/
theorem ofFields_fields (s : Schema) : ofFields s.fields = .ok s := by
  have hcolumns : s.fields.mapM columnOf = .ok s.columns := by
    rw [mapM_eq_ok, fields, List.forall₂_map_left_iff, List.forall₂_same]
    intro d _
    rw [columnOf, ColumnType.columnType_encoding]
    rfl
  rw [ofFields, hcolumns, ok_bind, ofColumns_columns]

/-- A column type comes back from its encoding. An encoding comes back as the canonical one of its
type, which does not change any more, and it has a type unless its innermost elements are unmapped.
Columns make a schema just if their names are distinct; then each name is found where it stands, and
the schema comes back from its fields. -/
theorem round_trips :
    (∀ t : ColumnType, t.encoding.columnType = .ok t) ∧
    (∀ (e : Encoding) t, e.columnType = .ok t → t.encoding.columnType = .ok t) ∧
    (∀ e c : Encoding, e.canonical = .ok c → c.canonical = .ok c) ∧
    (∀ e : Encoding, e.innermost.isList = false ∧
      ((∃ err, e.columnType = .error err) ↔ e.innermost.isUnmapped = true) ∧
      ∀ err, e.columnType = .error err ↔ ∃ kind, e.innermost = .unmapped kind ∧
        err = .notImplemented (.noColumnMapping kind.name)) ∧
    ∀ columns : List ColumnDef,
      ((∃ s, ofColumns columns = .ok s) ↔ (columns.map ColumnDef.name).Nodup) ∧
      (∀ err, ofColumns columns = .error err →
        ∃ before d after, columns = before ++ d :: after ∧ (before.map ColumnDef.name).Nodup ∧
          d.name ∈ before.map ColumnDef.name ∧
          err = .invalidArgument (.duplicateColumn d.name)) ∧
      ∀ s, ofColumns columns = .ok s → s.columns = columns ∧
        (∀ name i, s.indexOf? name = some i ↔ ∃ d, columns[i]? = some d ∧ d.name = name) ∧
        ofFields s.fields = .ok s := by
  refine ⟨ColumnType.columnType_encoding, fun _ t _ => t.columnType_encoding,
    fun _ _ => Encoding.canonical_canonical, fun e => ?_, fun columns => ?_⟩
  · exact ⟨Encoding.isList_innermost, Encoding.exists_columnType_eq_error_iff,
      fun _ => Encoding.columnType_eq_error_iff⟩
  · refine ⟨exists_ofColumns_iff, fun _ => ofColumns_eq_error, fun s h => ?_⟩
    obtain rfl := ofColumns_eq_ok h
    exact ⟨rfl, fun _ _ => indexOf?_eq_some_iff, ofFields_fields s⟩

/-- Of three columns with lists of lists in large and small arrays, the last one is found, and the
lists leave as small ones. -/
theorem round_trips_of_nested :
    let instants := Encoding.list true "at" false (.timestamp .second (some "UTC"))
    let nested := Encoding.list false "element" true instants
    let columns := [⟨"a", .int8⟩, ⟨"b", .utf8⟩, ⟨"c", .list (.list .timestamp)⟩]
    nested.columnType = .ok (.list (.list .timestamp)) ∧
    (ColumnType.list (.list .timestamp)).encoding.columnType = .ok (.list (.list .timestamp)) ∧
    ∃ s, ofColumns columns = .ok s ∧ s.indexOf? "c" = some 2 ∧ ofFields s.fields = .ok s := by
  intro instants nested columns
  obtain ⟨-, hback, -, -, hschemas⟩ := round_trips
  obtain ⟨hdistinct, -, hschema⟩ := hschemas columns
  obtain ⟨s, hs⟩ := hdistinct.mpr (by simp [columns])
  obtain ⟨-, hindex, hfields⟩ := hschema s hs
  have htype : nested.columnType = .ok (.list (.list .timestamp)) := rfl
  exact ⟨htype, hback nested _ htype, s, hs, (hindex "c" 2).mpr ⟨_, rfl, rfl⟩, hfields⟩

end Schema

end LiveTables
