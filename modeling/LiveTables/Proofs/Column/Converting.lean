import LiveTables.Proofs.Column.Exchange

/-!
# Converting what nobody sees

An array is converted as it is laid out. Where this succeeds each cell is converted by itself
(`Layout.convert_spec`), but it may fail for more than the cells: for offsets that are too large for
32 bits, and for items that belong to no list. An array is `EncodedArray.Clear` if there is nothing
of this kind. Then only its encoding and its cells count (`EncodedArray.cellsAs_of_clear`), and an
array that could be converted was clear (`EncodedArray.cellsAs_eq_ok_iff`).

What fails is the first cell at the bottom that cannot be converted, of those that are stored or of
those that are seen. Both are searched in the same order, so it is enough that they have the same
ones among them.
-/

namespace LiveTables

/-! ## Cells at the bottom -/

namespace Encoding

variable {e : Encoding} {type : ColumnType}

/-- The encoding of the elements of the elements, and so on, until they are no lists. -/
def innermost : Encoding → Encoding
  | list _ _ _ element => element.innermost
  | e => e

/-- The items of the items of cells, and so on, until there are no lists. -/
def leaves : Encoding → List Cell → List Cell
  | list _ _ _ element, cs => element.leaves (cs.flatMap fun c => c.items?.getD [])
  | _, cs => cs

/-- Is there no way to convert the cell? -/
def refuses (e : Encoding) (c : Cell) : Bool := (fault? (e.canonicalCell c)).isSome

/-- The first failure among cells is the one at the bottom. -/
theorem findSome?_leaves (e : Encoding) (cs : List Cell) :
    (cs.findSome? fun c => fault? (e.canonicalCell c)) =
      (e.leaves cs).findSome? fun c => fault? (e.innermost.canonicalCell c) := by
  induction e generalizing cs with
  | list large field nullable element ih =>
    have hcell : ∀ c, fault? ((list large field nullable element).canonicalCell c) =
        (c.items?.getD []).findSome? fun x => fault? (element.canonicalCell x) := fun c => by
      cases c with
      | list items => exact fault?_map.trans fault?_mapM
      | _ => rfl
    rw [leaves, innermost, ← ih, findSome?_flatMap]
    exact congrArg (cs.findSome? ·) (funext hcell)
  | _ => rfl

/-- A walk looks for a failure only where there can be one. -/
theorem findSome?_filter_refuses (e : Encoding) (cs : List Cell) :
    ((cs.filter e.refuses).findSome? fun c => fault? (e.canonicalCell c)) =
      cs.findSome? fun c => fault? (e.canonicalCell c) := by
  rw [← List.head?_filterMap, ← List.head?_filterMap, List.filterMap_filter]
  refine congrArg List.head? (List.filterMap_congr fun c _ => ?_)
  rw [refuses]
  cases fault? (e.canonicalCell c) <;> rfl

/-- The items decide about the type of lists. -/
theorem columnType_list {large nullable : Bool} {field : String} {element : Encoding}
    (h : (list large field nullable element).columnType = .ok type) :
    ∃ inner, type = .list inner ∧ element.columnType = .ok inner := by
  obtain ⟨inner, rfl, helement⟩ := columnType?_list (columnType_eq_ok_iff.mp h)
  exact ⟨inner, rfl, columnType_eq_ok_iff.mpr helement⟩

/-- What needs no offsets has a type that needs none. -/
theorem isFlat_columnType (he : e.isFlat = true) (htype : e.columnType? = .ok type) :
    type.encoding.isFlat = true := by
  cases e with
  | list | utf8 | largeUtf8 => cases he
  | unmapped => cases htype
  | _ =>
    cases htype
    rfl

theorem innermost_of_isFlat (he : e.isFlat = true) : e.innermost = e := by
  cases e with
  | list => cases he
  | _ => rfl

/-- Texts are not converted, but their offsets are. -/
theorem canonicalCell_text {c : Cell} (large : Bool) :
    (if large then largeUtf8 else utf8).canonicalCell c = .ok c := by
  cases large <;> rfl

end Encoding

/-! ## Layouts -/

namespace Layout

variable {a b : Layout} {type : ColumnType}

/-- All cells at the bottom of a layout, seen or not. -/
def leaves : Layout → List Cell
  | flat _ cells | texts _ _ cells => cells
  | lists _ _ _ _ _ items => items.leaves

/-- Are offsets of 32 bits enough for a layout? -/
def Narrow : Layout → Prop
  | flat .. => True
  | texts _ offsets _ => ∀ o ∈ offsets, o ≤ maxOffset
  | lists large _ _ _ _ items => (large = true → items.size ≤ maxOffset) ∧ items.Narrow

theorem texts_columnType {large : Bool} {offsets : List Nat} {cells : List Cell}
    (htype : (texts large offsets cells).encoding.columnType = .ok type) : type = .utf8 := by
  cases large <;> exact (Except.ok.inj htype).symm

/-- Lists are converted with the items that they are parts of. -/
theorem mapM_cells_lists {large nullable : Bool} {field : String} {offsets : List Nat}
    {bits : Option (List Bool)} {items items' : Layout}
    (h : List.Forall₂ (items.encoding.canonicalCell · = .ok ·) items.cells items'.cells) :
    (lists large field nullable offsets bits items).cells.mapM
        (lists large field nullable offsets bits items).encoding.canonicalCell =
      .ok (lists false "item" true offsets bits items').cells := by
  rw [mapM_eq_ok, cells, cells, cellsOf, cellsOf, List.forall₂_map_left_iff,
    List.forall₂_map_right_iff, List.forall₂_same]
  intro span _
  cases span with
  | none => rfl
  | some r =>
    have hpart : ((items.cells.drop r.start).take r.width).mapM items.encoding.canonicalCell =
        .ok ((items'.cells.drop r.start).take r.width) :=
      mapM_eq_ok.mpr (List.forall₂_take _ (List.forall₂_drop _ h))
    rw [encoding, Option.map_some, Option.map_some]
    change Cell.list <$> _ = _
    rw [hpart]
    rfl

/-- What is converted with all of its items is converted in each of its cells. -/
theorem convert_spec (ha : a.Sound) (htype : a.encoding.columnType = .ok type)
    (hb : a.convert = .ok b) : b.Sound ∧ b.encoding = type.encoding ∧
      a.cells.mapM a.encoding.canonicalCell = .ok b.cells := by
  induction ha generalizing type b with
  | @flat e cs hencoding hcells =>
    simp only [convert, bind_eq_ok, pure_eq_ok] at hb
    obtain ⟨type', htype', cs', hcs', rfl⟩ := hb
    obtain rfl : type' = type := Except.ok.inj (htype'.symm.trans htype)
    have htype := Encoding.columnType_eq_ok_iff.mp htype
    have hboth := (List.forall₂_and_left _ _).mpr ⟨hcells, mapM_eq_ok.mp hcs'⟩
    refine ⟨.flat (Encoding.isFlat_columnType hencoding htype) ?_, rfl, hcs'⟩
    exact forall_mem_right (fun x y hxy => Encoding.holds_canonicalCell htype hxy.1 hxy.2) hboth
  | @texts large offsets cs hcells hlength hordered hbytes hsmall =>
    obtain rfl := texts_columnType htype
    rw [convert] at hb
    split at hb
    · rename_i hall
      obtain rfl := Except.ok.inj hb
      refine ⟨.texts hcells hlength hordered hbytes fun _ => by simpa using hall, rfl, ?_⟩
      exact mapM_eq_ok.mpr (List.forall₂_same.mpr fun x _ => Encoding.canonicalCell_text large)
    · cases hb
  | @lists large field nullable offsets bits items hitems hoffsets hbits hnulls hsmall ih =>
    rw [convert] at hb
    split at hb
    · cases hb
    rename_i hcount
    obtain ⟨items', hitems', hb⟩ := bind_eq_ok.mp hb
    obtain rfl := pure_eq_ok.mp hb
    obtain ⟨inner, rfl, helement⟩ := Encoding.columnType_list htype
    obtain ⟨hsound, hencoding, hcells⟩ := ih helement hitems'
    have hbeside := mapM_eq_ok.mp hcells
    have hsize : items'.size = items.size := by
      rw [← hsound.length_cells, ← hbeside.length_eq, hitems.length_cells]
    have hshort : ∀ o ∈ offsets, o ≤ maxOffset := fun o ho => by
      cases large with
      | false => exact hsmall rfl o ho
      | true =>
        have hle := hoffsets.bound o ho
        have hcount : ¬ maxOffset < items.size := by simpa using hcount
        omega
    refine ⟨.lists hsound (hsize ▸ hoffsets) hbits (fun _ _ => rfl) fun _ => hshort, ?_,
      mapM_cells_lists hbeside⟩
    rw [encoding, hencoding, ColumnType.encoding]

/-- An array for whose offsets 32 bits are enough fails as the first cell at its bottom does. -/
theorem fault?_convert (ha : a.Sound) (htype : a.encoding.columnType = .ok type)
    (hnarrow : a.Narrow) : fault? a.convert =
      a.leaves.findSome? fun c => fault? (a.encoding.innermost.canonicalCell c) := by
  induction ha generalizing type with
  | @flat e cs hencoding =>
    have htype : e.columnType = .ok type := htype
    rw [leaves, encoding, Encoding.innermost_of_isFlat hencoding, ← fault?_mapM, convert, htype,
      ok_bind]
    exact fault?_map
  | @texts large offsets cs =>
    have hall : offsets.all (· ≤ maxOffset) = true :=
      List.all_eq_true.mpr fun o ho => decide_eq_true (hnarrow o ho)
    rw [convert, if_pos hall]
    refine (List.findSome?_eq_none_iff.mpr fun c _ => ?_).symm
    cases large <;> rfl
  | @lists large field nullable offsets bits items _ _ _ _ _ ih =>
    obtain ⟨inner, -, helement⟩ := Encoding.columnType_list htype
    have hcount : (large && maxOffset < items.size) = false := by
      cases large with
      | false => rfl
      | true => simpa using hnarrow.1 rfl
    rw [convert, hcount]
    exact fault?_map.trans (ih helement hnarrow.2)

/-- Offsets of 32 bits are enough for what was converted. -/
theorem narrow_of_convert (ha : a.Sound) (hb : a.convert = .ok b) : a.Narrow := by
  induction ha generalizing b with
  | flat => trivial
  | @texts large offsets cs =>
    rw [convert] at hb
    split at hb
    · rename_i hall
      exact fun o ho => of_decide_eq_true (List.all_eq_true.mp hall o ho)
    · cases hb
  | @lists large field nullable offsets bits items _ _ _ _ _ ih =>
    rw [convert] at hb
    split at hb
    · cases hb
    · rename_i hcount
      obtain ⟨items', hitems', -⟩ := bind_eq_ok.mp hb
      refine ⟨fun hlarge => ?_, ih hitems'⟩
      simpa [hlarge] using hcount

/-- Nothing is stored of a part that is not stored of the whole. -/
theorem Narrow.slice (h : a.Narrow) (i n : Nat) :
    (a.slice i n).Narrow ∧ ∀ c ∈ (a.slice i n).leaves, c ∈ a.leaves := by
  have hpart {α : Type} {l : List α} {x : α} {m : Nat} (hx : x ∈ (l.drop i).take m) : x ∈ l :=
    List.mem_of_mem_drop (List.mem_of_mem_take hx)
  cases a with
  | flat => exact ⟨trivial, fun c hc => hpart hc⟩
  | texts => exact ⟨fun o ho => h o (hpart ho), fun c hc => hpart hc⟩
  | lists => exact ⟨h, fun c hc => hc⟩

/-- An array fails to be converted for its offsets or for a cell. -/
theorem convert_eq_error {error : Error} (ha : a.Sound) (htype : a.encoding.columnType = .ok type)
    (h : a.convert = .error error) : ∃ fault, error = .conversion fault := by
  induction ha generalizing type error with
  | @flat e cs =>
    have htype : e.columnType = .ok type := htype
    rw [convert, htype, ok_bind] at h
    rcases bind_eq_error.mp h with h | ⟨_, -, h⟩
    · obtain ⟨-, c, -, hc, -⟩ := mapM_eq_error h
      exact Encoding.canonicalCell_eq_error hc
    · cases h
  | texts =>
    rw [convert] at h
    split at h
    · cases h
    · exact ⟨_, (Except.error.inj h).symm⟩
  | lists _ _ _ _ _ ih =>
    obtain ⟨inner, -, helement⟩ := Encoding.columnType_list htype
    rw [convert] at h
    split at h
    · exact ⟨_, (Except.error.inj h).symm⟩
    · rcases bind_eq_error.mp h with h | ⟨_, -, h⟩
      · exact ih helement h
      · cases h

/-- An array in the canonical encoding stays as it is. -/
theorem convert_canonical (ha : a.Sound) (he : a.encoding = type.encoding) :
    a.convert = .ok a := by
  induction ha generalizing type with
  | @flat e cs hencoding hcells =>
    have he : e = type.encoding := he
    have hcells : cs.mapM e.canonicalCell = .ok cs :=
      mapM_eq_ok.mpr (List.forall₂_same.mpr fun x hx => by
        rw [he]
        exact Encoding.canonicalCell_eq_self (he ▸ hcells x hx))
    have htype : e.columnType = .ok type := by
      rw [Encoding.columnType_eq_ok_iff, he, ColumnType.columnType?_encoding]
    rw [convert, htype, ok_bind, hcells, ok_bind, he]
    rfl
  | @texts large offsets cs _ _ _ _ hsmall =>
    cases large with
    | true => cases type <;> cases he
    | false =>
      have hall : offsets.all (· ≤ maxOffset) = true := by simpa using hsmall rfl
      rw [convert, if_pos hall]
  | @lists large field nullable offsets bits items _ _ _ _ _ ih =>
    cases type with
    | list element =>
      obtain ⟨rfl, rfl, rfl, hitems⟩ := Encoding.list.inj he
      rw [convert, ih hitems]
      rfl
    | _ => cases he

end Layout

/-! ## Arrays -/

theorem ColumnType.columnType_encoding (type : ColumnType) :
    type.encoding.columnType = .ok type := by
  rw [Encoding.columnType, columnType?_encoding]

namespace EncodedArray

variable {a : EncodedArray} {type : ColumnType} {cells : List Cell} {i n : Nat}

/-- Nothing is in the way of a conversion but the cells of the array: offsets of 32 bits are enough,
and every stored cell that cannot be converted is one that is seen. -/
structure Clear (a : EncodedArray) : Prop where
  narrow : a.layout.Narrow
  seen : a.layout.leaves.filter a.encoding.innermost.refuses =
    (a.encoding.leaves a.cells).filter a.encoding.innermost.refuses

/-- It makes no difference to convert an array that is in the canonical encoding already. -/
theorem cellsAs_eq (a : EncodedArray) (type : ColumnType) : a.cellsAs type = (do
    let found ← a.encoding.columnType
    type.require found
    return (← a.layout.convert).cells) := by
  rw [cellsAs]
  split
  · rename_i he
    rw [Layout.convert_canonical a.sound he]
    rfl
  · rfl

/-- Of a clear array only its encoding and its own cells count. -/
theorem cellsAs_of_clear (h : a.Clear) : a.cellsAs type = (do
    let found ← a.encoding.columnType
    type.require found
    a.cells.mapM a.encoding.canonicalCell) := by
  rw [cellsAs_eq]
  cases hfound : a.encoding.columnType with
  | error e => rfl
  | ok found =>
    have hconvert : (do return (← a.layout.convert).cells) =
        a.cells.mapM a.encoding.canonicalCell := by
      cases hmade : a.layout.convert with
      | ok b => exact (Layout.convert_spec a.sound hfound hmade).2.2.symm
      | error e =>
        -- the first stored cell that cannot be converted is the first one that is seen
        let leaf := a.encoding.innermost
        have hfault := calc
          fault? a.layout.convert
            = a.layout.leaves.findSome? fun c => fault? (leaf.canonicalCell c) :=
              Layout.fault?_convert a.sound hfound h.narrow
          _ = (a.layout.leaves.filter leaf.refuses).findSome? fun c =>
                fault? (leaf.canonicalCell c) := (Encoding.findSome?_filter_refuses ..).symm
          _ = ((a.encoding.leaves a.cells).filter leaf.refuses).findSome? fun c =>
                fault? (leaf.canonicalCell c) := by rw [h.seen]
          _ = (a.encoding.leaves a.cells).findSome? fun c => fault? (leaf.canonicalCell c) :=
              Encoding.findSome?_filter_refuses ..
          _ = a.cells.findSome? fun c => fault? (a.encoding.canonicalCell c) :=
              (Encoding.findSome?_leaves ..).symm
          _ = fault? (a.cells.mapM a.encoding.canonicalCell) := fault?_mapM.symm
        rw [hmade] at hfault
        exact (fault?_eq_some_iff.mp hfault.symm).symm
    rw [ok_bind, ok_bind, hconvert]

/-- Where everything that is stored can be converted, an array is clear if its cells can be. -/
theorem clear_of_leaves (hnarrow : a.layout.Narrow)
    (hstored : ∀ c ∈ a.layout.leaves, fault? (a.encoding.innermost.canonicalCell c) = none)
    (hcells : a.cells.mapM a.encoding.canonicalCell = .ok cells) : a.Clear := by
  have hnone : ∀ {cs : List Cell},
      (cs.findSome? fun c => fault? (a.encoding.innermost.canonicalCell c)) = none →
        cs.filter a.encoding.innermost.refuses = [] := fun h => by
    refine List.filter_eq_nil_iff.mpr fun c hc => ?_
    rw [Encoding.refuses, List.findSome?_eq_none_iff.mp h c hc]
    exact Bool.false_ne_true
  have hseen : ((a.encoding.leaves a.cells).findSome? fun c =>
      fault? (a.encoding.innermost.canonicalCell c)) = none := by
    rw [← Encoding.findSome?_leaves, ← fault?_mapM, hcells]
    rfl
  exact ⟨hnarrow, (hnone (List.findSome?_eq_none_iff.mpr hstored)).trans (hnone hseen).symm⟩

/-- Everything that is stored of an array can be converted, if the array can be. -/
theorem leaves_of_cellsAs (h : a.cellsAs type = .ok cells) : a.layout.Narrow ∧
    a.encoding.columnType = .ok type ∧ a.cells.mapM a.encoding.canonicalCell = .ok cells ∧
    ∀ c ∈ a.layout.leaves, fault? (a.encoding.innermost.canonicalCell c) = none := by
  simp only [cellsAs_eq, bind_eq_ok, pure_eq_ok] at h
  obtain ⟨found, hfound, ⟨⟩, hrequire, b, hb, rfl⟩ := h
  obtain rfl := ColumnType.require_eq_ok_iff.mp hrequire
  have hnarrow := Layout.narrow_of_convert a.sound hb
  refine ⟨hnarrow, hfound, (Layout.convert_spec a.sound hfound hb).2.2, ?_⟩
  have hfault := Layout.fault?_convert a.sound hfound hnarrow
  rw [hb] at hfault
  exact List.findSome?_eq_none_iff.mp hfault.symm

/-- An array that was converted is clear. -/
theorem clear_of_cellsAs (h : a.cellsAs type = .ok cells) : a.Clear := by
  obtain ⟨hnarrow, -, hcells, hstored⟩ := leaves_of_cellsAs h
  exact clear_of_leaves hnarrow hstored hcells

/-- An array becomes cells of a type if its encoding stands for the type, nothing but its cells is
in the way, and these can be converted. -/
theorem cellsAs_eq_ok_iff : a.cellsAs type = .ok cells ↔
    a.encoding.columnType = .ok type ∧ a.Clear ∧
      a.cells.mapM a.encoding.canonicalCell = .ok cells := by
  refine ⟨fun h => ?_, ?_⟩
  · obtain ⟨-, htype, hcells, -⟩ := leaves_of_cellsAs h
    exact ⟨htype, clear_of_cellsAs h, hcells⟩
  · rintro ⟨htype, hclear, hcells⟩
    rw [cellsAs_of_clear hclear, htype, ok_bind, ColumnType.require_eq_ok_iff.mpr rfl, ok_bind,
      hcells]

/-- A conversion gives a cell for each cell. -/
theorem length_cellsAs (h : a.cellsAs type = .ok cells) : cells.length = a.size := by
  obtain ⟨-, -, hcells⟩ := cellsAs_eq_ok_iff.mp h
  exact (mapM_eq_ok.mp hcells).length_eq.symm

/-- What an array becomes are cells of the type. -/
theorem holds_of_cellsAs (h : a.cellsAs type = .ok cells) :
    ∀ y ∈ cells, type.encoding.holds y = true := by
  obtain ⟨htype, -, hcells⟩ := cellsAs_eq_ok_iff.mp h
  have htype := Encoding.columnType_eq_ok_iff.mp htype
  refine forall_mem_right (fun x y hxy => ?_)
    ((List.forall₂_and_left _ _).mpr ⟨a.sound.holds_cells, mapM_eq_ok.mp hcells⟩)
  exact Encoding.holds_canonicalCell htype hxy.1 hxy.2

/-- An array fails to become cells of a type for its encoding, its offsets or a cell. -/
theorem cellsAs_eq_error {error : Error} (h : a.cellsAs type = .error error) :
    a.encoding.columnType = .error error ∨
      (∃ found, a.encoding.columnType = .ok found ∧ type.require found = .error error) ∨
      ∃ fault, error = .conversion fault := by
  rw [cellsAs_eq] at h
  rcases bind_eq_error.mp h with h | ⟨found, hfound, h⟩
  · exact .inl h
  rcases bind_eq_error.mp h with h | ⟨⟨⟩, -, h⟩
  · exact .inr (.inl ⟨found, hfound, h⟩)
  rcases bind_eq_error.mp h with h | ⟨_, -, h⟩
  · exact .inr (.inr (Layout.convert_eq_error a.sound hfound h))
  · cases h

/-! ### Parts -/

/-- A part of an array that can be converted becomes a part of what the array becomes. -/
theorem cellsAs_slice (h : a.cellsAs type = .ok cells) :
    (a.slice i n).cellsAs type = .ok ((cells.drop i).take n) := by
  obtain ⟨hnarrow, htype, hcells, hstored⟩ := leaves_of_cellsAs h
  have hpart : (a.slice i n).cells.mapM (a.slice i n).encoding.canonicalCell =
      .ok ((cells.drop i).take n) := by
    rw [encoding_slice, cells_slice]
    exact mapM_eq_ok.mpr (List.forall₂_take n (List.forall₂_drop i (mapM_eq_ok.mp hcells)))
  have htype' : (a.slice i n).encoding.columnType = .ok type := by rwa [encoding_slice]
  obtain ⟨hnarrow', hleaves⟩ := hnarrow.slice _ _
  refine cellsAs_eq_ok_iff.mpr ⟨htype', clear_of_leaves hnarrow' (fun c hc => ?_) hpart, hpart⟩
  rw [encoding_slice]
  exact hstored c (hleaves c hc)

/-- An array that was cut in two becomes what the whole array becomes, cut in two. -/
theorem cellsAs_cut (h : a.cellsAs type = .ok cells) :
    (a.slice 0 i).cellsAs type = .ok (cells.take i) ∧
      (a.slice i (a.size - i)).cellsAs type = .ok (cells.drop i) := by
  refine ⟨cellsAs_slice h, ?_⟩
  rw [cellsAs_slice h, List.take_of_length_le]
  rw [List.length_drop, length_cellsAs h]

end EncodedArray

end LiveTables
