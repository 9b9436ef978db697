import LiveTables.Proofs.Column.PlainArrays

/-!
# From an array to a column and back

A column takes in lists by cutting an array into an array for each list, and gives them back by
joining these arrays and counting their offsets anew. Nothing is lost on the way
(`ArrayColumn.round_trip`), at whatever depth the lists are: lists without items are passed over
when items are joined, but they have their place among the offsets, and what is not there has its
bit. What leaves is in the canonical encoding, so it is not converted once more when it comes back.

Only lists of the column itself are taken apart. Lists in lists are left to the library of arrays,
which converts and joins them as whole arrays, and is taken at its word (`ArrayLibrary.Lawful`).
-/

namespace LiveTables

namespace Layout

variable {lib : ArrayLibrary} {rows : List (Option Layout)} {row : Option Layout}
  {type : ColumnType}

/-! ## Items one behind the other -/

/-- The cells of a list, if there is one. -/
def rowCells (row : Option Layout) : Option (List Cell) := row.map cells

theorem itemCount_rowCells (hrow : ∀ list, row = some list → list.Sound) :
    itemCount (rowCells row) = rowLength row := by
  cases row with
  | none => rfl
  | some list => exact (hrow list rfl).length_cells

/-- No items are lost with the lists that have none. -/
theorem flatMap_parts (hrows : ∀ list, some list ∈ rows → list.Sound) :
    ((rows.filterMap id).filter (0 < ·.size)).flatMap cells =
      (rows.map rowCells).flatMap (·.getD []) := by
  induction rows with
  | nil => rfl
  | cons row rows ih =>
    have hrest := ih fun list hlist => hrows list (List.mem_cons_of_mem _ hlist)
    cases row with
    | none => exact hrest
    | some list =>
      have hlen := (hrows list (List.mem_cons_self ..)).length_cells
      have hmembers : (some list :: rows).filterMap id = list :: rows.filterMap id := rfl
      rw [hmembers, List.map_cons, List.flatMap_cons, ← hrest]
      by_cases hpos : 0 < list.size
      · rw [List.filter_cons_of_pos (by simpa using hpos), List.flatMap_cons]
        rfl
      · have hempty : list.cells = [] := List.eq_nil_of_length_eq_zero (by omega)
        rw [List.filter_cons_of_neg (by simpa using hpos), rowCells, Option.map_some, hempty,
          Option.getD_some, List.nil_append]

/-- Arrays that are put one behind the other have their cells one behind the other. -/
theorem concat_eq_ok (hlib : lib.Lawful) {parts : List Layout} {b : Layout}
    (hparts : ∀ p ∈ parts, p.Sound ∧ p.encoding = type.encoding)
    (hb : concat lib parts = .ok b) :
    b.Sound ∧ b.encoding = type.encoding ∧ b.cells = parts.flatMap cells := by
  cases parts with
  | nil => cases hb
  | cons part parts =>
    cases parts with
    | nil =>
      obtain rfl := Except.ok.inj hb
      obtain ⟨hsound, he⟩ := hparts part (List.mem_singleton_self part)
      exact ⟨hsound, he, (List.flatMap_singleton ..).symm⟩
    | cons part' parts => exact hlib.joined hparts hb

/-- Arrays can be joined, if there are any and they are not too large together. -/
theorem exists_concat (hlib : lib.Lawful) {parts : List Layout} (hne : parts ≠ [])
    (hparts : ∀ p ∈ parts, p.Sound ∧ p.encoding = type.encoding) (hlight : Light parts) :
    ∃ b, concat lib parts = .ok b := by
  cases parts with
  | nil => exact absurd rfl hne
  | cons part parts =>
    cases parts with
    | nil => exact ⟨part, rfl⟩
    | cons part' parts => exact hlib.concat hparts (Nat.le_add_left ..) hlight

section Rows

variable (hrows : ∀ list, some list ∈ rows → list.Sound ∧ list.encoding = type.encoding)
include hrows

/-- The lists that have items are arrays of items. -/
theorem of_mem_parts : ∀ p ∈ (rows.filterMap id).filter (0 < ·.size),
    p.Sound ∧ p.encoding = type.encoding := fun p hp => by
  obtain ⟨row, hrow, rfl⟩ := List.mem_filterMap.mp (List.mem_of_mem_filter hp)
  exact hrows p hrow

/-- The items of all lists are one behind the other. -/
theorem itemsOf_eq_ok (hlib : lib.Lawful) {items : Layout}
    (h : itemsOf lib type.encoding rows = .ok items) : items.Sound ∧
      items.encoding = type.encoding ∧ items.cells = (rows.map rowCells).flatMap (·.getD []) := by
  have hparts := of_mem_parts hrows
  rw [← flatMap_parts fun list hlist => (hrows list hlist).1]
  rw [itemsOf] at h
  split at h
  · rename_i hempty
    obtain rfl := Except.ok.inj h
    rw [hempty]
    exact hlib.empty type
  · exact concat_eq_ok hlib hparts h

/-- The items of lists that are not too large together can be joined. -/
theorem exists_itemsOf (hlib : lib.Lawful) (hlight : Light (rows.filterMap id)) :
    ∃ items, itemsOf lib type.encoding rows = .ok items := by
  rw [itemsOf]
  split
  · exact ⟨_, rfl⟩
  · rename_i hne
    exact exists_concat hlib hne (of_mem_parts hrows) (hlight.sublist List.filter_sublist)

/-- It is the library that does not join items, if they are not joined. -/
theorem itemsOf_eq_error {failure : Failure}
    (h : itemsOf lib type.encoding rows = .error failure) : ∃ parts : List Layout,
      (∀ p ∈ parts, p.Sound ∧ p.encoding = type.encoding) ∧ lib.concat parts = .error failure := by
  have hparts := of_mem_parts hrows
  rw [itemsOf] at h
  split at h
  · cases h
  · rename_i hne
    generalize (rows.filterMap id).filter (0 < ·.size) = parts at hparts h hne
    refine ⟨parts, hparts, ?_⟩
    cases parts with
    | nil => exact absurd rfl hne
    | cons part parts =>
      cases parts with
      | nil => cases h
      | cons part' parts => exact h

/-! ## Lists together -/

/-- Lists of items of the right encoding pass the check. -/
theorem ofRows_eq : ofRows lib type.encoding rows = (do
    let items ← itemsOf lib type.encoding rows
    let offsets ← offsetsOf (rows.map rowLength)
    Failure.lift (lib.listArray "item" type.encoding true offsets
      (marks (rows.map Option.isSome)) items)) := by
  have hcheck : rows.forM (requireItems lib type.encoding) = .ok () :=
    forM_eq_ok.mpr fun row hrow => by
      cases row with
      | none => rfl
      | some list => exact if_pos (hrows list hrow).2
  rw [ofRows, hcheck]
  rfl

/-- Lists whose items can be joined leave as an array of these lists, if 32 bits can count their
items. -/
theorem ofRows_of_items (hlib : lib.Lawful) {items : Layout}
    (hitems : itemsOf lib type.encoding rows = .ok items)
    (hcount : total (rows.map rowLength) ≤ maxOffset) :
    ∃ out, ofRows lib type.encoding rows = .ok out ∧ out.Sound ∧
      out.encoding = .list false "item" true type.encoding ∧
      out.cells = (Holding.lists rows).toList := by
  obtain ⟨hsitems, heitems, hcells⟩ := itemsOf_eq_ok hrows hlib hitems
  obtain ⟨hoffsets, hbits, hread⟩ := lists_spec hsitems hcells
  -- the lists are counted by their items, and there are items for each list
  have hcounts : (rows.map rowCells).map itemCount = rows.map rowLength := by
    rw [List.map_map]
    exact List.map_congr_left fun row hrow =>
      itemCount_rowCells fun list hlist => (hrows list (hlist ▸ hrow)).1
  have hsome : (rows.map rowCells).map Option.isSome = rows.map Option.isSome := by
    rw [List.map_map]
    exact List.map_congr_left fun row _ => Option.isSome_map
  rw [hcounts, hsome] at hbits hread
  rw [hcounts] at hoffsets
  have hshort : ∀ o ∈ offsetsFrom 0 (rows.map rowLength), o ≤ maxOffset := fun o ho =>
    Nat.le_trans (mem_offsetsFrom ho).2 (by rwa [Nat.zero_add])
  have hmade : lib.listArray "item" items.encoding true (offsetsFrom 0 (rows.map rowLength))
      (marks (rows.map Option.isSome)) items = .ok (.lists false "item" true
        (offsetsFrom 0 (rows.map rowLength)) (marks (rows.map Option.isSome)) items) :=
    hlib.listArray hsitems hoffsets hshort hbits
  rw [heitems] at hmade
  rw [ofRows_eq hrows, hitems, ok_bind, offsetsOf, if_pos hcount, ok_bind, hmade]
  refine ⟨_, rfl, .lists hsitems hoffsets hbits (fun c _ => rfl) fun _ => hshort, ?_, ?_⟩
  · rw [encoding, heitems]
  · rw [cells, hread, List.map_map]
    refine List.map_congr_left fun row _ => ?_
    cases row <;> rfl

/-- Lists that can be counted leave as an array of these lists. -/
theorem ofRows_spec (hlib : lib.Lawful) (hfits : (Holding.lists rows).Fits) :
    ∃ out, ofRows lib type.encoding rows = .ok out ∧ out.Sound ∧
      out.encoding = .list false "item" true type.encoding ∧
      out.cells = (Holding.lists rows).toList := by
  obtain ⟨items, hitems⟩ := exists_itemsOf hrows hlib hfits.2
  exact ofRows_of_items hrows hlib hitems hfits.1

/-- Lists that do not leave have items that cannot be joined, or more than 32 bits can count. -/
theorem ofRows_eq_error (hlib : lib.Lawful) {failure : Failure}
    (h : ofRows lib type.encoding rows = .error failure) :
    itemsOf lib type.encoding rows = .error failure ∨
      failure = .panic ∧ maxOffset < total (rows.map rowLength) := by
  cases hitems : itemsOf lib type.encoding rows with
  | error f =>
    rw [ofRows_eq hrows, hitems] at h
    exact .inl (congrArg Except.error (Except.error.inj h))
  | ok items =>
    refine .inr ?_
    by_cases hcount : total (rows.map rowLength) ≤ maxOffset
    · obtain ⟨out, hout, -⟩ := ofRows_of_items hrows hlib hitems hcount
      rw [hout] at h
      cases h
    · rw [ofRows_eq hrows, hitems, ok_bind, offsetsOf, if_neg hcount] at h
      exact ⟨(Except.error.inj h).symm, Nat.lt_of_not_le hcount⟩

/-- More items than 32 bits can count do not leave. -/
theorem ofRows_eq_ok {out : Layout} (hlib : lib.Lawful)
    (h : ofRows lib type.encoding rows = .ok out) : total (rows.map rowLength) ≤ maxOffset ∧
      out.Sound ∧ out.encoding = .list false "item" true type.encoding ∧
      out.cells = (Holding.lists rows).toList := by
  have hparts := h
  rw [ofRows_eq hrows] at hparts
  obtain ⟨items, hitems, hparts⟩ := bind_eq_ok.mp hparts
  obtain ⟨offsets, hoffsets, -⟩ := bind_eq_ok.mp hparts
  rw [offsetsOf] at hoffsets
  split at hoffsets
  · rename_i hcount
    obtain ⟨out', hout, hspec⟩ := ofRows_of_items hrows hlib hitems hcount
    obtain rfl := Except.ok.inj (h.symm.trans hout)
    exact ⟨hcount, hspec⟩
  · cases hoffsets

end Rows

end Layout

/-! ## Columns of arrays -/

variable {lib : ArrayLibrary} {type : ColumnType} {a b : Layout}

/-- What is kept of an array in the canonical encoding are its cells, and they can leave. -/
theorem Holding.ofCanonical_spec (hlib : lib.Lawful) (ha : a.Sound)
    (he : a.encoding = type.encoding) : (ofCanonical type a).toList = a.cells ∧
      ∃ out, (ofCanonical type a).toLayout lib type = .ok out ∧ out.Sound ∧
        out.encoding = type.encoding ∧ out.cells = a.cells := by
  have hholds : ∀ c ∈ a.cells, type.encoding.holds c = true := he ▸ ha.holds_cells
  have hfits := fits_ofCanonical ha he
  cases type with
  | list element =>
    have hcells := ha.toList_rows he
    exact ⟨hcells,
      hcells ▸ Layout.ofRows_spec (fun list hlist => ha.of_mem_rows he hlist) hlib hfits⟩
  | utf8 =>
    have hfits : Encoding.utf8.fits a.cells = true := decide_eq_true (hfits rfl)
    exact ⟨rfl, _, if_pos hfits, Layout.ofCells_spec hholds hfits⟩
  | _ => exact ⟨rfl, _, rfl, .flat rfl hholds, rfl, rfl⟩

/-- An array that is not in the canonical encoding is converted, and any other is taken as it is.
Either way the cells come into canonical units. -/
theorem Layout.canonical_spec (hlib : lib.Lawful) (ha : a.Sound)
    (htype : a.encoding.columnType = .ok type) (hb : a.canonical lib type = .ok b) :
    b.Sound ∧ b.encoding = type.encoding ∧
      a.cells.mapM a.encoding.canonicalCell = .ok b.cells := by
  rw [canonical] at hb
  split at hb
  · rename_i he
    obtain rfl := Except.ok.inj hb
    refine ⟨ha, he, mapM_eq_ok.mpr (List.forall₂_same.mpr fun x hx => ?_)⟩
    have hholds := ha.holds_cells x hx
    rw [he] at hholds ⊢
    exact Encoding.canonicalCell_eq_self hholds
  · exact hlib.cast ha htype hb

/-- An array in the canonical encoding is always taken in, and as it is. -/
theorem Holding.ofLayout_canonical (he : a.encoding = type.encoding) :
    ofLayout lib type a = .ok (ofCanonical type a) := by
  rw [ofLayout, he, ColumnType.columnType_encoding, ok_bind, ColumnType.require_eq_ok_iff.mpr rfl,
    ok_bind, Layout.canonical, if_pos he]
  rfl

/-! ## The cells without their layout -/

/-- A column of the cells is made of every array that only has these cells to convert. -/
theorem Column.ofArray_of_clear {array : EncodedArray} (hclear : array.Clear)
    (htype : array.encoding.columnType = .ok type) {converted : List Cell}
    (hcells : array.cells.mapM array.encoding.canonicalCell = .ok converted) (backing : Backing) :
    Column.ofArray array backing = .ok ⟨type, .ofList backing converted⟩ := by
  rw [Column.ofArray, htype, ok_bind,
    EncodedArray.cellsAs_eq_ok_iff.mpr ⟨htype, hclear, hcells⟩]
  rfl

/-! ## There and back -/

namespace ArrayColumn

/-- An array that a column could take in is there cell by cell, in canonical units, and changed in
nothing but its values: nulls are null, and lists are lists of the same length, at every depth. The
column can leave as an array of the canonical encoding with the same cells, which are those that
came in if they came in this encoding. However it is stored, a column that takes in this array again
has the same type and the same cells. Where the layouts are left aside, the columns and arrays are
those that are made of the cells. -/
theorem round_trip (hlib : lib.Lawful) (ha : a.Sound) {backing : Backing} {c : ArrayColumn}
    (hc : ofLayout lib a backing = .ok c) :
    c.backing = backing ∧ c.toList.length = a.size ∧ List.Forall₂ SameForm a.cells c.toList ∧
    a.cells.mapM a.encoding.canonicalCell = .ok c.toList ∧
    (∀ array : EncodedArray, array.encoding = a.encoding → array.cells = a.cells → array.Clear →
      Column.ofArray array backing = .ok c.column) ∧
    ∃ out : Layout, out.Sound ∧ c.toLayout lib = .ok out ∧ out.encoding = c.type.encoding ∧
      out.cells = c.toList ∧
      (∃ array, c.column.toArray = .ok array ∧ array.encoding = out.encoding ∧
        array.cells = out.cells) ∧
      (a.encoding = c.type.encoding → out.cells = a.cells) ∧
      ∀ other : Backing, ∃ c', ofLayout lib out other = .ok c' ∧ c'.type = c.type ∧
        c'.backing = other ∧ c'.toList = c.toList := by
  simp only [ofLayout, Holding.ofLayout, bind_eq_ok, pure_eq_ok] at hc
  obtain ⟨type, htype, _, ⟨found, hfound, ⟨⟩, hrequire, b, hb, rfl⟩, rfl⟩ := hc
  obtain ⟨hsound, he, hcells⟩ := Layout.canonical_spec hlib ha htype hb
  obtain ⟨hlist, out, hout, hsout, heout, hcout⟩ := Holding.ofCanonical_spec hlib hsound he
  have hbeside := mapM_eq_ok.mp hcells
  rw [← hlist] at hcells hbeside hcout
  refine ⟨rfl, ?_, ?_, hcells, fun array hencoding hsame hclear => ?_, out, hsout, hout, heout,
    hcout, ?_, fun hsame => ?_, fun other => ?_⟩
  · exact hbeside.length_eq.symm.trans ha.length_cells
  · have hboth := (List.forall₂_and_left _ _).mpr ⟨ha.holds_cells, hbeside⟩
    exact hboth.imp fun x y hxy => Encoding.sameForm_canonicalCell hxy.1 hxy.2
  · rw [← hencoding] at htype hcells
    rw [← hsame] at hcells
    exact Column.ofArray_of_clear hclear htype hcells backing
  · have hcolumn : Column.toList ⟨type, .ofList backing (Holding.ofCanonical type b).toList⟩ =
        out.cells := (Cells.toList_ofList ..).trans hcout.symm
    have hheld : ∀ x ∈ out.cells, type.encoding.holds x = true := heout ▸ hsout.holds_cells
    obtain ⟨array, harray, hencoding, -, hsame⟩ :=
      (ColumnType.leaves_arrayOf hheld).ok (hsout.fits_cells heout)
    rw [Column.toArray, column, toList, hcolumn]
    exact ⟨array, harray, hencoding.trans heout.symm, hsame⟩
  · rw [Layout.canonical, if_pos hsame] at hb
    rw [hcout, hlist, Except.ok.inj hb]
  · refine ⟨⟨type, other, Holding.ofCanonical type out⟩, ?_, rfl, rfl, ?_⟩
    · rw [ofLayout, heout, ColumnType.columnType_encoding, ok_bind,
        Holding.ofLayout_canonical heout]
      rfl
    · exact (Holding.ofCanonical_spec hlib hsout heout).1.trans hcout

/-- Lists of lists of instants in seconds, cut out of a longer array, with items that nobody sees.
There are a list of lists, an empty list and no list; and the first of them is of a list with a
null, an empty list and no list. The instants come back in nanoseconds. -/
theorem round_trip_of_nested : ∃ (a out : Layout) (c : ArrayColumn),
    a.encoding = .list true "u" true (.list false "t" true (.timestamp .second (some "UTC"))) ∧
    a.cells = [.list [.list [.null, .int 1], .list [], .null], .list [], .null] ∧
    a.Sound ∧ ArrayLibrary.plain.Lawful ∧ ofLayout .plain a .array = .ok c ∧
    c.toList = [.list [.list [.null, .int 1000000000], .list [], .null], .list [], .null] ∧
    c.toLayout .plain = .ok out ∧ out.cells = c.toList ∧
    ∃ c', ofLayout .plain out .persistent = .ok c' ∧ c'.toList = c.toList := by
  let times : Layout :=
    .flat (.timestamp .second (some "UTC")) [.int 9, .null, .int 1, .int 2, .int 5]
  let inner : Layout :=
    .lists false "t" true [0, 1, 3, 3, 4, 5] (some [true, true, true, false, true]) times
  let outer : Layout := .lists true "u" true [0, 1, 4, 4, 5] (some [true, true, true, false]) inner
  have htimes : times.Sound := .flat rfl (by decide)
  have hinner : inner.Sound :=
    .lists htimes ⟨by decide, by decide, by decide⟩ (fun l hl => by cases hl; rfl)
      (fun _ _ => rfl) fun _ => by decide
  have houter : outer.Sound :=
    .lists hinner ⟨by decide, by decide, by decide⟩ (fun l hl => by cases hl; rfl)
      (fun _ _ => rfl) nofun
  have ha : (outer.slice 1 3).Sound := houter.slice (by decide)
  obtain ⟨c, hc, hlist⟩ : ∃ c, ofLayout .plain (outer.slice 1 3) .array = .ok c ∧
      c.toList = [.list [.list [.null, .int 1000000000], .list [], .null], .list [], .null] :=
    ⟨_, rfl, rfl⟩
  obtain ⟨-, -, -, -, -, out, -, hout, -, hcells, -, -, hagain⟩ :=
    round_trip ArrayLibrary.plain_lawful ha hc
  obtain ⟨c', hc', -, -, hlist'⟩ := hagain .persistent
  exact ⟨_, out, c, rfl, rfl, ha, ArrayLibrary.plain_lawful, hc, hlist, hout, hcells, c', hc',
    hlist'⟩

end ArrayColumn

end LiveTables
