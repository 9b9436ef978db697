import LiveTables.Column.Holding
import LiveTables.Proofs.Column.Exchange
import Mathlib.Algebra.Order.BigOperators.Group.List

/-!
# How much arrays have below

Offsets ascend, so what lists have below them are runs that do not overlap, at whatever depth. A
part of an array has between its ends what the array has there (`Layout.weight_slice`), so the lists
of an array have no more below them together than the array itself
(`Layout.Sound.sum_weight_rows_le`). In a canonical encoding this is no more than 32 bits can count,
which is why columns that were made of one array can leave as one
(`Holding.fits_ofCanonical`).
-/

namespace LiveTables

/-! ## Sums -/

section Sums

variable {α β : Type} {g : β → Nat}

theorem total_eq_sum (counts : List Nat) : total counts = counts.sum := rfl

theorem total_map_flatMap (f : α → List β) (l : List α) :
    total ((l.flatMap f).map g) = total (l.map fun a => total ((f a).map g)) := by
  induction l with
  | nil => rfl
  | cons a l ih =>
    rw [List.flatMap_cons, List.map_append, total_eq_sum, List.sum_append, ← total_eq_sum,
      ← total_eq_sum, ih, List.map_cons, total_cons]

theorem total_map_filterMap_id (l : List (Option β)) :
    total ((l.filterMap id).map g) = total (l.map fun x => x.elim 0 g) := by
  induction l with
  | nil => rfl
  | cons x l ih =>
    cases x with
    | none => exact ih.trans (Nat.zero_add _).symm
    | some b => exact congrArg (g b + ·) ih

end Sums

namespace Layout

variable {a : Layout} {offsets : List Nat} {type : ColumnType} {e : Encoding}
  {parts parts' : List Layout} {i j n size depth : Nat}

/-! ## Ascending offsets -/

theorem getD_eq (hi : i < offsets.length) : offsets.getD i 0 = offsets[i] := by
  rw [List.getD_eq_getElem?_getD, List.getElem?_eq_getElem hi, Option.getD_some]

theorem getD_le_getD (h : offsets.Pairwise (· ≤ ·)) (hij : i ≤ j) (hj : j < offsets.length) :
    offsets.getD i 0 ≤ offsets.getD j 0 := by
  have hi := Nat.lt_of_le_of_lt hij hj
  rw [getD_eq hi, getD_eq hj]
  rcases Nat.lt_or_eq_of_le hij with hlt | rfl
  · exact List.pairwise_iff_getElem.mp h i j hi hj hlt
  · exact Nat.le_refl _

theorem getD_le (h : ∀ o ∈ offsets, o ≤ n) : offsets.getD i 0 ≤ n := by
  rw [List.getD_eq_getElem?_getD]
  cases hi : offsets[i]? with
  | none => exact Nat.zero_le n
  | some o => exact h o (List.mem_of_getElem? hi)

/-- What grows along the offsets grows by no more in all spans than from the first offset to the
last one. -/
theorem sum_spans_le {f : Nat → Nat} (h : Within offsets size)
    (hf : ∀ i j, i ≤ j → j ≤ size → f i ≤ f j) :
    total ((spans offsets).map fun r => f r.stop - f r.start) + f (offsets.getD 0 0) ≤
      f (offsets.getD (offsets.length - 1) 0) := by
  obtain ⟨hne, hordered, hbound⟩ := h
  induction offsets with
  | nil => exact absurd rfl hne
  | cons start offsets ih =>
    cases offsets with
    | nil => exact Nat.le_of_eq (Nat.zero_add _)
    | cons stop offsets =>
      obtain ⟨hstart, hordered⟩ := List.pairwise_cons.mp hordered
      obtain ⟨-, hbound⟩ := List.forall_mem_cons.mp hbound
      have hrest := ih (List.cons_ne_nil _ _) hordered hbound
      have hstep : f start ≤ f stop := hf start stop (hstart stop (List.mem_cons_self ..))
        (hbound stop (List.mem_cons_self ..))
      rw [spans, List.map_cons, total_cons]
      simp only [List.getD_cons_zero, List.length_cons, Nat.add_sub_cancel,
        List.getD_cons_succ] at hrest ⊢
      omega

/-! ## Where cells begin below -/

/-- The cells of a part begin where they do in the whole. -/
theorem reach_slice (a : Layout) (depth : Nat) (hj : j ≤ n) :
    (a.slice i n).reach depth j = a.reach depth (i + j) := by
  have hoffsets (offsets : List Nat) :
      ((offsets.drop i).take (n + 1)).getD j 0 = offsets.getD (i + j) 0 := by
    rw [List.getD_eq_getElem?_getD, List.getD_eq_getElem?_getD,
      List.getElem?_take_of_lt (Nat.lt_succ_of_le hj), List.getElem?_drop]
  cases a with
  | flat => cases depth <;> rfl
  | texts large offsets cells =>
    cases depth with
    | zero => exact hoffsets offsets
    | succ => rfl
  | lists large field nullable offsets bits items =>
    cases depth with
    | zero => exact hoffsets offsets
    | succ depth => exact congrArg (items.reach depth) (hoffsets offsets)

/-- Later cells begin later. -/
theorem Sound.reach_mono (h : a.Sound) (hij : i ≤ j) (hj : j ≤ a.size) :
    a.reach depth i ≤ a.reach depth j := by
  induction h generalizing depth i j with
  | flat => cases depth <;> exact Nat.le_refl _
  | texts _ hlength hordered =>
    cases depth with
    | zero => exact getD_le_getD hordered hij (by rw [← hlength]; exact Nat.lt_succ_of_le hj)
    | succ => exact Nat.le_refl _
  | @lists _ _ _ offsets _ _ _ hoffsets _ _ _ ih =>
    have hpos : 0 < offsets.length := List.length_pos_iff.mpr hoffsets.nonempty
    have hle := getD_le_getD hoffsets.ordered hij (by rw [size] at hj; omega)
    cases depth with
    | zero => exact hle
    | succ depth => exact ih hle (getD_le hoffsets.bound)

/-- In canonical encodings all offsets have 32 bits. -/
theorem Sound.reach_le (h : a.Sound) (he : a.encoding = type.encoding) :
    a.reach depth i ≤ maxOffset := by
  induction h generalizing type depth i with
  | flat => cases depth <;> exact Nat.zero_le _
  | @texts large _ _ _ _ _ _ hsmall =>
    cases depth with
    | zero =>
      refine getD_le (hsmall ?_)
      cases large with
      | false => rfl
      | true => cases type <;> cases he
    | succ => exact Nat.zero_le _
  | @lists large _ _ _ _ _ _ _ _ _ hsmall ih =>
    cases type with
    | list element =>
      obtain ⟨rfl, -, -, hitems⟩ := Encoding.list.inj he
      cases depth with
      | zero => exact getD_le (hsmall rfl)
      | succ depth => exact ih hitems
    | _ => cases he

/-- A part has between its ends what the whole has there. -/
theorem weight_slice (h : a.Sound) (hin : i + n ≤ a.size) :
    (a.slice i n).weight depth = a.reach depth (i + n) - a.reach depth i := by
  rw [weight, h.size_slice hin, reach_slice a depth (Nat.le_refl n),
    reach_slice a depth (Nat.zero_le n), Nat.add_zero]

theorem Sound.weight_le (h : a.Sound) (he : a.encoding = type.encoding) (depth : Nat) :
    a.weight depth ≤ maxOffset :=
  Nat.le_trans (Nat.sub_le ..) (h.reach_le he)

/-! ## Lists one by one -/

variable {large nullable : Bool} {field : String} {list : Layout} {element : Encoding}

/-- What is kept of lists are the lists. -/
theorem Sound.toList_rows (h : a.Sound) (he : a.encoding = .list large field nullable element) :
    (Holding.lists a.rows).toList = a.cells := by
  cases h with
  | @flat e _ hencoding =>
    obtain rfl : e = .list large field nullable element := he
    cases hencoding
  | @texts large' =>
    cases large' <;> cases he
  | @lists _ _ _ offsets bits items =>
    rw [Holding.toList, rows, cells, cellsOf, List.map_map]
    refine List.map_congr_left fun span _ => ?_
    cases span with
    | none => rfl
    | some r => exact congrArg Cell.list (cells_slice items r.start r.width)

/-- A list that is kept is a part of the items. -/
theorem Sound.of_mem_rows (h : a.Sound) (he : a.encoding = .list large field nullable element)
    (hrow : some list ∈ a.rows) : list.Sound ∧ list.encoding = element := by
  cases h with
  | flat | texts => cases hrow
  | @lists _ _ _ offsets _ items hitems hoffsets =>
    obtain ⟨span, hspan, hlist⟩ := List.mem_map.mp hrow
    obtain ⟨r, rfl, rfl⟩ := Option.map_eq_some_iff.mp hlist
    obtain ⟨hle, hstop⟩ := hoffsets.span (mem_of_mem_present hspan)
    obtain ⟨-, -, -, rfl⟩ := Encoding.list.inj he
    refine ⟨hitems.slice ?_, encoding_slice ..⟩
    rw [Run.width]
    omega

/-- What is left out of a list of numbers makes the sum no greater. -/
theorem sum_present_le {α : Type} (f : α → Nat) (bits : Option (List Bool)) (l : List α) :
    total ((present bits l).map fun x => x.elim 0 f) ≤ total (l.map f) := by
  cases bits with
  | none =>
    rw [present, List.map_map]
    exact Nat.le_refl _
  | some bits =>
    induction l generalizing bits with
    | nil => simp [present]
    | cons x l ih =>
      cases bits with
      | nil => exact Nat.zero_le _
      | cons bit bits =>
        have hrest := ih bits
        rw [present] at hrest
        rw [present, List.zipWith_cons_cons, List.map_cons, total_cons, List.map_cons,
          total_cons]
        cases bit with
        | true => exact Nat.add_le_add_left hrest _
        | false => exact Nat.le_trans (by simpa using hrest) (Nat.le_add_left ..)

/-- What lists have of a quantity that grows along the items, they have between the first offset and
the last one. -/
theorem sum_rows_le {offsets : List Nat} {bits : Option (List Bool)} {items : Layout}
    {f : Nat → Nat} {g : Layout → Nat} (hoffsets : Within offsets items.size)
    (hf : ∀ i j, i ≤ j → j ≤ items.size → f i ≤ f j)
    (hg : ∀ i n, i + n ≤ items.size → g (items.slice i n) = f (i + n) - f i) :
    total ((rows (.lists large field nullable offsets bits items)).map fun row => row.elim 0 g) ≤
      f (offsets.getD (offsets.length - 1) 0) - f (offsets.getD 0 0) := by
  have hspans : (rows (.lists large field nullable offsets bits items)).map
      (fun row => row.elim 0 g) =
        (present bits (spans offsets)).map fun x => x.elim 0 fun r => f r.stop - f r.start := by
    rw [rows, List.map_map]
    refine List.map_congr_left fun span hspan => ?_
    cases span with
    | none => rfl
    | some r =>
      obtain ⟨hle, hstop⟩ := hoffsets.span (mem_of_mem_present hspan)
      have hend : r.start + r.width = r.stop := by
        rw [Run.width]
        omega
      have hpart := hg r.start r.width (hend ▸ hstop)
      rwa [hend] at hpart
  have hsum := sum_spans_le hoffsets hf
  have hpresent := sum_present_le (fun r : Run => f r.stop - f r.start) bits (spans offsets)
  rw [hspans]
  omega

/-- The lists of an array have together no more items than the array. -/
theorem Sound.sum_rowLength_le (h : a.Sound) : total (a.rows.map rowLength) ≤ a.weight 0 := by
  cases h with
  | flat | texts => exact Nat.zero_le _
  | @lists _ _ _ offsets bits items hitems hoffsets =>
    exact sum_rows_le (f := id) (g := Layout.size) hoffsets (fun _ _ hij _ => hij) fun i n hin => by
      rw [hitems.size_slice hin]
      exact (Nat.add_sub_cancel_left ..).symm

/-- Nor have they more below them. -/
theorem Sound.sum_weight_rows_le (h : a.Sound) (depth : Nat) :
    total ((a.rows.filterMap id).map (weight depth)) ≤ a.weight (depth + 1) := by
  rw [total_map_filterMap_id]
  cases h with
  | flat | texts => exact Nat.zero_le _
  | lists hitems hoffsets =>
    exact sum_rows_le hoffsets (fun i j => hitems.reach_mono) fun i n hin => weight_slice hitems hin

/-- Texts have no more bytes than there are between their offsets. -/
theorem sum_bytes_le {rs : List Run} {cells : List Cell} (hlength : rs.length = cells.length)
    (hbytes : ∀ p ∈ rs.zip cells, p.2.isNull = true ∨ p.2.bytes = p.1.width) :
    total (cells.map Cell.bytes) ≤ total (rs.map Run.width) := by
  induction cells generalizing rs with
  | nil => exact Nat.zero_le _
  | cons c cells ih =>
    cases rs with
    | nil => cases hlength
    | cons r rs =>
      rw [List.zip_cons_cons] at hbytes
      obtain ⟨hfirst, hrest⟩ := List.forall_mem_cons.mp hbytes
      have hle : c.bytes ≤ r.width := by
        rcases hfirst with hnull | hwidth
        · cases c with
          | null => exact Nat.zero_le _
          | _ => cases hnull
        · exact Nat.le_of_eq hwidth
      exact Nat.add_le_add hle (ih (Nat.succ.inj hlength) hrest)

/-- The texts of an array have together no more bytes than the array. -/
theorem Sound.sum_bytes_le (h : a.Sound) (he : a.encoding = .utf8) :
    total (a.cells.map Cell.bytes) ≤ a.weight 0 := by
  cases h with
  | @flat e _ hencoding =>
    obtain rfl : e = .utf8 := he
    cases hencoding
  | @texts large offsets cells _ hlength hordered hbytes =>
    have hlast : cells.length = offsets.length - 1 := by omega
    have hoffsets : Within offsets (offsets.getD cells.length 0) := by
      refine ⟨List.ne_nil_of_length_pos (by omega), hordered, fun o ho => ?_⟩
      obtain ⟨i, hi, rfl⟩ := List.getElem_of_mem ho
      rw [← getD_eq hi]
      exact getD_le_getD hordered (by omega) (by omega)
    have hspans : total ((spans offsets).map Run.width) + offsets.getD 0 0 ≤
        offsets.getD (offsets.length - 1) 0 := sum_spans_le (f := id) hoffsets fun _ _ hij _ => hij
    have hcells := Layout.sum_bytes_le ((length_spans offsets).trans hlast.symm) hbytes
    have hweight : weight 0 (.texts large offsets cells) =
        offsets.getD cells.length 0 - offsets.getD 0 0 := rfl
    rw [← hlast] at hspans
    exact hweight ▸ Nat.le_trans hcells (by omega)
  | lists => cases he

/-! ## Arrays that 32 bits can count together -/

theorem Light.sublist (h : Light parts) (hs : parts'.Sublist parts) : Light parts' := fun depth =>
  Nat.le_trans ((hs.map _).sum_le_sum fun _ _ => Nat.zero_le _) (h depth)

/-- One array in a canonical encoding is not too large. -/
theorem Sound.light_rows (h : a.Sound) (he : a.encoding = type.encoding) :
    Light (a.rows.filterMap id) := fun depth =>
  Nat.le_trans (h.sum_weight_rows_le depth) (h.weight_le he (depth + 1))

/-- The items of all lists are the items of those that there are. -/
theorem flatMap_items (rows : List (Option Layout)) :
    ((Holding.lists rows).toList.flatMap fun c => c.items?.getD []) =
      (rows.filterMap id).flatMap cells := by
  rw [Holding.toList, List.flatMap_map]
  induction rows with
  | nil => rfl
  | cons row rows ih =>
    rw [List.flatMap_cons, ih]
    cases row <;> rfl

/-- Lists are counted by their items. -/
theorem sum_itemCount {rows : List (Option Layout)}
    (hrows : ∀ list, some list ∈ rows → list.Sound) :
    total ((Holding.lists rows).toList.map fun c => itemCount c.items?) =
      total (rows.map rowLength) := by
  rw [Holding.toList, List.map_map]
  refine congrArg total (List.map_congr_left fun row hrow => ?_)
  cases row with
  | none => rfl
  | some list => exact (hrows list hrow).length_cells

/-- There are enough offsets for the cells of arrays that are not too large together. -/
theorem Light.fits (h : Light parts) (hparts : ∀ p ∈ parts, p.Sound ∧ p.encoding = e) :
    e.fits (parts.flatMap cells) = true := by
  induction e generalizing parts with
  | list large field nullable element ih =>
    have hbelow : ∀ p ∈ parts.flatMap (·.rows.filterMap id), p.Sound ∧ p.encoding = element := by
      intro list hlist
      obtain ⟨p, hp, hlist⟩ := List.mem_flatMap.mp hlist
      obtain ⟨row, hrow, rfl⟩ := List.mem_filterMap.mp hlist
      exact (hparts p hp).1.of_mem_rows (hparts p hp).2 hrow
    have hlight : Light (parts.flatMap (·.rows.filterMap id)) := fun depth => by
      rw [total_map_flatMap]
      refine Nat.le_trans (List.sum_le_sum fun p hp => ?_) (h (depth + 1))
      exact (hparts p hp).1.sum_weight_rows_le depth
    have hcount : total ((parts.flatMap cells).map fun c => itemCount c.items?) ≤ maxOffset := by
      rw [total_map_flatMap]
      refine Nat.le_trans (List.sum_le_sum fun p hp => ?_) (h 0)
      obtain ⟨hsound, he⟩ := hparts p hp
      rw [← hsound.toList_rows he, sum_itemCount fun list hlist => (hsound.of_mem_rows he hlist).1]
      exact hsound.sum_rowLength_le
    have hitems : ((parts.flatMap cells).flatMap fun c => c.items?.getD []) =
        (parts.flatMap (·.rows.filterMap id)).flatMap cells := by
      rw [List.flatMap_assoc, List.flatMap_assoc]
      refine List.flatMap_congr fun p hp => ?_
      rw [← (hparts p hp).1.toList_rows (hparts p hp).2, flatMap_items]
    rw [Encoding.fits, hitems, ih hlight hbelow, decide_eq_true hcount, Bool.or_true, Bool.and_true]
  | utf8 =>
    refine decide_eq_true ?_
    rw [total_map_flatMap]
    refine Nat.le_trans (List.sum_le_sum fun p hp => ?_) (h 0)
    exact (hparts p hp).1.sum_bytes_le (hparts p hp).2
  | _ => rfl

/-- There are enough offsets for the cells of an array in a canonical encoding. -/
theorem Sound.fits_cells (h : a.Sound) (he : a.encoding = type.encoding) :
    type.encoding.fits a.cells = true := by
  have hlight : Light [a] := fun depth => h.weight_le he depth
  have hfits := hlight.fits (List.forall_mem_singleton.mpr ⟨h, he⟩)
  rwa [List.flatMap_singleton] at hfits

end Layout

namespace Holding

variable {a : Layout} {type : ColumnType} {rows : List (Option Layout)} {element : Encoding}

/-- What a column keeps of an array can be counted by 32 bits. -/
theorem fits_ofCanonical (ha : a.Sound) (he : a.encoding = type.encoding) :
    (ofCanonical type a).Fits := by
  cases type with
  | list element =>
    exact ⟨Nat.le_trans ha.sum_rowLength_le (ha.weight_le he 0), ha.light_rows he⟩
  | utf8 =>
    have hweight : a.weight 0 ≤ maxOffset := ha.weight_le he 0
    exact fun _ => Nat.le_trans (ha.sum_bytes_le he) hweight
  | _ => exact nofun

/-- There are enough offsets for lists that can be counted. -/
theorem fits_lists (hrows : ∀ list, some list ∈ rows → list.Sound ∧ list.encoding = element)
    (h : (lists rows).Fits) :
    (Encoding.list false "item" true element).fits (lists rows).toList = true := by
  have hparts : ∀ p ∈ rows.filterMap id, p.Sound ∧ p.encoding = element := fun p hp => by
    obtain ⟨row, hrow, rfl⟩ := List.mem_filterMap.mp hp
    exact hrows p hrow
  rw [Encoding.fits, Layout.flatMap_items, h.2.fits hparts,
    Layout.sum_itemCount fun list hlist => (hrows list hlist).1, decide_eq_true h.1]
  rfl

end Holding

end LiveTables
