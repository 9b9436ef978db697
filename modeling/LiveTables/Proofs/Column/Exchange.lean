import LiveTables.Column.Exchange
import LiveTables.Proofs.Column.Splice
import Mathlib.Tactic.Linarith

/-!
# What comes in can leave again

Cells come in arrays of many encodings and leave in the canonical one of their column. A conversion
brings a cell that an encoding can hold into one that the canonical encoding of its type can hold
(`Encoding.holds_canonicalCell`): finer units do not take days and times of a day out of 64 bits,
and instants are checked. So a column that was filled from arrays holds nothing else than cells of
its type. It can be made into an array unless it is too large for one
(`ColumnType.leaves_arrayOf`).
-/

namespace LiveTables

/-! ## Single cells -/

namespace Cell

variable {w : Nat} {n : Int}

theorem isInt_int_iff : (int n).isInt w = true ↔
    -((1 <<< (w - 1) : Nat) : Int) ≤ n ∧ n < ((1 <<< (w - 1) : Nat) : Int) := by
  rw [isInt, Bool.and_eq_true, decide_eq_true_eq, decide_eq_true_eq]

theorem isInt_32_iff : (int n).isInt 32 = true ↔ -0x80000000 ≤ n ∧ n < 0x80000000 := isInt_int_iff

theorem isInt_64_iff :
    (int n).isInt 64 = true ↔ -0x8000000000000000 ≤ n ∧ n < 0x8000000000000000 := isInt_int_iff

end Cell

namespace Encoding

variable {e : Encoding} {type : ColumnType} {x y : Cell}

/-- Days in milliseconds, and whole seconds in nanoseconds, fit 64 bits if they fitted 32. -/
theorem isInt_mul {n factor : Int} (hn : (Cell.int n).isInt 32 = true) (hpos : 0 < factor)
    (hle : factor ≤ 0x100000000) : (Cell.int (n * factor)).isInt 64 = true := by
  rw [Cell.isInt_32_iff] at hn
  rw [Cell.isInt_64_iff]
  constructor <;> nlinarith

/-- A count modulo `2 ^ 64` fits 64 bits. -/
theorem isInt_bmod (n : Int) : (Cell.int (n.bmod 0x10000000000000000)).isInt 64 = true := by
  rw [Cell.isInt_64_iff]
  exact ⟨Int.le_bmod (by decide), Int.bmod_lt (by decide)⟩

/-- The instants that become nanoseconds are those of which there are not too many. -/
theorem canonicalCell_instant {unit : TimeUnit} {zone : Option String} {n : Int}
    (hy : (timestamp unit zone).canonicalCell (.int n) = .ok y) :
    ∃ count, y = .int count ∧ (Cell.int count).isInt 64 = true := by
  rw [canonicalCell, nanosecondCount] at hy
  split at hy
  · rename_i hcount
    exact ⟨_, (Except.ok.inj hy).symm, hcount⟩
  · cases hy

variable {large nullable : Bool} {field : String} {element : Encoding}

/-- A list becomes a list of what its items become. -/
theorem canonicalCell_list {items : List Cell}
    (hy : (list large field nullable element).canonicalCell (.list items) = .ok y) :
    ∃ ys, y = .list ys ∧ List.Forall₂ (element.canonicalCell · = .ok ·) items ys := by
  rw [canonicalCell] at hy
  cases hitems : items.mapM element.canonicalCell with
  | error e =>
    rw [hitems] at hy
    cases hy
  | ok ys =>
    rw [hitems] at hy
    exact ⟨ys, (Except.ok.inj hy).symm, mapM_eq_ok.mp hitems⟩

/-- The items decide about the type of lists. -/
theorem columnType?_list (h : (list large field nullable element).columnType? = .ok type) :
    ∃ inner, type = .list inner ∧ element.columnType? = .ok inner := by
  rw [columnType?] at h
  cases helement : element.columnType? with
  | error kind =>
    rw [helement] at h
    cases h
  | ok inner =>
    rw [helement] at h
    exact ⟨inner, (Except.ok.inj h).symm, rfl⟩

/-- Cells become cells that the canonical encoding of their type can hold. -/
theorem holds_canonicalCell (he : e.columnType? = .ok type) (hx : e.holds x = true)
    (hy : e.canonicalCell x = .ok y) : type.encoding.holds y = true := by
  induction e generalizing type x y with
  | bool | int8 | int16 | int32 | int64 | uint16 | float32 | float64 | utf8 | date64 =>
    -- these are canonical already
    cases he
    obtain rfl := Except.ok.inj hy
    exact hx
  | largeUtf8 =>
    cases he
    obtain rfl := Except.ok.inj hy
    cases x with
    | null | text _ => rfl
    | _ => cases hx
  | date32 =>
    cases he
    obtain rfl := Except.ok.inj hy
    cases x with
    | null => rfl
    | int n => exact isInt_mul hx (by decide) (by decide)
    | _ => cases hx
  | time32 unit =>
    cases he
    cases x with
    | null =>
      cases unit <;> exact Except.ok.inj hy ▸ rfl
    | int n =>
      cases unit with
      | second =>
        obtain rfl := Except.ok.inj hy
        exact isInt_mul hx (by decide) (by decide)
      | millisecond =>
        obtain rfl := Except.ok.inj hy
        rfl
      | _ => cases hx
    | _ => cases unit <;> cases hx
  | time64 unit =>
    cases he
    cases x with
    | null =>
      cases unit <;> exact Except.ok.inj hy ▸ rfl
    | int n =>
      cases unit with
      | microsecond =>
        obtain rfl := Except.ok.inj hy
        exact isInt_bmod _
      | nanosecond =>
        obtain rfl := Except.ok.inj hy
        exact hx
      | _ => cases hx
    | _ => cases unit <;> cases hx
  | timestamp unit zone =>
    cases he
    cases x with
    | null =>
      obtain rfl := Except.ok.inj hy
      rfl
    | int n =>
      obtain ⟨count, rfl, hcount⟩ := canonicalCell_instant hy
      exact hcount
    | _ => cases hx
  | list large field nullable element ih =>
    obtain ⟨inner, rfl, helement⟩ := columnType?_list he
    cases x with
    | null =>
      obtain rfl := Except.ok.inj hy
      rfl
    | list items =>
      obtain ⟨ys, rfl, hitems⟩ := canonicalCell_list hy
      rw [holds_list_iff] at hx
      rw [ColumnType.encoding, holds_list_iff]
      -- each item that leaves comes of one that was there
      have hall : ∀ y ∈ ys, inner.encoding.holds y = true :=
        forall_mem_right (fun x y hxy => ih helement hxy.1.1 hxy.2)
          ((List.forall₂_and_left _ _).mpr ⟨hx, hitems⟩)
      exact fun y hmem => ⟨hall y hmem, rfl⟩
    | _ => cases hx
  | unmapped kind => cases he

/-- Cells fail to be converted where a count is too large for the finer unit. -/
theorem canonicalCell_eq_error {error : Error} (h : e.canonicalCell x = .error error) :
    ∃ fault, error = .conversion fault := by
  induction e generalizing x error with
  | bool | int8 | int16 | int32 | int64 | uint16 | float32 | float64 | utf8 | largeUtf8 | date32
  | date64 | unmapped kind => cases h
  | time32 unit | time64 unit => cases unit <;> cases h
  | timestamp unit zone =>
    cases x with
    | int n =>
      rw [canonicalCell, nanosecondCount] at h
      split at h
      · cases h
      · exact ⟨_, (Except.error.inj h).symm⟩
    | _ => cases h
  | list large field nullable element ih =>
    cases x with
    | list items =>
      rw [canonicalCell] at h
      cases hitems : items.mapM element.canonicalCell with
      | ok cells =>
        rw [hitems] at h
        cases h
      | error error' =>
        rw [hitems] at h
        obtain rfl := Except.error.inj h
        obtain ⟨i, item, -, herror, -⟩ := mapM_eq_error hitems
        exact ih herror
    | _ => cases h

end Encoding

/-! ## What a conversion leaves as it is -/

/-- Is the cell neither null nor a list? -/
def Cell.isValue : Cell → Bool
  | null | list _ => false
  | _ => true

/-- Cells that are null, values or lists alike, and lists of the same length of such items. -/
inductive SameForm : Cell → Cell → Prop
  | null : SameForm .null .null
  | value {x y : Cell} (hx : x.isValue = true) (hy : y.isValue = true) : SameForm x y
  | list {xs ys : List Cell} (hitems : List.Forall₂ SameForm xs ys) : SameForm (.list xs) (.list ys)

namespace Encoding

variable {e : Encoding} {type : ColumnType} {x y : Cell}

/-- Nulls are not converted. -/
theorem canonicalCell_null (e : Encoding) : e.canonicalCell .null = .ok .null := by
  cases e with
  | time32 unit | time64 unit => cases unit <;> rfl
  | _ => rfl

/-- Only arrays of lists have lists. -/
theorem isList_of_holds {items : List Cell} (h : e.holds (.list items) = true) :
    e.isList = true := by
  cases e with
  | list => rfl
  | time32 unit | time64 unit => cases unit <;> cases h
  | _ => cases h

/-- A conversion makes values of values. -/
theorem isValue_canonicalCell (he : e.isList = false) (hx : x.isValue = true)
    (hy : e.canonicalCell x = .ok y) : y.isValue = true := by
  have hmap : ∀ f, (x.mapInt f).isValue = true := fun f => by
    cases x <;> exact hx
  cases e with
  | list => cases he
  | timestamp unit zone =>
    cases x with
    | int n =>
      obtain ⟨count, rfl, -⟩ := canonicalCell_instant hy
      rfl
    | _ => exact Except.ok.inj hy ▸ hx
  | date32 => exact Except.ok.inj hy ▸ hmap _
  | time32 unit =>
    cases unit with
    | second | millisecond => exact Except.ok.inj hy ▸ hmap _
    | _ => exact Except.ok.inj hy ▸ hx
  | time64 unit =>
    cases unit with
    | microsecond => exact Except.ok.inj hy ▸ hmap _
    | _ => exact Except.ok.inj hy ▸ hx
  | _ => exact Except.ok.inj hy ▸ hx

/-- A conversion changes values, but no nulls and no lists as such. -/
theorem sameForm_canonicalCell (hx : e.holds x = true) (hy : e.canonicalCell x = .ok y) :
    SameForm x y := by
  induction e generalizing x y with
  | list large field nullable element ih =>
    cases x with
    | null => exact Except.ok.inj hy ▸ .null
    | list items =>
      obtain ⟨ys, rfl, hitems⟩ := canonicalCell_list hy
      rw [holds_list_iff] at hx
      have hboth := (List.forall₂_and_left _ _).mpr ⟨hx, hitems⟩
      exact .list (hboth.imp fun x y hxy => ih hxy.1.1 hxy.2)
    | _ => cases hx
  | _ =>
    cases x with
    | null => exact Except.ok.inj ((canonicalCell_null _).symm.trans hy) ▸ .null
    | list items => cases isList_of_holds hx
    | _ => exact .value rfl (isValue_canonicalCell rfl rfl hy)

/-- Cells in canonical units are not converted again. -/
theorem canonicalCell_eq_self (hx : type.encoding.holds x = true) :
    type.encoding.canonicalCell x = .ok x := by
  induction type generalizing x with
  | list element ih =>
    cases x with
    | list items =>
      rw [ColumnType.encoding, holds_list_iff] at hx
      have hitems : items.mapM element.encoding.canonicalCell = .ok items :=
        mapM_eq_ok.mpr (List.forall₂_same.mpr fun x hmem => ih (hx x hmem).1)
      rw [ColumnType.encoding, canonicalCell, hitems]
      rfl
    | _ => rfl
  | timestamp =>
    cases x with
    | int n =>
      have hcount : n * TimeUnit.nanosecond.nanoseconds = n := Int.mul_one n
      have hint : (Cell.int n).isInt 64 = true := hx
      rw [ColumnType.encoding, canonicalCell, nanosecondCount, hcount, if_pos hint]
      rfl
    | _ => rfl
  | _ => rfl

end Encoding

/-! ## Arrays and columns -/

theorem Encoding.columnType_eq_ok_iff {e : Encoding} {type : ColumnType} :
    e.columnType = .ok type ↔ e.columnType? = .ok type := by
  rw [Encoding.columnType]
  cases e.columnType? <;> simp

namespace ColumnType

variable {type : ColumnType} {cells : List Cell}

/-- Cells of a type leave in its canonical encoding if there are enough offsets for them, and fail
to leave if there are not. -/
structure Leaves (type : ColumnType) (cells : List Cell) (made : Except Failure EncodedArray) :
    Prop where
  ok (hfits : type.encoding.fits cells = true) : ∃ a, made = .ok a ∧
    a.encoding = type.encoding ∧ a.size = cells.length ∧ a.cells = cells
  fails (hfits : ¬ type.encoding.fits cells = true) : ∃ failure, made = .error failure

/-- Cells of a type leave unless there are too many. -/
theorem leaves_arrayOf (h : ∀ x ∈ cells, type.encoding.holds x = true) :
    type.Leaves cells (type.arrayOf cells) where
  ok hfits := by
    rw [arrayOf, dif_pos hfits, dif_pos h]
    have hcells := EncodedArray.cells_ofCells h hfits
    exact ⟨_, rfl, EncodedArray.encoding_ofCells .., congrArg List.length hcells, hcells⟩
  fails hfits := ⟨_, dif_neg hfits⟩

/-- Cells that have left had offsets enough. -/
theorem Leaves.fits {made : Except Failure EncodedArray} {a : EncodedArray}
    (h : type.Leaves cells made) (ha : made = .ok a) : type.encoding.fits cells = true := by
  by_contra hfits
  obtain ⟨failure, hfailure⟩ := h.fails hfits
  cases ha.symm.trans hfailure

end ColumnType

/-- Texts as long as one likes. -/
theorem exists_text (n : Nat) : ∃ text : String, text.utf8ByteSize = n := by
  induction n with
  | zero => exact ⟨"", rfl⟩
  | succ n ih =>
    obtain ⟨text, htext⟩ := ih
    refine ⟨text.push 'a', ?_⟩
    rw [String.utf8ByteSize_push, htext]
    rfl

/-- A text of `2 ^ 30` bytes has enough offsets, but not twice. -/
theorem exists_large_text : ∃ text : String, Encoding.utf8.fits [.text text] = true ∧
    ¬ Encoding.utf8.fits [.text text, .text text] = true := by
  obtain ⟨text, htext⟩ := exists_text 0x40000000
  refine ⟨text, decide_eq_true ?_, fun hfits => ?_⟩
  · change text.utf8ByteSize + 0 ≤ maxOffset
    rw [htext]
    decide
  · have hsum : text.utf8ByteSize + (text.utf8ByteSize + 0) ≤ maxOffset := of_decide_eq_true hfits
    rw [htext] at hsum
    exact absurd hsum (by decide)

end LiveTables
