import LiveTables.Column.Cell
import LiveTables.Keys.Run

/-!
# Arrays as they are laid out

A list of cells says what an array holds, but not how. In a `Layout` the bytes of all texts stand
one behind the other, and `offsets` tell where those of each text begin and end. The items of all
lists stand one behind the other in an array of their own, with offsets as well; a list of bits
tells which lists there are at all. So a part of an array keeps all of the items, and lists that are
not there may have items too, which nobody sees. `Layout.cells` reads the cells.

An array is converted as it is laid out (`Layout.convert`), with all of its items, seen or not. It
fails where one of them cannot be converted, or where offsets have to become shorter and there is
more than they can count.
-/

namespace LiveTables

/-- Are the elements neither texts nor lists, so that there is no need for offsets? -/
def Encoding.isFlat : Encoding → Bool
  | utf8 | largeUtf8 | list .. => false
  | _ => true

/-- An array as it is laid out. -/
inductive Layout where
  /-- cells that are neither texts nor lists -/
  | flat (encoding : Encoding) (cells : List Cell)
  /-- texts. There is one offset more than there are cells. -/
  | texts (large : Bool) (offsets : List Nat) (cells : List Cell)
  /-- lists of the items of another array. There is one offset more than there are lists, and one
  bit for each list unless all lists are there. -/
  | lists (large : Bool) (field : String) (nullable : Bool) (offsets : List Nat)
      (bits : Option (List Bool)) (items : Layout)

namespace Layout

/-! ## Reading -/

/-- How the cells are laid out. -/
def encoding : Layout → Encoding
  | flat encoding _ => encoding
  | texts large _ _ => if large then .largeUtf8 else .utf8
  | lists large field nullable _ _ items => .list large field nullable items.encoding

/-- The number of cells. -/
def size : Layout → Nat
  | flat _ cells | texts _ _ cells => cells.length
  | lists _ _ _ offsets _ _ => offsets.length - 1

/-- The runs from each offset to the next one. -/
def spans : List Nat → List Run
  | start :: stop :: offsets => ⟨start, stop⟩ :: spans (stop :: offsets)
  | _ => []

/-- What has its bit set, if there are bits. -/
def present {α : Type} : Option (List Bool) → List α → List (Option α)
  | none, l => l.map some
  | some bits, l => List.zipWith (fun bit a => if bit then some a else none) bits l

/-- The cell of a list with the given items, if there is one. -/
def ofItems (items? : Option (List Cell)) : Cell := items?.elim .null .list

/-- The cells of lists with the given offsets into their items. -/
def cellsOf (offsets : List Nat) (bits : Option (List Bool)) (items : List Cell) : List Cell :=
  (present bits (spans offsets)).map fun span =>
    ofItems (span.map fun r => (items.drop r.start).take r.width)

/-- The cells in order. -/
def cells : Layout → List Cell
  | flat _ cells | texts _ _ cells => cells
  | lists _ _ _ offsets bits items => cellsOf offsets bits items.cells

/-- The `n` cells from position `i` on. All items stay. -/
def slice (i n : Nat) : Layout → Layout
  | flat encoding cells => flat encoding ((cells.drop i).take n)
  | texts large offsets cells =>
    texts large ((offsets.drop i).take (n + 1)) ((cells.drop i).take n)
  | lists large field nullable offsets bits items =>
    lists large field nullable ((offsets.drop i).take (n + 1))
      (bits.map fun bits => (bits.drop i).take n) items

/-! ## Layouts of arrays -/

/-- Offsets into a number of items, in order. -/
structure Within (offsets : List Nat) (size : Nat) : Prop where
  nonempty : offsets ≠ []
  ordered : offsets.Pairwise (· ≤ ·)
  bound : ∀ o ∈ offsets, o ≤ size

/-- The layouts of arrays: offsets, bits and cells belong together, offsets that are not large have
32 bits, and the encoding can hold what there is. -/
inductive Sound : Layout → Prop
  | flat {encoding : Encoding} {cells : List Cell} (hencoding : encoding.isFlat = true)
      (hcells : ∀ c ∈ cells, encoding.holds c = true) : Sound (flat encoding cells)
  | texts {large : Bool} {offsets : List Nat} {cells : List Cell}
      (hcells : ∀ c ∈ cells, Encoding.utf8.holds c = true)
      (hlength : cells.length + 1 = offsets.length) (hordered : offsets.Pairwise (· ≤ ·))
      (hbytes : ∀ p ∈ (spans offsets).zip cells, p.2.isNull = true ∨ p.2.bytes = p.1.width)
      (hsmall : large = false → ∀ o ∈ offsets, o ≤ maxOffset) : Sound (texts large offsets cells)
  | lists {large : Bool} {field : String} {nullable : Bool} {offsets : List Nat}
      {bits : Option (List Bool)} {items : Layout} (hitems : items.Sound)
      (hoffsets : Within offsets items.size)
      (hbits : ∀ l, bits = some l → l.length + 1 = offsets.length)
      (hnulls : ∀ c ∈ items.cells,
        (nullable || items.encoding.isUnmapped || !c.isNull) = true)
      (hsmall : large = false → ∀ o ∈ offsets, o ≤ maxOffset) :
      Sound (lists large field nullable offsets bits items)

/-! ## Laying out cells -/

/-- The offsets of what has the given lengths, the first of which begins at `start`. -/
def offsetsFrom (start : Nat) : List Nat → List Nat
  | [] => [start]
  | n :: ns => start :: offsetsFrom (start + n) ns

/-- Bits, which are kept only if one of them is not set. -/
def marks (bits : List Bool) : Option (List Bool) := if bits.all id then none else some bits

/-- Cells, laid out with nothing between them. -/
def ofCells : Encoding → List Cell → Layout
  | .list large field nullable element, cs =>
    let lists := cs.map Cell.items?
    .lists large field nullable (offsetsFrom 0 (lists.map itemCount))
      (marks (lists.map Option.isSome)) (ofCells element (lists.flatMap (·.getD [])))
  | .utf8, cs => texts false (offsetsFrom 0 (cs.map Cell.bytes)) cs
  | .largeUtf8, cs => texts true (offsetsFrom 0 (cs.map Cell.bytes)) cs
  | e, cs => flat e cs

/-! ## Converting -/

/-- The array in the canonical encoding of its type. Offsets are looked at before what they lead to,
and the first cell that cannot be converted, in the order in which they are stored, is the one that
is reported. -/
def convert : Layout → Except Error Layout
  | flat e cells => do
    let type ← e.columnType
    return flat type.encoding (← cells.mapM e.canonicalCell)
  | texts _ offsets cells =>
    if offsets.all (· ≤ maxOffset) then .ok (texts false offsets cells)
    else .error (.conversion .largeTexts)
  | lists large _ _ offsets bits items =>
    if large && maxOffset < items.size then .error (.conversion .largeLists)
    else do return lists false "item" true offsets bits (← items.convert)

end Layout

end LiveTables
