import LiveTables.Column.Layout

/-!
# Reading layouts

The offsets of an array of lists cut its items into spans, one for each list. A part of the array
has a part of the spans, and so a part of the cells (`Layout.cells_slice`). That a layout is an
array (`Layout.Sound`) is what makes its size the number of its cells, its cells such as its
encoding can hold, and each of its parts an array again.

The other way round, items that stand one behind the other are found again by offsets that are
counted along the lists (`Layout.lists_spec`). What carries the induction is what stands in front of
the items that are left: the next list begins at its end. So cells can be laid out and read
(`Layout.ofCells_spec`).
-/

namespace LiveTables

namespace Layout

variable {a : Layout} {e : Encoding} {cs : List Cell} {offsets ns : List Nat}
  {bits : Option (List Bool)} {i n size start : Nat}

/-! ## Offsets and bits -/

theorem length_spans (offsets : List Nat) : (spans offsets).length = offsets.length - 1 := by
  induction offsets with
  | nil => rfl
  | cons start offsets ih =>
    cases offsets with
    | nil => rfl
    | cons stop offsets =>
      rw [spans, List.length_cons, ih]
      rfl

/-- The spans of the later offsets are the later spans. -/
theorem spans_drop (offsets : List Nat) (i : Nat) :
    spans (offsets.drop i) = (spans offsets).drop i := by
  induction i generalizing offsets with
  | zero => rfl
  | succ i ih =>
    cases offsets with
    | nil => rfl
    | cons start offsets =>
      cases offsets with
      | nil => simp [spans]
      | cons stop offsets => exact ih (stop :: offsets)

/-- The spans of the first offsets are the first spans, one less. -/
theorem spans_take (offsets : List Nat) (n : Nat) :
    spans (offsets.take (n + 1)) = (spans offsets).take n := by
  induction n generalizing offsets with
  | zero => cases offsets with
    | nil => rfl
    | cons start offsets => simp [spans]
  | succ n ih =>
    cases offsets with
    | nil => rfl
    | cons start offsets =>
      cases offsets with
      | nil => rfl
      | cons stop offsets =>
        have := ih (stop :: offsets)
        rw [List.take_succ_cons] at this
        rw [List.take_succ_cons, List.take_succ_cons, spans, spans, List.take_succ_cons, this]

theorem present_drop {α : Type} (bits : Option (List Bool)) (l : List α) (i : Nat) :
    present (bits.map fun bits => bits.drop i) (l.drop i) = (present bits l).drop i := by
  cases bits with
  | none => exact List.map_drop
  | some bits => exact List.drop_zipWith.symm

theorem present_take {α : Type} (bits : Option (List Bool)) (l : List α) (n : Nat) :
    present (bits.map fun bits => bits.take n) (l.take n) = (present bits l).take n := by
  cases bits with
  | none => exact List.map_take
  | some bits => exact List.take_zipWith.symm

theorem mem_of_mem_present {α : Type} {l : List α} {x : α} (h : some x ∈ present bits l) :
    x ∈ l := by
  cases bits with
  | none =>
    obtain ⟨y, hy, hxy⟩ := List.mem_map.mp h
    exact Option.some.inj hxy ▸ hy
  | some bits =>
    induction l generalizing bits with
    | nil => simp [present] at h
    | cons y l ih =>
      cases bits with
      | nil => cases h
      | cons bit bits =>
        rcases List.mem_cons.mp h with hfirst | hrest
        · cases bit with
          | true => exact Option.some.inj hfirst ▸ List.mem_cons_self ..
          | false => cases hfirst
        · exact List.mem_cons_of_mem _ (ih bits hrest)

/-- There is an answer for each member, if there is a bit for each. -/
theorem length_present {α : Type} {l : List α}
    (hbits : ∀ b, bits = some b → b.length = l.length) : (present bits l).length = l.length := by
  cases bits with
  | none => exact List.length_map ..
  | some b => rw [present, List.length_zipWith, hbits b rfl, Nat.min_self]

namespace Within

variable (h : Within offsets size)
include h

/-- Spans lie among the items. -/
theorem span {r : Run} (hr : r ∈ spans offsets) : r.start ≤ r.stop ∧ r.stop ≤ size := by
  obtain ⟨-, hordered, hbound⟩ := h
  induction offsets with
  | nil => cases hr
  | cons start offsets ih =>
    cases offsets with
    | nil => cases hr
    | cons stop offsets =>
      obtain ⟨hstart, hordered⟩ := List.pairwise_cons.mp hordered
      obtain ⟨-, hbound⟩ := List.forall_mem_cons.mp hbound
      rcases List.mem_cons.mp hr with rfl | hr
      · exact ⟨hstart stop (List.mem_cons_self ..), hbound stop (List.mem_cons_self ..)⟩
      · exact ih hr hordered hbound

/-- Offsets of a part are offsets. -/
theorem slice (hi : i < offsets.length) : Within ((offsets.drop i).take (n + 1)) size where
  nonempty := by
    rw [List.drop_eq_getElem_cons hi, List.take_succ_cons]
    exact List.cons_ne_nil _ _
  ordered := h.ordered.sublist ((List.take_sublist _ _).trans (List.drop_sublist _ _))
  bound := fun o ho => h.bound o (List.mem_of_mem_drop (List.mem_of_mem_take ho))

end Within

/-! ## Cells -/

/-- There are as many cells as the size says. -/
theorem Sound.length_cells (h : a.Sound) : a.cells.length = a.size := by
  cases h with
  | flat | texts => rfl
  | lists _ hoffsets hbits _ =>
    rw [cells, cellsOf, List.length_map, length_present, length_spans, size]
    intro l hl
    have := hbits l hl
    rw [length_spans]
    omega

/-- The encoding can hold what is read. -/
theorem Sound.holds_cells (h : a.Sound) : ∀ c ∈ a.cells, a.encoding.holds c = true := by
  induction h with
  | flat _ hcells => exact hcells
  | @texts large offsets cells hcells =>
    intro c hc
    have hheld := hcells c hc
    cases c with
    | null | text _ => cases large <;> rfl
    | _ => cases hheld
  | @lists large field nullable offsets bits items _ _ _ hnulls _ ih =>
    intro c hc
    obtain ⟨span, hspan, rfl⟩ := List.mem_map.mp hc
    cases span with
    | none => rfl
    | some r =>
      refine Encoding.holds_list_iff.mpr fun x hx => ?_
      have hx := List.mem_of_mem_drop (List.mem_of_mem_take hx)
      exact ⟨ih x hx, hnulls x hx⟩

/-! ## Parts of arrays -/

/-- A part of an array has a part of the cells. -/
theorem cells_slice (a : Layout) (i n : Nat) :
    (a.slice i n).cells = (a.cells.drop i).take n := by
  cases a with
  | flat | texts => rfl
  | lists large field nullable offsets bits items =>
    have hspans : present (bits.map fun bits => (bits.drop i).take n)
        (spans ((offsets.drop i).take (n + 1))) =
          ((present bits (spans offsets)).drop i).take n := by
      rw [spans_take, spans_drop, ← present_drop, ← present_take, Option.map_map]
      rfl
    rw [slice, cells, cells, cellsOf, hspans, List.map_take, List.map_drop]
    rfl

@[simp] theorem encoding_slice (a : Layout) (i n : Nat) : (a.slice i n).encoding = a.encoding := by
  cases a <;> rfl

/-- A part of an array is an array. -/
theorem Sound.slice (h : a.Sound) (hin : i + n ≤ a.size) : (a.slice i n).Sound := by
  have hpart {α : Type} {l : List α} {x : α} {m : Nat} (hx : x ∈ (l.drop i).take m) : x ∈ l :=
    List.mem_of_mem_drop (List.mem_of_mem_take hx)
  cases h with
  | flat hencoding hcells => exact .flat hencoding fun c hc => hcells c (hpart hc)
  | @texts _ offsets cells hcells hlength hordered hbytes hsmall =>
    rw [size] at hin
    refine .texts (fun c hc => hcells c (hpart hc)) ?_
      (hordered.sublist ((List.take_sublist ..).trans (List.drop_sublist ..))) (fun p hp => ?_)
      fun hlarge o ho => hsmall hlarge o (hpart ho)
    · simp only [List.length_take, List.length_drop]
      omega
    · rw [spans_take, spans_drop, List.zip, ← List.take_zipWith, ← List.drop_zipWith] at hp
      exact hbytes p (hpart hp)
  | @lists _ _ _ offsets _ _ hitems hoffsets hbits hnulls hsmall =>
    rw [size] at hin
    have hpos : 0 < offsets.length := List.length_pos_iff.mpr hoffsets.nonempty
    refine .lists hitems (hoffsets.slice (by omega)) (fun l hl => ?_) hnulls
      fun hlarge o ho => hsmall hlarge o (hpart ho)
    obtain ⟨bits, hbits', rfl⟩ := Option.map_eq_some_iff.mp hl
    have := hbits bits hbits'
    simp only [List.length_take, List.length_drop]
    omega

theorem Sound.size_slice (h : a.Sound) (hin : i + n ≤ a.size) : (a.slice i n).size = n := by
  rw [← (h.slice hin).length_cells, cells_slice, List.length_take, List.length_drop, h.length_cells]
  omega

/-! ## Counting offsets anew -/

theorem length_offsetsFrom (start : Nat) (ns : List Nat) :
    (offsetsFrom start ns).length = ns.length + 1 := by
  induction ns generalizing start with
  | nil => rfl
  | cons n ns ih => rw [offsetsFrom, List.length_cons, ih, List.length_cons]

/-- Offsets that are counted lie between the first and the end. -/
theorem mem_offsetsFrom {o : Nat} (h : o ∈ offsetsFrom start ns) :
    start ≤ o ∧ o ≤ start + total ns := by
  induction ns generalizing start with
  | nil =>
    obtain rfl := List.mem_singleton.mp h
    exact ⟨Nat.le_refl _, Nat.le_add_right ..⟩
  | cons n ns ih =>
    rw [total_cons]
    rcases List.mem_cons.mp h with rfl | h
    · omega
    · have := ih h
      omega

theorem within_offsetsFrom (h : start + total ns ≤ size) : Within (offsetsFrom start ns) size where
  nonempty := by
    rw [← List.length_pos_iff, length_offsetsFrom]
    exact Nat.succ_pos _
  ordered := by
    clear h
    induction ns generalizing start with
    | nil => exact List.pairwise_singleton ..
    | cons n ns ih =>
      refine List.pairwise_cons.mpr ⟨fun o ho => ?_, ih⟩
      exact Nat.le_trans (Nat.le_add_right ..) (mem_offsetsFrom ho).1
  bound := fun o ho => Nat.le_trans (mem_offsetsFrom ho).2 h

/-! ## Laying out lists anew -/

theorem spans_offsetsFrom_cons (start n : Nat) (ns : List Nat) :
    spans (offsetsFrom start (n :: ns)) =
      ⟨start, start + n⟩ :: spans (offsetsFrom (start + n) ns) := by
  cases ns <;> rfl

/-- Where each list begins behind the items of those before, its items are found again. -/
theorem items_offsetsFrom (lists : List (Option (List Cell))) (front : List Cell) :
    (List.zipWith (fun bit r => if bit then some r else none) (lists.map Option.isSome)
        (spans (offsetsFrom front.length (lists.map itemCount)))).map
      (fun span => ofItems (span.map fun r =>
        ((front ++ lists.flatMap (·.getD [])).drop r.start).take r.width)) =
      lists.map ofItems := by
  induction lists generalizing front with
  | nil => rfl
  | cons items? lists ih =>
    have hlen : (items?.getD []).length = itemCount items? := by
      cases items? <;> rfl
    have hrest := ih (front ++ items?.getD [])
    rw [List.length_append, hlen, List.append_assoc] at hrest
    have hwidth : (⟨front.length, front.length + itemCount items?⟩ : Run).width =
        itemCount items? := Nat.add_sub_cancel_left ..
    rw [List.map_cons, List.map_cons, spans_offsetsFrom_cons, List.zipWith_cons_cons,
      List.map_cons, List.flatMap_cons, hrest]
    cases items? with
    | none => rfl
    | some items =>
      have hitems : ((front ++ (items ++ lists.flatMap (·.getD []))).drop front.length).take
          (itemCount (some items)) = items := by
        rw [List.drop_left]
        exact List.take_left
      simp only [Option.isSome_some, if_true, Option.map_some, Option.getD_some, hwidth, hitems]
      rfl

/-- If all bits are set there is no need for bits. -/
theorem present_marks {α : Type} (bits : List Bool) (l : List α) (h : bits.length = l.length) :
    present (marks bits) l = List.zipWith (fun bit a => if bit then some a else none) bits l := by
  rw [marks]
  split
  · rename_i hall
    rw [present]
    induction l generalizing bits with
    | nil => exact List.zipWith_nil_right.symm
    | cons a l ih =>
      cases bits with
      | nil => cases h
      | cons bit bits =>
        obtain ⟨rfl, hall⟩ : bit = true ∧ bits.all id = true := by simpa using hall
        rw [List.map_cons, List.zipWith_cons_cons, ih bits (Nat.succ.inj h) hall]
        rfl
  · rfl

theorem eq_of_marks {bits l : List Bool} (h : marks bits = some l) : l = bits := by
  rw [marks] at h
  split at h
  · cases h
  · exact (Option.some.inj h).symm

/-- Lists are laid out with their items one behind the other, with offsets that are counted along
the lists, and with bits if there are gaps. -/
theorem lists_spec {lists : List (Option (List Cell))} {items : Layout} (hitems : items.Sound)
    (hcells : items.cells = lists.flatMap (·.getD [])) :
    let offsets := offsetsFrom 0 (lists.map itemCount)
    let bits := marks (lists.map Option.isSome)
    Within offsets items.size ∧ (∀ l, bits = some l → l.length + 1 = offsets.length) ∧
      cellsOf offsets bits items.cells = lists.map ofItems := by
  have hlength : (lists.map Option.isSome).length + 1 =
      (offsetsFrom 0 (lists.map itemCount)).length := by
    rw [length_offsetsFrom, List.length_map, List.length_map]
  refine ⟨within_offsetsFrom ?_, fun l hl => ?_, ?_⟩
  · rw [← hitems.length_cells, hcells, List.length_flatMap, Nat.zero_add]
    refine Nat.le_of_eq (congrArg total (List.map_congr_left fun items? _ => ?_))
    cases items? <;> rfl
  · rw [eq_of_marks hl, hlength]
  · rw [cellsOf, present_marks _ _ (by rw [length_spans, ← hlength, Nat.add_sub_cancel]), hcells]
    exact items_offsetsFrom lists []

/-! ## Laying out cells -/

theorem pairwise_offsetsFrom (start : Nat) (ns : List Nat) :
    (offsetsFrom start ns).Pairwise (· ≤ ·) :=
  (within_offsetsFrom (Nat.le_refl (start + total ns))).ordered

/-- Texts are found where those before end. -/
theorem bytes_offsetsFrom (cs : List Cell) (start : Nat) :
    ∀ p ∈ (spans (offsetsFrom start (cs.map Cell.bytes))).zip cs, p.2.bytes = p.1.width := by
  induction cs generalizing start with
  | nil => exact fun p hp => by simp at hp
  | cons c cs ih =>
    rw [List.map_cons, spans_offsetsFrom_cons, List.zip_cons_cons]
    exact List.forall_mem_cons.mpr ⟨(Nat.add_sub_cancel_left ..).symm, ih _⟩

/-- Texts can be laid out, with 32-bit offsets if these are enough. -/
theorem sound_texts {large : Bool} (hcells : ∀ c ∈ cs, Encoding.utf8.holds c = true)
    (hsmall : large = false → total (cs.map Cell.bytes) ≤ maxOffset) :
    (texts large (offsetsFrom 0 (cs.map Cell.bytes)) cs).Sound := by
  refine .texts hcells ?_ (pairwise_offsetsFrom ..) (fun p hp => .inr (bytes_offsetsFrom cs 0 p hp))
    fun hlarge o ho => Nat.le_trans (mem_offsetsFrom ho).2
      (by rw [Nat.zero_add]; exact hsmall hlarge)
  rw [length_offsetsFrom, List.length_map]

/-- Of the cells that are held by an encoding of lists, each list is its items. -/
theorem ofItems_items? {large nullable : Bool} {field : String} {element : Encoding} {c : Cell}
    (h : (Encoding.list large field nullable element).holds c = true) : ofItems c.items? = c := by
  cases c with
  | null | list _ => rfl
  | _ => cases h

/-- Cells that an encoding can hold, and has enough offsets for, can be laid out and read. -/
theorem ofCells_spec (h : ∀ c ∈ cs, e.holds c = true) (hfits : e.fits cs = true) :
    (ofCells e cs).Sound ∧ (ofCells e cs).encoding = e ∧ (ofCells e cs).cells = cs := by
  induction e generalizing cs with
  | list large field nullable element ih =>
    rw [Encoding.fits, Bool.and_eq_true, Bool.or_eq_true, decide_eq_true_eq] at hfits
    obtain ⟨hcount, hfits⟩ := hfits
    have hitems : ∀ x ∈ (cs.map Cell.items?).flatMap (·.getD []), element.holds x = true ∧
        (nullable || element.isUnmapped || !x.isNull) = true := fun x hx => by
      obtain ⟨items?, hmem, hx⟩ := List.mem_flatMap.mp hx
      obtain ⟨c, hc, rfl⟩ := List.mem_map.mp hmem
      cases c with
      | list items => exact Encoding.holds_list_iff.mp (h _ hc) x hx
      | _ => cases hx
    obtain ⟨hsound, hencoding, hcells⟩ := ih (fun x hx => (hitems x hx).1)
      (by rwa [List.flatMap_map])
    obtain ⟨hoffsets, hbits, hread⟩ := lists_spec hsound hcells
    refine ⟨.lists hsound hoffsets hbits (fun x hx => ?_) fun hlarge o ho => ?_, ?_, ?_⟩
    · rw [hencoding]
      exact (hitems x (hcells ▸ hx)).2
    · refine Nat.le_trans (mem_offsetsFrom ho).2 ?_
      rw [Nat.zero_add, List.map_map]
      exact hcount.resolve_left (by simp [hlarge])
    · rw [ofCells, encoding, hencoding]
    · refine hread.trans ?_
      rw [List.map_map]
      exact (List.map_congr_left fun c hc => ofItems_items? (h c hc)).trans (List.map_id cs)
  | utf8 => exact ⟨sound_texts h fun _ => of_decide_eq_true hfits, rfl, rfl⟩
  | largeUtf8 =>
    have hcells : ∀ c ∈ cs, Encoding.utf8.holds c = true := fun c hc => by
      have hheld := h c hc
      cases c with
      | null | text _ => rfl
      | _ => cases hheld
    exact ⟨sound_texts hcells nofun, rfl, rfl⟩
  | _ => exact ⟨.flat rfl h, rfl, rfl⟩

end Layout

end LiveTables
