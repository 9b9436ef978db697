import LiveTables.Proofs.Column.Copying
import LiveTables.Proofs.Column.Converting

/-!
# Cells of the declared type

The type of a store is declared once, and its cells come and go. Whatever is done to it, every cell
is one that the canonical encoding of the type can hold, which goes for the items of lists at any
depth (`Store.Made.held`). Cells come in by conversion, which makes such cells, or from stores of
the same type, or they are null.
-/

namespace LiveTables

/-- Every encoding can hold null. -/
theorem Encoding.holds_null (e : Encoding) : e.holds .null = true := by
  cases e <;> rfl

/-! ## Storages -/

namespace Storage

variable {e : Encoding} {src d : Storage}

/-- An encoding can hold all cells. -/
def Holds (e : Encoding) (d : Storage) : Prop := ∀ x ∈ d.cells.toList, e.holds x = true

theorem Holds.appendTo (hd : d.Holds e) (hsrc : src.Holds e) : (src.appendTo d).2.Holds e :=
  keeps_after hd fun _ x hx => by
    rw [Cells.toList_append] at hx
    exact (List.mem_append.mp hx).elim (hd x) (hsrc x)

theorem Holds.copyRun (hd : d.Holds e) (hsrc : src.Holds e) (r : Run) (i : Nat) :
    (src.copyRun r i d).2.Holds e :=
  keeps_after hd fun _ x hx => by
    rw [Cells.copyRun_eq_copyMembers, Cells.toList_ofList] at hx
    exact (mem_copyMembers hx).elim (hd x) (hsrc x)

theorem Holds.growTo (hd : d.Holds e) (n : Nat) : (d.growTo n).Holds e := fun x hx => by
  rw [Storage.growTo, Cells.toList_growTo] at hx
  rcases List.mem_append.mp hx with hx | hx
  · exact hd x hx
  · rw [List.eq_of_mem_replicate hx]
    exact e.holds_null

/-- Every step of a copy keeps cells that can be held. -/
theorem Holds.simulates (hsrc : src.Holds e) :
    Copier.Simulates copier copier (Holds e) id src where
  source := rfl
  size _ := rfl
  copyRun r i hd := .self (hd.copyRun hsrc r i)
  keeps_growTo n hd := hd.growTo n
  growTo _ _ := rfl

theorem Holds.gather (hd : d.Holds e) (hsrc : src.Holds e) (rows : KeySet) :
    (src.gather rows d).2.Holds e := by
  rw [gather_eq]
  exact (hsrc.simulates.gather rows hd).keeps

theorem Holds.gatherEach (hd : d.Holds e) (hsrc : src.Holds e) (rows : List Nat) :
    (src.gatherEach rows d).2.Holds e := by
  rw [gatherEach_eq]
  exact (hsrc.simulates.gatherEach rows hd).keeps

theorem Holds.scatter (hd : d.Holds e) (hsrc : src.Holds e) (rows : KeySet) :
    (src.scatter rows d).2.Holds e := by
  rw [scatter_eq]
  exact (hsrc.simulates.scatter rows hd).keeps

theorem Holds.scatterEach (hd : d.Holds e) (hsrc : src.Holds e) (rows : List Nat) :
    (src.scatterEach rows d).2.Holds e := by
  rw [scatterEach_eq]
  exact (hsrc.simulates.scatterEach rows hd).keeps

end Storage

/-! ## Stores -/

namespace Store

variable {s t : Store} {call : StoreCall} {a : EncodedArray} {b : Backing} {type : ColumnType}

/-- The canonical encoding of the type can hold all cells. -/
def Held (s : Store) : Prop := s.storage.Holds s.type.encoding

theorem held_ofArrayAs (h : ofArrayAs type a b = .ok s) : s.Held := by
  obtain ⟨cells, hcells, hs⟩ := bind_eq_ok.mp h
  obtain rfl := pure_eq_ok.mp hs
  intro x hx
  rw [Cells.toList_ofList] at hx
  exact EncodedArray.holds_of_cellsAs hcells x hx

/-- What is worked with has passed the check. -/
theorem Held.after {α : Type} {check : Except Error α} {work : α → Store → Worked Store}
    (hs : s.Held) (h : ∀ found, check = .ok found → (work found s).2.Held) :
    (after check work s).2.Held :=
  (Worked.Agrees.after (h := id) hs fun found hfound => .self (h found hfound)).keeps

/-- The cells of a store of the same type can be held as well. -/
theorem Held.of_type (ht : t.Held) (h : t.type = s.type) : t.storage.Holds s.type.encoding :=
  h ▸ ht

/-- A call that succeeds or fails leaves cells that can be held. -/
theorem Held.run (hs : s.Held) (hothers : ∀ t ∈ call.others, t.Held) : (s.run call).2.Held := by
  cases call with
  | drop n =>
    refine hs.after fun _ _ x hx => hs x (List.mem_of_mem_drop (i := n) ?_)
    rwa [← Cells.toList_drop]
  | append other =>
    refine hs.after fun _ htype => Storage.Holds.appendTo hs ?_
    exact (hothers other (.head _)).of_type (ColumnType.require_eq_ok_iff.mp htype).symm
  | appendArray a =>
    refine hs.after fun t ht => Storage.Holds.appendTo hs ?_
    exact (held_ofArrayAs ht).of_type (sound_ofArrayAs ht).1
  | gather src rows =>
    refine hs.after fun _ htype => Storage.Holds.gather hs ?_ rows
    exact (hothers src (.head _)).of_type (ColumnType.require_eq_ok_iff.mp htype)
  | gatherEach src rows =>
    refine hs.after fun _ htype => Storage.Holds.gatherEach hs ?_ rows
    exact (hothers src (.head _)).of_type (ColumnType.require_eq_ok_iff.mp htype)
  | scatter src rows =>
    refine hs.after fun _ htype => Storage.Holds.scatter hs ?_ rows
    exact (hothers src (.head _)).of_type (ColumnType.require_eq_ok_iff.mp htype).symm
  | scatterEach src rows =>
    refine hs.after fun _ htype => Storage.Holds.scatterEach hs ?_ rows
    exact (hothers src (.head _)).of_type (ColumnType.require_eq_ok_iff.mp htype).symm

/-- In every store that can be made the canonical encoding of the type can hold all cells. -/
theorem Made.held (h : s.Made) : s.Held := by
  induction h with
  | nulls type b n =>
    intro x hx
    rw [Store.nulls, Cells.toList_ofList] at hx
    rw [List.eq_of_mem_replicate hx]
    exact Encoding.holds_null _
  | ofArrayAs h => exact held_ofArrayAs h
  | ofArray h =>
    obtain ⟨type, -, h⟩ := bind_eq_ok.mp h
    exact held_ofArrayAs h
  | move _ b ih =>
    intro x hx
    rw [Store.move, Cells.toList_ofList] at hx
    exact ih x hx
  | @take s t n _ ht ih =>
    obtain ⟨-, -, ht⟩ := bind_eq_ok.mp ht
    obtain rfl := pure_eq_ok.mp ht
    intro x hx
    rw [Cells.toList_take] at hx
    exact ih x (List.mem_of_mem_take hx)
  | run _ call _ ih ihothers => exact ih.run ihothers

end Store

end LiveTables
