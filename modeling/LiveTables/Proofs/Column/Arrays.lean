import LiveTables.Column.Arrays
import LiveTables.Proofs.Column.Appending
import LiveTables.Proofs.Column.Held
import LiveTables.Proofs.Column.RoundTrip

/-!
# Arrays of the declared type

What a column keeps tells lists from other cells, but not lists of one type from lists of another
one. That a column has the cells of its type is a fact about every array that it keeps
(`Holding.Typed`), and has to be kept by everything that is done to it. Columns come together only
after their types have been compared, so what is copied from one to the other is of the type as well
(`ArrayColumn.OfType.run`).

Columns of one type are of one kind. So no step of a call meets another kind: it does not matter
what such a step would come to. The lemmas say so of each step with `Worked.Agrees`, where the step
stands on one side with a refusal and on the other side with anything else.
-/

namespace LiveTables

open Worked (Agrees)

/-! ## What is kept -/

/-- A type that is not of lists has an encoding of its own kind. -/
theorem CellKind.encoding?_kind {type : ColumnType} (h : type.encoding.isList = false) :
    type.kind.encoding? type = some type.encoding := by
  cases type with
  | list => cases h
  | _ => rfl

namespace Holding

variable {type element : ColumnType} {g g' : Holding} {lib : ArrayLibrary} {a : Layout}

/-- What is kept is of a type: cells that its canonical encoding can hold, or arrays of the
canonical encoding of the items. -/
inductive Typed : ColumnType → Holding → Prop
  | cells {type : ColumnType} {l : List Cell} (hflat : type.encoding.isList = false)
      (hl : ∀ x ∈ l, type.encoding.holds x = true) : Typed type (.cells type.kind l)
  | lists {element : ColumnType} {rows : List (Option Layout)}
      (hrows : ∀ list, some list ∈ rows → list.Sound ∧ list.encoding = element.encoding) :
      Typed (.list element) (.lists rows)

theorem Typed.kind_eq (h : g.Typed type) : g.kind = type.kind := by
  cases h <;> rfl

/-- The cells that are kept are of the type, and their items are at every depth. -/
theorem Typed.holds (h : g.Typed type) : ∀ x ∈ g.toList, type.encoding.holds x = true := by
  cases h with
  | cells _ hl => exact hl
  | lists hrows =>
    intro x hx
    obtain ⟨row, hrow, rfl⟩ := List.mem_map.mp hx
    cases row with
    | none => rfl
    | some list =>
      obtain ⟨hsound, hencoding⟩ := hrows list hrow
      exact Encoding.holds_list_iff.mpr fun y hy => ⟨hencoding ▸ hsound.holds_cells y hy, rfl⟩

@[simp] theorem length_toList (g : Holding) : g.toList.length = g.size := by
  cases g with
  | cells => rfl
  | lists rows => exact List.length_map ..

theorem typed_nulls (type : ColumnType) (n : Nat) : (nulls type n).Typed type := by
  have hnull : ∀ x ∈ List.replicate n Cell.null, type.encoding.holds x = true := fun x hx => by
    rw [List.eq_of_mem_replicate hx]
    exact Encoding.holds_null _
  cases type with
  | list element => exact .lists fun list hlist => by cases List.eq_of_mem_replicate hlist
  | _ => exact .cells rfl hnull

theorem toList_nulls (type : ColumnType) (n : Nat) :
    (nulls type n).toList = List.replicate n .null := by
  cases type with
  | list element => exact List.map_replicate ..
  | _ => rfl

section Edit

variable {f : {α : Type} → α → List α → List α}

/-- What is kept is still of the type if nothing is put to it but nulls. -/
theorem Typed.edit (hg : g.Typed type)
    (hmem : ∀ {α : Type} (x : α) (l : List α), ∀ y ∈ f x l, y = x ∨ y ∈ l) :
    (g.edit f).Typed type := by
  cases hg with
  | cells hflat hl =>
    refine .cells hflat fun x hx => ?_
    rcases hmem _ _ x hx with rfl | hx
    · exact Encoding.holds_null _
    · exact hl x hx
  | lists hrows =>
    refine .lists fun list hlist => ?_
    rcases hmem _ _ _ hlist with hnone | hlist
    · cases hnone
    · exact hrows list hlist

theorem toList_edit
    (hmap : ∀ {α β : Type} (k : α → β) (x : α) (l : List α), (f x l).map k = f (k x) (l.map k)) :
    (g.edit f).toList = f .null g.toList := by
  cases g with
  | cells => rfl
  | lists rows => exact hmap ..

end Edit

section Combine

variable {f : {α : Type} → List α → List α → List α}

/-- What is kept for one type can be combined. -/
theorem Typed.combine? (hg : g.Typed type) (hg' : g'.Typed type)
    (hmem : ∀ {α : Type} (l l' : List α), ∀ y ∈ f l l', y ∈ l ∨ y ∈ l')
    (hmap : ∀ {α β : Type} (k : α → β) (l l' : List α), (f l l').map k = f (l.map k) (l'.map k)) :
    ∃ out, g.combine? f g' = some out ∧ out.Typed type ∧ out.toList = f g.toList g'.toList := by
  cases hg with
  | cells hflat hl =>
    cases hg' with
    | cells _ hl' =>
      refine ⟨_, if_pos rfl, .cells hflat fun x hx => ?_, rfl⟩
      exact (hmem _ _ x hx).elim (hl x) (hl' x)
    | lists => cases hflat
  | lists hrows =>
    cases hg' with
    | cells hflat => cases hflat
    | lists hrows' =>
      refine ⟨_, rfl, .lists fun list hlist => ?_, hmap ..⟩
      exact (hmem _ _ _ hlist).elim (hrows list) (hrows' list)

end Combine

/-! ### Arrays in and out -/

/-- What is kept of an array in the canonical encoding is of the type. -/
theorem typed_ofCanonical (ha : a.Sound) (he : a.encoding = type.encoding) :
    (ofCanonical type a).Typed type := by
  cases type with
  | list element => exact .lists fun list hlist => ha.of_mem_rows he hlist
  | _ => exact .cells rfl (he ▸ ha.holds_cells)

/-- What is kept of an array is of the type, and can be counted. -/
theorem typed_ofLayout (hlib : lib.Lawful) (ha : a.Sound) (h : ofLayout lib type a = .ok g) :
    g.Typed type ∧ g.Fits := by
  simp only [ofLayout, bind_eq_ok, pure_eq_ok] at h
  obtain ⟨found, hfound, ⟨⟩, hrequire, b, hb, rfl⟩ := h
  obtain rfl := ColumnType.require_eq_ok_iff.mp hrequire
  obtain ⟨hsound, he, -⟩ := Layout.canonical_spec hlib ha hfound hb
  exact ⟨typed_ofCanonical hsound he, fits_ofCanonical hsound he⟩

/-- What cannot be counted at the top cannot leave, whatever is below. -/
def TooLarge : Holding → Prop
  | cells kind l => kind = .utf8 ∧ maxOffset < total (l.map Cell.bytes)
  | lists rows => maxOffset < total (rows.map Layout.rowLength)

/-- What is of the type leaves with all of its cells, if it leaves. -/
theorem Typed.of_toLayout (hlib : lib.Lawful) (hg : g.Typed type) {out : Layout}
    (h : g.toLayout lib type = .ok out) : ¬ g.TooLarge ∧ out.Sound ∧
      out.encoding = type.encoding ∧ out.cells = g.toList := by
  cases hg with
  | @cells type l hflat hl =>
    rw [Holding.toLayout, CellKind.encoding?_kind hflat] at h
    dsimp only at h
    split at h
    · rename_i hfits
      obtain rfl := Except.ok.inj h
      refine ⟨fun ⟨hkind, hlarge⟩ => ?_, Layout.ofCells_spec hl hfits⟩
      cases type with
      | utf8 => exact Nat.not_lt.mpr (of_decide_eq_true hfits) hlarge
      | _ => cases hkind
    · cases h
  | lists hrows =>
    obtain ⟨hcount, hspec⟩ := Layout.ofRows_eq_ok hrows hlib h
    exact ⟨Nat.not_lt.mpr hcount, hspec⟩

/-- What is of the type and can be counted can leave. -/
theorem Typed.toLayout (hlib : lib.Lawful) (hg : g.Typed type) (hfits : g.Fits) :
    ∃ out, g.toLayout lib type = .ok out := by
  cases hg with
  | @cells type l hflat hl =>
    have hfits : type.encoding.fits l = true := by
      cases type with
      | list => cases hflat
      | utf8 => exact decide_eq_true (hfits rfl)
      | _ => rfl
    rw [Holding.toLayout, CellKind.encoding?_kind hflat]
    exact ⟨_, if_pos hfits⟩
  | lists hrows =>
    obtain ⟨out, hout, -⟩ := Layout.ofRows_spec hrows hlib hfits
    exact ⟨out, hout⟩

/-- What is of the type fails to leave only where it cannot be counted: it panics, unless it is the
library that fails to join items of the type. -/
theorem Typed.toLayout_eq_error {failure : Failure} (hlib : lib.Lawful) (hg : g.Typed type)
    (h : g.toLayout lib type = .error failure) : ¬ g.Fits ∧ (failure = .panic ∨
      ∃ (element : ColumnType) (parts : List Layout), type = .list element ∧
        (∀ p ∈ parts, p.Sound ∧ p.encoding = element.encoding) ∧
        lib.concat parts = .error failure) := by
  refine ⟨fun hfits => ?_, ?_⟩
  · obtain ⟨out, hout⟩ := hg.toLayout hlib hfits
    rw [hout] at h
    cases h
  cases hg with
  | cells hflat =>
    rw [Holding.toLayout, CellKind.encoding?_kind hflat] at h
    dsimp only at h
    split at h
    · cases h
    · exact .inl (Except.error.inj h).symm
  | lists hrows =>
    rcases Layout.ofRows_eq_error hrows hlib h with hitems | ⟨hpanic, -⟩
    · obtain ⟨parts, hparts, hconcat⟩ := Layout.itemsOf_eq_error hrows hitems
      exact .inr ⟨_, parts, rfl, hparts, hconcat⟩
    · exact .inl hpanic

/-- There are enough offsets for the cells of what can be counted. -/
theorem Typed.fits (hg : g.Typed type) (hfits : g.Fits) : type.encoding.fits g.toList = true := by
  cases hg with
  | @cells type l hflat hl =>
    cases type with
    | list => cases hflat
    | utf8 => exact decide_eq_true (hfits rfl)
    | _ => rfl
  | lists hrows => exact fits_lists hrows hfits

/-- There are not enough offsets for what is too large. -/
theorem Typed.not_fits (hg : g.Typed type) (hlarge : g.TooLarge) :
    ¬ type.encoding.fits g.toList = true := by
  cases hg with
  | @cells type l hflat hl =>
    obtain ⟨hkind, hlarge⟩ := hlarge
    cases type with
    | utf8 => exact fun hfits => Nat.not_lt.mpr (of_decide_eq_true hfits) hlarge
    | _ => cases hkind
  | lists hrows =>
    intro hfits
    rw [ColumnType.encoding, Encoding.fits, Bool.and_eq_true, Bool.false_or,
      decide_eq_true_eq, Layout.sum_itemCount fun list hlist => (hrows list hlist).1] at hfits
    exact Nat.not_lt.mpr hfits.1 hlarge

end Holding

/-! ## Columns of a type -/

namespace ArrayColumn

variable {type : ColumnType} {src c d : ArrayColumn} {lib : ArrayLibrary} {mismatch : Mismatch}
  {call : ArrayCall} {a : Layout} {b : Backing} {n : Nat}

/-- A column of the given type, with nothing kept but cells of this type. -/
structure OfType (type : ColumnType) (c : ArrayColumn) : Prop where
  type_eq : c.type = type
  typed : c.holding.Typed type

@[simp] theorem length_toList (c : ArrayColumn) : c.toList.length = c.size :=
  c.holding.length_toList

theorem toList_growTo (c : ArrayColumn) (n : Nat) :
    (c.growTo n).toList = c.toList ++ List.replicate (n - c.size) .null := by
  rw [← length_toList]
  exact Holding.toList_edit (f := fun x l => l ++ List.replicate (n - l.length) x) fun k x l => by
    rw [List.map_append, List.map_replicate, List.length_map]

theorem take_cases (h : c.take n = .ok d) : requirePart n c.size = .ok () ∧
    d = { c with holding := c.holding.edit fun _ l => l.take n } := by
  obtain ⟨⟨⟩, hpart, hd⟩ := bind_eq_ok.mp h
  exact ⟨hpart, (pure_eq_ok.mp hd).symm⟩

theorem toList_take (h : c.take n = .ok d) : d.toList = c.toList.take n := by
  obtain ⟨-, rfl⟩ := take_cases h
  exact Holding.toList_edit (f := fun _ l => l.take n) fun _ _ _ => List.map_take

theorem ofLayoutAs_cases (h : ofLayoutAs lib type a b = .ok c) :
    ∃ holding, Holding.ofLayout lib type a = .ok holding ∧ c = ⟨type, b, holding⟩ := by
  obtain ⟨holding, hholding, hc⟩ := bind_eq_ok.mp h
  exact ⟨holding, hholding, (pure_eq_ok.mp hc).symm⟩

theorem toList_dropFront (c : ArrayColumn) (n : Nat) : (c.dropFront n).toList = c.toList.drop n :=
  Holding.toList_edit (f := fun _ l => l.drop n) fun _ _ _ => List.map_drop

namespace OfType

theorem edit {f : {α : Type} → α → List α → List α} (hc : c.OfType type)
    (hmem : ∀ {α : Type} (x : α) (l : List α), ∀ y ∈ f x l, y = x ∨ y ∈ l) :
    OfType type { c with holding := c.holding.edit f } :=
  ⟨hc.type_eq, hc.typed.edit hmem⟩

theorem take (hc : c.OfType type) (hd : c.take n = .ok d) : d.OfType type := by
  obtain ⟨-, rfl⟩ := take_cases hd
  exact hc.edit fun _ _ _ hy => .inr (List.mem_of_mem_take hy)

theorem dropFront (hc : c.OfType type) (n : Nat) : (c.dropFront n).OfType type :=
  hc.edit fun _ _ _ hy => .inr (List.mem_of_mem_drop hy)

theorem growTo (hc : c.OfType type) (n : Nat) : (c.growTo n).OfType type :=
  hc.edit fun _ _ _ hy => (List.mem_append.mp hy).symm.imp_left List.eq_of_mem_replicate

/-- Of two columns of one type the kinds agree, and what comes of them is of the type. -/
theorem combine {f : {α : Type} → List α → List α → List α} (hc : c.OfType type)
    (hsrc : src.OfType type) (hmem : ∀ {α : Type} (l l' : List α), ∀ y ∈ f l l', y ∈ l ∨ y ∈ l')
    (hmap : ∀ {α β : Type} (k : α → β) (l l' : List α), (f l l').map k = f (l.map k) (l'.map k)) :
    ∃ holding, (∀ mismatch, combine mismatch f src c = (.ok (), { c with holding := holding })) ∧
      holding.Typed type ∧ holding.toList = f c.toList src.toList := by
  obtain ⟨holding, hholding, htyped, hlist⟩ := hc.typed.combine? hsrc.typed hmem hmap
  exact ⟨holding, fun mismatch => by rw [ArrayColumn.combine, hholding], htyped, hlist⟩

theorem appendTo (hc : c.OfType type) (hsrc : src.OfType type) :
    ∃ holding, (∀ mismatch, appendTo mismatch src c = (.ok (), { c with holding := holding })) ∧
      holding.Typed type ∧ holding.toList = c.toList ++ src.toList :=
  hc.combine hsrc (fun _ _ _ hy => List.mem_append.mp hy) fun _ _ _ => List.map_append

theorem copyRun (hc : c.OfType type) (hsrc : src.OfType type) (r : Run) (i : Nat) :
    ∃ holding, (∀ mismatch, copyRun mismatch src r i c = (.ok (), { c with holding := holding })) ∧
      holding.Typed type ∧ holding.toList =
        copyMembers (src.backing = .array ∧ c.backing = .array) src.toList r i c.toList :=
  hc.combine hsrc (fun _ _ _ hy => mem_copyMembers hy) fun k _ _ => map_copyMembers k

/-! ### The same, whatever a mismatch comes to -/

theorem agrees_appendTo (hc : c.OfType type) (hsrc : src.OfType type) (mismatch : Mismatch) :
    Agrees (OfType type) id (ArrayColumn.appendTo refuse src c)
      (ArrayColumn.appendTo mismatch src c) := by
  obtain ⟨holding, hrun, htyped, -⟩ := hc.appendTo hsrc
  rw [hrun refuse, hrun mismatch]
  exact .self ⟨hc.type_eq, htyped⟩

/-- No step of a copy meets a mismatch. -/
theorem simulates (hsrc : src.OfType type) (mismatch : Mismatch) :
    Copier.Simulates (copier refuse) (copier mismatch) (OfType type) id src where
  source := rfl
  size _ := rfl
  copyRun {c} r i hc := by
    obtain ⟨holding, hrun, htyped, -⟩ := hc.copyRun hsrc r i
    change Agrees _ _ (ArrayColumn.copyRun refuse src r i c)
      (ArrayColumn.copyRun mismatch src r i c)
    rw [hrun refuse, hrun mismatch]
    exact .self ⟨hc.type_eq, htyped⟩
  keeps_growTo n hc := hc.growTo n
  growTo _ _ := rfl

theorem ofLayoutAs (hlib : lib.Lawful) (ha : a.Sound)
    (h : ofLayoutAs lib type a b = .ok c) : c.OfType type := by
  obtain ⟨holding, hholding, rfl⟩ := ofLayoutAs_cases h
  exact ⟨rfl, (Holding.typed_ofLayout hlib ha hholding).1⟩

/-- A call comes to the same, whatever a mismatch would come to, and leaves cells of the type. -/
theorem run (hlib : lib.Lawful) (hc : c.OfType type)
    (hothers : ∀ d ∈ call.others, d.OfType d.type) (harrays : ∀ a ∈ call.arrays, a.Sound)
    (mismatch : Mismatch) :
    Agrees (OfType type) id (c.run lib call) (c.runWith lib mismatch call) := by
  obtain rfl := hc.type_eq
  -- every call compares the types first, so what it reads is of the type of the column
  have hother : ∀ d ∈ call.others, d.type = c.type → d.OfType c.type := fun d hd htype =>
    htype ▸ hothers d hd
  cases call with
  | drop n =>
    have hdrop : (c.run lib (.drop n)).2.OfType c.type := keeps_after hc fun _ => hc.dropFront n
    exact .self hdrop
  | append other =>
    refine .after hc fun _ htype => hc.agrees_appendTo (hother other (.head _) ?_) mismatch
    exact (ColumnType.require_eq_ok_iff.mp htype).symm
  | appendLayout a =>
    refine .after hc fun d hd => hc.agrees_appendTo ?_ mismatch
    exact ofLayoutAs hlib (harrays a (.head _)) hd
  | gather src rows =>
    refine .after hc fun _ htype => (simulates (hother src (.head _) ?_) mismatch).gather rows hc
    exact ColumnType.require_eq_ok_iff.mp htype
  | gatherEach src rows =>
    refine .after hc fun _ htype =>
      (simulates (hother src (.head _) ?_) mismatch).gatherEach rows hc
    exact ColumnType.require_eq_ok_iff.mp htype
  | scatter src rows =>
    refine .after hc fun _ htype => (simulates (hother src (.head _) ?_) mismatch).scatter rows hc
    exact (ColumnType.require_eq_ok_iff.mp htype).symm
  | scatterEach src rows =>
    refine .after hc fun _ htype =>
      (simulates (hother src (.head _) ?_) mismatch).scatterEach rows hc
    exact (ColumnType.require_eq_ok_iff.mp htype).symm

end OfType

end ArrayColumn

end LiveTables
