import LiveTables.Proofs.Column.Arrays

/-!
# The declared type is kept

A column declares its type once. Its cells are of this type, whatever is done to it: all that comes
in is converted or was of the same type before, and what is left by a call that fails is no
exception (`ArrayColumn.Made.ofType`). So the column leaves as what it was declared to be, as far as
32 bits can count it (`ArrayColumn.Made.keeps_type`).

How arrays are kept is left aside in stores of cells. A call comes to the same there
(`ArrayColumn.OfType.run_store`), as each of its steps does, so a column that can be made is a store
that can be made.

That a column is of its type is not enough for it to leave, since it can have become too large
(`ArrayColumn.Made.exists_panic`).
-/

namespace LiveTables

open Worked (Agrees)

/-! ## Calls on stores of cells -/

/-- The call on stores of cells, unless an array comes in. -/
def ArrayCall.onStores : ArrayCall → Option StoreCall
  | drop n => some (.drop n)
  | append other => some (.append other.store)
  | appendLayout _ => none
  | gather src rows => some (.gather src.store rows)
  | gatherEach src rows => some (.gatherEach src.store rows)
  | scatter src rows => some (.scatter src.store rows)
  | scatterEach src rows => some (.scatterEach src.store rows)

/-- The stores are those of the columns. -/
theorem ArrayCall.others_onStores {call : ArrayCall} {storeCall : StoreCall}
    (h : call.onStores = some storeCall) :
    storeCall.others = call.others.map ArrayColumn.store := by
  cases call with
  | appendLayout => cases h
  | _ =>
    obtain rfl := Option.some.inj h
    rfl

namespace ArrayColumn

variable {type : ColumnType} {src c d : ArrayColumn} {lib : ArrayLibrary} {call : ArrayCall}
  {a : Layout} {b : Backing} {n : Nat}

@[simp] theorem toList_store (c : ArrayColumn) : c.store.storage.cells.toList = c.toList :=
  Cells.toList_ofList ..

@[simp] theorem backing_store (c : ArrayColumn) : c.store.storage.cells.backing = c.backing :=
  Cells.backing_ofList ..

@[simp] theorem size_store (c : ArrayColumn) : c.store.storage.size = c.size := by
  rw [Storage.size, ← Cells.length_toList, toList_store, length_toList]

namespace OfType

theorem kind_eq (hc : c.OfType type) : c.store.storage.kind = type.kind := hc.typed.kind_eq

theorem requireKind (hc : c.OfType type) (hsrc : src.OfType type) :
    c.store.storage.requireKind src.store.storage = .ok () :=
  Storage.requireKind_eq_ok (hc.kind_eq.trans hsrc.kind_eq.symm)

/-- A storage that has the cells of a column is the storage of this column. -/
theorem storage_eq {cells : Cells} (hc : c.OfType type) (hd : d.OfType type)
    (hbacking : cells.backing = d.backing) (hlist : cells.toList = d.toList) :
    ⟨c.store.storage.kind, cells⟩ = d.store.storage := by
  have hcells : cells = d.store.storage.cells :=
    Cells.ext (by rw [hbacking, backing_store]) (by rw [hlist, toList_store])
  rw [hcells, hc.kind_eq, ← hd.kind_eq]

theorem storage_dropFront (hc : c.OfType type) (n : Nat) :
    Agrees (OfType type) (fun c => c.store.storage) (.ok (), c.dropFront n)
      ((fun d => (.ok (), { d with cells := d.cells.drop n })) c.store.storage) := by
  refine ⟨hc.dropFront n, congrArg (Prod.mk _) (hc.storage_eq (hc.dropFront n) ?_ ?_)⟩
  · rw [Cells.backing_drop, backing_store]
    rfl
  · rw [Cells.toList_drop, toList_store, toList_dropFront]

theorem storage_appendTo (hc : c.OfType type) (hsrc : src.OfType type) :
    Agrees (OfType type) (fun c => c.store.storage) (ArrayColumn.appendTo refuse src c)
      (src.store.storage.appendTo c.store.storage) := by
  obtain ⟨holding, hrun, htyped, hlist⟩ := hc.appendTo hsrc
  have hd : OfType type { c with holding := holding } := ⟨hc.type_eq, htyped⟩
  rw [hrun refuse, Storage.appendTo, after_ok (hc.requireKind hsrc)]
  refine ⟨hd, congrArg (Prod.mk _) (hc.storage_eq hd ?_ ?_)⟩
  · rw [Cells.backing_append, backing_store]
  · rw [Cells.toList_append, toList_store, toList_store, ← hlist, toList]

/-- Each step of a copy is the step of the storages. -/
theorem simulates_storage (hsrc : src.OfType type) :
    Copier.Simulates (copier refuse) Storage.copier (OfType type) (fun c => c.store.storage)
      src where
  source := src.size_store
  size {c} _ := c.size_store
  copyRun {c} r i hc := by
    obtain ⟨holding, hrun, htyped, hlist⟩ := hc.copyRun hsrc r i
    have hd : OfType type { c with holding := holding } := ⟨hc.type_eq, htyped⟩
    change Agrees _ _ (ArrayColumn.copyRun refuse src r i c)
      (src.store.storage.copyRun r i c.store.storage)
    rw [hrun refuse, Storage.copyRun, after_ok (hc.requireKind hsrc)]
    refine ⟨hd, congrArg (Prod.mk _) (hc.storage_eq hd ?_ ?_)⟩
    · rw [Cells.copyRun_eq_copyMembers, Cells.backing_ofList, backing_store]
    · rw [Cells.copyRun_eq_copyMembers, Cells.toList_ofList, backing_store, backing_store,
        toList_store, toList_store, ← hlist, toList]
  keeps_growTo n hc := hc.growTo n
  growTo {c} n hc := by
    change c.store.storage.growTo n = (c.growTo n).store.storage
    refine hc.storage_eq (hc.growTo n) ?_ ?_
    · rw [Cells.backing_growTo, backing_store]
      rfl
    · rw [Cells.toList_growTo, toList_store, toList_growTo, ← Storage.size, size_store]

/-- Work on the storages of stores is work on the stores. -/
theorem agrees_within {w : Worked ArrayColumn} {work : Storage → Worked Storage}
    (hw : Agrees (OfType c.type) (fun c => c.store.storage) w (work c.store.storage)) :
    Agrees (OfType c.type) store w (Store.within work c.store) := by
  refine ⟨hw.keeps, ?_⟩
  obtain ⟨hkeeps, hsame⟩ := hw
  obtain ⟨outcome, d⟩ := w
  have hstore : { c.store with storage := d.store.storage } = d.store :=
    congrArg (Store.mk · _) hkeeps.type_eq.symm
  rw [Store.within, hsame]
  exact congrArg (Prod.mk outcome) hstore

/-- A call without arrays is the call on the stores. -/
theorem run_store {storeCall : StoreCall} (hc : c.OfType c.type)
    (hothers : ∀ d ∈ call.others, d.OfType d.type) (hcall : call.onStores = some storeCall) :
    Agrees (OfType c.type) store (c.run lib call) (c.store.run storeCall) := by
  have hother : ∀ d ∈ call.others, d.type = c.type → d.OfType c.type := fun d hd htype =>
    htype ▸ hothers d hd
  cases call with
  | drop n =>
    obtain rfl := Option.some.inj hcall
    have hdrop : Agrees (OfType c.type) store (.ok (), c.dropFront n)
        (Store.within (fun d => (.ok (), { d with cells := d.cells.drop n })) c.store) :=
      agrees_within (hc.storage_dropFront n)
    rw [Store.run, size_store]
    change Agrees _ _ (after (requirePart n c.size) (fun _ c => (.ok (), c.dropFront n)) c) _
    exact .after hc fun _ _ => hdrop
  | append other =>
    obtain rfl := Option.some.inj hcall
    refine .after hc fun _ htype => agrees_within (hc.storage_appendTo (hother other (.head _) ?_))
    exact (ColumnType.require_eq_ok_iff.mp htype).symm
  | appendLayout a => cases hcall
  | gather src rows =>
    obtain rfl := Option.some.inj hcall
    refine .after hc fun _ htype => agrees_within ?_
    rw [Storage.gather_eq]
    refine (simulates_storage (hother src (.head _) ?_)).gather rows hc
    exact ColumnType.require_eq_ok_iff.mp htype
  | gatherEach src rows =>
    obtain rfl := Option.some.inj hcall
    refine .after hc fun _ htype => agrees_within ?_
    rw [Storage.gatherEach_eq]
    refine (simulates_storage (hother src (.head _) ?_)).gatherEach rows hc
    exact ColumnType.require_eq_ok_iff.mp htype
  | scatter src rows =>
    obtain rfl := Option.some.inj hcall
    refine .after hc fun _ htype => agrees_within ?_
    rw [Storage.scatter_eq]
    refine (simulates_storage (hother src (.head _) ?_)).scatter rows hc
    exact (ColumnType.require_eq_ok_iff.mp htype).symm
  | scatterEach src rows =>
    obtain rfl := Option.some.inj hcall
    refine .after hc fun _ htype => agrees_within ?_
    rw [Storage.scatterEach_eq]
    refine (simulates_storage (hother src (.head _) ?_)).scatterEach rows hc
    exact (ColumnType.require_eq_ok_iff.mp htype).symm

end OfType

/-! ## All columns that can be made -/

theorem type_ofLayoutAs (h : ofLayoutAs lib type a b = .ok c) : c.type = type := by
  obtain ⟨holding, -, rfl⟩ := ofLayoutAs_cases h
  rfl

/-- An array that decides the type is taken in as one of this type. -/
theorem ofLayoutAs_of_ofLayout (h : ofLayout lib a b = .ok c) :
    ofLayoutAs lib c.type a b = .ok c := by
  obtain ⟨type, -, h⟩ := bind_eq_ok.mp h
  have hc : ofLayoutAs lib type a b = .ok c := h
  rwa [type_ofLayoutAs hc]

/-- Every column that can be made keeps nothing but cells of its type. -/
theorem Made.ofType (hlib : lib.Lawful) (h : c.Made lib) : c.OfType c.type := by
  induction h with
  | nulls type b n => exact ⟨rfl, Holding.typed_nulls type n⟩
  | ofLayoutAs ha h =>
    have hc := OfType.ofLayoutAs hlib ha h
    rwa [hc.type_eq]
  | ofLayout ha h => exact .ofLayoutAs hlib ha (ofLayoutAs_of_ofLayout h)
  | move _ b ih => exact ⟨rfl, ih.typed⟩
  | take _ hd ih =>
    have hd := ih.take hd
    rwa [hd.type_eq]
  | run _ call _ harrays ih ihothers =>
    have hrun := (ih.run hlib ihothers harrays refuse).keeps
    rwa [hrun.type_eq]

/-- The cells of a column that is made of an array are a store that is made of an array. -/
theorem exists_ofArrayAs_store (hlib : lib.Lawful) (ha : a.Sound)
    (h : ofLayoutAs lib type a b = .ok c) :
    ∃ array, Store.ofArrayAs type array b = .ok c.store := by
  obtain ⟨holding, hholding, rfl⟩ := ofLayoutAs_cases h
  obtain ⟨htyped, hfits⟩ := Holding.typed_ofLayout hlib ha hholding
  let array : EncodedArray := .ofCells type.encoding holding.toList htyped.holds (htyped.fits hfits)
  have he : array.encoding = type.encoding := EncodedArray.encoding_ofCells ..
  have hcells : array.cellsAs type = .ok holding.toList := by
    rw [EncodedArray.cellsAs, he, ColumnType.columnType_encoding, ok_bind,
      ColumnType.require_eq_ok_iff.mpr rfl, ok_bind, if_pos rfl]
    exact congrArg Except.ok (EncodedArray.cells_ofCells ..)
  refine ⟨array, ?_⟩
  rw [Store.ofArrayAs_eq_ok hcells, store, htyped.kind_eq]
  rfl

/-- To append an array is to append the column that is made of it. -/
theorem run_appendLayout (h : ofLayoutAs lib c.type a c.backing = .ok d) :
    c.run lib (.appendLayout a) = c.run lib (.append d) := by
  have htype : c.type.require d.type = .ok () :=
    ColumnType.require_eq_ok_iff.mpr (type_ofLayoutAs h).symm
  rw [run, runWith, runWith, after_ok h, after_ok htype]

theorem store_nulls (type : ColumnType) (b : Backing) (n : Nat) :
    (nulls type b n).store = .nulls type b n := by
  have hkind := (Holding.typed_nulls type n).kind_eq
  rw [store, toList, nulls, Holding.toList_nulls, hkind]
  rfl

theorem store_move (c : ArrayColumn) (b : Backing) :
    store { c with backing := b } = c.store.move b := by
  rw [Store.move, toList_store]
  rfl

theorem OfType.take_store (hc : c.OfType c.type) (hd : c.take n = .ok d) :
    c.store.take n = .ok d.store := by
  obtain ⟨hpart, hsame⟩ := take_cases hd
  have hcells : (⟨c.store.storage.kind, c.store.storage.cells.take n⟩ : Storage) =
      d.store.storage := by
    refine hc.storage_eq (hc.take hd) ?_ ?_
    · rw [Cells.backing_take, backing_store, hsame]
    · rw [Cells.toList_take, toList_store, toList_take hd]
  have htype : c.store.type = d.type := (hc.take hd).type_eq.symm
  rw [Store.take, size_store, hpart, ok_bind, hcells, htype]
  rfl

/-- A call without arrays leaves a store that can be made. -/
theorem OfType.made_run (hc : c.OfType c.type) (hmade : c.store.Made)
    (hothers : ∀ d ∈ call.others, d.OfType d.type) (hstores : ∀ d ∈ call.others, d.store.Made)
    {storeCall : StoreCall} (hcall : call.onStores = some storeCall) :
    (c.run lib call).2.store.Made := by
  have hrun := hmade.run storeCall fun t ht => by
    rw [ArrayCall.others_onStores hcall] at ht
    obtain ⟨d, hd, rfl⟩ := List.mem_map.mp ht
    exact hstores d hd
  have hsame : c.store.run storeCall = (c.run lib call).map id store :=
    (hc.run_store hothers hcall).same
  rwa [hsame] at hrun

/-- The cells of a column that can be made are a store that can be made. -/
theorem Made.store (hlib : lib.Lawful) (h : c.Made lib) : c.store.Made := by
  induction h with
  | nulls type b n => exact store_nulls type b n ▸ .nulls type b n
  | ofLayoutAs ha h =>
    obtain ⟨array, harray⟩ := exists_ofArrayAs_store hlib ha h
    exact .ofArrayAs harray
  | ofLayout ha h =>
    obtain ⟨array, harray⟩ := exists_ofArrayAs_store hlib ha (ofLayoutAs_of_ofLayout h)
    exact .ofArrayAs harray
  | @move c _ b ih => exact store_move c b ▸ ih.move b
  | take hc hd ih => exact ih.take ((hc.ofType hlib).take_store hd)
  | @run c hc call hothers harrays ih ihothers =>
    have htyped := hc.ofType hlib
    have htypes : ∀ d ∈ call.others, d.OfType d.type := fun d hd => (hothers d hd).ofType hlib
    cases call with
    -- an array that comes in is a store of its own before it is appended
    | appendLayout a =>
      have ha := harrays a (.head _)
      cases hd : ArrayColumn.ofLayoutAs lib c.type a c.backing with
      | error e =>
        have hsame : (c.run lib (.appendLayout a)).2 = c := by
          rw [ArrayColumn.run, runWith, hd]
          rfl
        rwa [hsame]
      | ok d =>
        have hlayout := OfType.ofLayoutAs hlib ha hd
        obtain ⟨array, harray⟩ := exists_ofArrayAs_store hlib ha hd
        rw [run_appendLayout hd]
        refine htyped.made_run ih (List.forall_mem_singleton.mpr ?_)
          (List.forall_mem_singleton.mpr ?_) rfl
        · rwa [hlayout.type_eq]
        · exact .ofArrayAs harray
    | _ => exact htyped.made_run ih htypes ihothers rfl

/-- A column that can be counted leaves as an array of its type with all of its cells. -/
theorem Made.exists_array (hlib : lib.Lawful) (hc : c.Made lib) (hfits : c.holding.Fits) :
    ∃ a : EncodedArray, c.toLayout lib = .ok a.layout ∧ a.encoding = c.type.encoding ∧
      a.cells = c.toList := by
  obtain ⟨-, htyped⟩ := hc.ofType hlib
  obtain ⟨out, hout⟩ := htyped.toLayout hlib hfits
  obtain ⟨-, hsound, hencoding, hcells⟩ := htyped.of_toLayout hlib hout
  exact ⟨⟨out, hsound⟩, hout, hencoding, hcells⟩

/-! ## The declared type is kept -/

/-- Whatever is done to columns of arrays, by calls that succeed or fail, a column keeps nothing but
cells of its type, and of a list an array in the canonical encoding of the items. So no call comes
to a step between different kinds, whatever such a step would come to.

As far as 32 bits can count what the column keeps, it leaves. Whenever it leaves, this is as an
array in the canonical encoding, with the cells that it has. Otherwise it panics, or the library
fails to join the items of its lists, which are all of their type; no check of the column fails. A
column that is too large at the top never leaves.

Where the layout is left aside, the column leaves just if there are enough offsets for its cells. As
far as 32 bits can count what the column keeps there are, and if it is too large at the top there
are not. The cells are a store that can be made, and so it is with all of these stores: their cells
are of their type, and they leave unless they are too large. -/
theorem Made.keeps_type (hlib : lib.Lawful) (hc : c.Made lib) :
    c.OfType c.type ∧ (∀ x ∈ c.toList, c.type.encoding.holds x = true) ∧
    (∀ (call : ArrayCall) (mismatch : Mismatch), (∀ d ∈ call.others, d.Made lib) →
      (∀ a ∈ call.arrays, a.Sound) → c.runWith lib mismatch call = c.run lib call) ∧
    (c.holding.Fits → ∃ out, c.toLayout lib = .ok out) ∧
    (∀ out, c.toLayout lib = .ok out → ¬ c.holding.TooLarge ∧ out.Sound ∧
      out.encoding = c.type.encoding ∧ out.size = c.size ∧ out.cells = c.toList) ∧
    (∀ failure, c.toLayout lib = .error failure → ¬ c.holding.Fits ∧ (failure = .panic ∨
      ∃ (element : ColumnType) (parts : List Layout), c.type = .list element ∧
        (∀ p ∈ parts, p.Sound ∧ p.encoding = element.encoding) ∧
        lib.concat parts = .error failure)) ∧
    (c.holding.Fits → c.type.encoding.fits c.toList = true) ∧
    (c.holding.TooLarge → ¬ c.type.encoding.fits c.toList = true) ∧
    c.type.Leaves c.toList c.column.toArray ∧ c.store.Made ∧
    ∀ s : Store, s.Made → (∀ x ∈ s.storage.cells.toList, s.type.encoding.holds x = true) ∧
      s.type.Leaves s.storage.cells.toList (s.type.arrayOf s.storage.cells.toList) := by
  have htype := hc.ofType hlib
  refine ⟨htype, htype.typed.holds, fun call mismatch hothers harrays => ?_,
    htype.typed.toLayout hlib, fun out hout => ?_,
    fun failure hfailure => htype.typed.toLayout_eq_error hlib hfailure, htype.typed.fits,
    htype.typed.not_fits, ?_, hc.store hlib,
    fun s hs => ⟨hs.held, ColumnType.leaves_arrayOf hs.held⟩⟩
  · exact (htype.run hlib (fun d hd => (hothers d hd).ofType hlib) harrays mismatch).same
  · obtain ⟨hsmall, hsound, hencoding, hcells⟩ := htype.typed.of_toLayout hlib hout
    refine ⟨hsmall, hsound, hencoding, ?_, hcells⟩
    rw [← hsound.length_cells, hcells]
    exact c.length_toList
  · rw [Column.toArray, column, Column.toList, Cells.toList_ofList]
    exact ColumnType.leaves_arrayOf htype.typed.holds

/-- Lists of lists of instants in seconds are cut out of a longer array, and the first of them is
copied to a row behind the last one. A column of lists of strings keeps lists as well, and cannot be
appended, whatever a mismatch would come to. -/
theorem Made.keeps_type_of_nested : ∃ c other : ArrayColumn,
    ArrayLibrary.plain.Lawful ∧ c.Made .plain ∧ other.Made .plain ∧
    c.type = .list (.list .timestamp) ∧ other.type = .list .utf8 ∧
    c.holding.kind = other.holding.kind ∧
    c.toList = [.list [.list [.null, .int 1000000000], .null], .list [], .null, .null,
      .list [.list [.null, .int 1000000000], .null]] ∧
    (∀ mismatch, c.runWith .plain mismatch (.append other) =
      (.error (.typeMismatch "List<List<Timestamp>>" "List<Utf8>"), c)) ∧
    ∃ out, c.toLayout .plain = .ok out ∧ out.encoding = c.type.encoding ∧ out.size = 5 ∧
      out.cells = c.toList := by
  let times : Layout := .flat (.timestamp .second none) [.int 9, .null, .int 1]
  let inner : Layout := .lists false "t" true [0, 1, 3, 3] (some [true, true, false]) times
  let outer : Layout := .lists true "u" true [0, 1, 3, 3, 3] (some [true, true, true, false]) inner
  have htimes : times.Sound := .flat rfl (by decide)
  have hinner : inner.Sound :=
    .lists htimes ⟨by decide, by decide, by decide⟩ (fun l hl => by cases hl; rfl)
      (fun _ _ => rfl) fun _ => by decide
  have houter : outer.Sound :=
    .lists hinner ⟨by decide, by decide, by decide⟩ (fun l hl => by cases hl; rfl)
      (fun _ _ => rfl) nofun
  obtain ⟨src, hsrc⟩ : ∃ src, ArrayColumn.ofLayout .plain (outer.slice 1 3) .array = .ok src :=
    ⟨_, rfl⟩
  have hmade : src.Made .plain := .ofLayout (houter.slice (by decide)) hsrc
  have hc : (src.run .plain (.scatterEach src [4])).2.Made .plain :=
    hmade.run _ (List.forall_mem_singleton.mpr hmade) fun _ ha => by cases ha
  obtain rfl := Except.ok.inj hsrc
  have hother : (ArrayColumn.nulls (.list .utf8) .persistent 2).Made .plain := .nulls ..
  obtain ⟨-, -, hsame, hleave, hleft, -⟩ := hc.keeps_type ArrayLibrary.plain_lawful
  obtain ⟨out, hout⟩ := hleave ⟨by decide, fun depth => by
    cases depth with
    | zero => decide
    | succ depth => exact Nat.zero_le _⟩
  obtain ⟨-, -, hencoding, hsize, hcells⟩ := hleft out hout
  refine ⟨_, _, ArrayLibrary.plain_lawful, hc, hother, rfl, rfl, rfl, rfl, fun mismatch => ?_, out,
    hout, hencoding, hsize, hcells⟩
  exact hsame (.append _) mismatch (List.forall_mem_singleton.mpr hother) fun _ ha => by cases ha

/-- A text of `2 ^ 30` bytes is added to itself. The column that has it twice has more bytes than 32
bits can count, and panics. -/
theorem Made.exists_panic : ∃ c : ArrayColumn, ArrayLibrary.plain.Lawful ∧ c.Made .plain ∧
    c.type = .utf8 ∧ c.size = 2 ∧ c.toLayout .plain = .error .panic ∧
    c.column.toArray = .error .panic := by
  obtain ⟨text, hone, htwo⟩ := exists_large_text
  let array : EncodedArray := .ofCells .utf8 [.text text] (List.forall_mem_singleton.mpr rfl) hone
  let src : ArrayColumn := ⟨.utf8, .array, .cells .utf8 [.text text]⟩
  have hsrc : src.Made .plain := .ofLayout array.sound (b := .array) rfl
  have hc : (src.run .plain (.append src)).2.Made .plain :=
    hsrc.run _ (List.forall_mem_singleton.mpr hsrc) fun _ ha => by cases ha
  exact ⟨_, ArrayLibrary.plain_lawful, hc, rfl, rfl, if_neg htwo, dif_neg htwo⟩

end ArrayColumn

end LiveTables
