import LiveTables.Proofs.Column.Storage

/-!
# Columns and chunks as they are kept

What is done to columns and chunks (`Column.scatter`, `Chunk.append` and so on) is what the calls on
their stores come to, in their outcome and in what they leave behind, also where they fail. There
are two differences to bridge. A store copies run by run from a place in one storage to a place in
another, as a block or cell by cell; a column writes a list of cells. And a store that has grown
checks its rows against the size that was asked for, and a column against the size that it has,
which may be greater. Either check is passed by all rows.

So what is shown of calls on stores is shown of columns and chunks, and the other way round.
-/

namespace LiveTables

/-! ## Copying cells -/

namespace Cells

variable {src dest : Cells} {i : Nat}

theorem length_slice {r : Run} (h : r.stop ≤ src.size) : (src.slice r).length = r.width := by
  rw [slice_eq, List.length_take, List.length_drop, length_toList, Run.width]
  omega

theorem overwrite_singleton {x : Cell} (h : i < dest.size) :
    dest.overwrite i [x] = dest.set i x := overwrite_eq_foldl h

/-- One cell after another is put where they come to stand as a block. -/
theorem foldl_copy_eq {keys : List Nat} {cells : List Cell}
    (h : List.Forall₂ (fun key x => src.get? key = some x) keys cells) :
    (keys.zipIdx i).foldl (fun dest p => (src.get? p.1).elim dest fun x => dest.set p.2 x) dest =
      (cells.zipIdx i).foldl (fun s x => s.set x.2 x.1) dest := by
  induction h generalizing i dest with
  | nil => rfl
  | cons hx _ ih =>
    simp only [List.zipIdx_cons, List.foldl_cons, hx, Option.elim_some]
    exact ih

/-- However a run is copied, its cells come to stand in place of those that were there. -/
theorem copyRun_eq {r : Run} (hsrc : r.stop ≤ src.size) (hdest : i + r.width ≤ dest.size) :
    src.copyRun r i dest = dest.overwrite i (src.slice r) := by
  have hcell : ∀ key ∈ r.keys, ∃ x, src.toList[key]? = some x := fun key hkey => by
    have hlt : key < src.toList.length := by
      rw [Run.mem_keys] at hkey
      rw [length_toList]
      omega
    exact ⟨_, List.getElem?_eq_getElem hlt⟩
  obtain ⟨read, hread⟩ := exists_forall₂ hcell
  unfold copyRun
  split
  · rfl
  · rw [overwrite_eq_foldl (by rwa [length_slice hsrc]), slice_eq_of_forall₂ hread]
    exact foldl_copy_eq (hread.imp fun _ _ hx => (get?_eq ..).trans hx)

end Cells

/-! ## Checks before work -/

section Work

variable {σ α β : Type} {s : σ}

/-- A check in two steps is two checks. -/
theorem after_bind {x : Except Error α} {f : α → Except Error β} {work : β → σ → Worked σ} :
    after (x >>= f) work s = after x (fun a => after (f a) work) s := by
  cases x <;> rfl

/-- What work does matters only if the check before it is passed. -/
theorem after_congr {check : Except Error α} {work work' : α → σ → Worked σ}
    (h : ∀ found, check = .ok found → work found s = work' found s) :
    after check work s = after check work' s := by
  cases check with
  | error e => rfl
  | ok found => exact h found rfl

end Work

/-! ## Single copies -/

/-- A run is copied as a block. -/
theorem Storage.copyRun_eq {src d : Storage} {r : Run} {i : Nat} (hkind : d.kind = src.kind)
    (hsrc : r.stop ≤ src.size) (hdest : i + r.width ≤ d.size) :
    src.copyRun r i d =
      (.ok (), { d with cells := d.cells.overwrite i (src.cells.slice r) }) := by
  rw [copyRun, after_ok (requireKind_eq_ok hkind), Cells.copyRun_eq hsrc hdest]

namespace Column

variable {c d : Column} {k : Chunk} {rows : KeySet} {rs : List Run} {list : List Nat}
  {read : List Cell} {r : Run} {limit low i n row size w : Nat}

/-- A run of rows is copied into the block of a chunk. -/
theorem copyRun_store (htype : k.type = c.type) (hstop : r.stop ≤ c.size)
    (hroom : i + r.width ≤ k.size) :
    c.store.storage.copyRun r i k.store.storage =
      (.ok (), (k.overwrite i (c.cells.slice r)).store.storage) := by
  have hblock : (Cells.ofList .array k.cells).overwrite i (c.cells.slice r) =
      .ofList .array (k.overwrite i (c.cells.slice r)).cells :=
    Cells.ext (by simp) (by simp [Chunk.overwrite])
  have hkind : k.store.storage.kind = c.store.storage.kind := congrArg ColumnType.kind htype
  rw [Storage.copyRun_eq hkind hstop hroom]
  exact congrArg (fun cells => (Except.ok (), Storage.mk k.type.kind cells)) hblock

/-- Cells of a chunk are copied to rows that follow one another. -/
theorem copyRun_store_chunk (htype : c.type = k.type) (hsource : i + w ≤ k.size)
    (hrows : row + w ≤ c.size) :
    k.store.storage.copyRun ⟨i, i + w⟩ row c.store.storage =
      (.ok (),
        { c with cells := c.cells.overwrite row ((k.cells.drop i).take w) }.store.storage) := by
  have hwidth : (⟨i, i + w⟩ : Run).width = w := Nat.add_sub_cancel_left ..
  have hslice : (Cells.ofList .array k.cells).slice ⟨i, i + w⟩ = (k.cells.drop i).take w := by
    rw [Cells.slice_eq, hwidth, Cells.toList_ofList]
  have hkind : c.store.storage.kind = k.store.storage.kind := congrArg ColumnType.kind htype
  rw [Storage.copyRun_eq hkind hsource (by rwa [hwidth])]
  exact congrArg (fun cells => (Except.ok (), Storage.mk c.type.kind (c.cells.overwrite row cells)))
    hslice

/-! ## Gathering -/

theorem gatherRuns_store (htype : k.type = c.type) (hrs : Spaced limit low rs)
    (hroom : i + Runs.size rs ≤ k.size) :
    Store.within (c.store.storage.gatherRuns rs i) k.store =
      (c.gatherRuns rs i k).map id Chunk.store := by
  induction rs generalizing low i k with
  | nil => rfl
  | cons r rs ih =>
    obtain ⟨-, hpos, -, hrest⟩ := hrs
    rw [Runs.size] at hroom
    rw [Store.within, Storage.gatherRuns, gatherRuns]
    change Prod.map _ _ (after (requireRun c.size r) _ _) = _
    cases hrun : requireRun c.size r with
    | error e => rfl
    | ok _ =>
      have hstop : r.stop ≤ c.size := (requireRun_eq_ok_iff hpos).mp hrun
      have hlen : (c.cells.slice r).length = r.width := Cells.length_slice hstop
      have hsize : (k.overwrite i (c.cells.slice r)).size = k.size :=
        Chunk.size_overwrite (by omega)
      rw [after_ok rfl, copyRun_store htype hstop (by omega)]
      exact ih (k := k.overwrite i (c.cells.slice r)) htype hrest (by omega)

/-- To gather a set of rows is a call on a chunk. -/
theorem run_gather : k.store.run (.gather c.store rows) = (c.gather rows k).map id Chunk.store := by
  rw [gather, requireGather]
  change after (c.type.require k.type) _ k.store = _
  cases htype : c.type.require k.type with
  | error e => rfl
  | ok _ =>
    rw [after_ok rfl, ok_bind, Store.within, Storage.gather]
    change Prod.map _ _ (after (requireRoom rows.size k.size >>= fun _ =>
      requireSet c.size rows) _ _) = _
    cases hcheck : requireRoom rows.size k.size >>= fun _ => requireSet c.size rows with
    | error e => rfl
    | ok _ =>
      obtain ⟨⟨⟩, hroom, -⟩ := bind_eq_ok.mp hcheck
      have htype := (ColumnType.require_eq_ok_iff.mp htype).symm
      have hroom := requireRoom_eq_ok_iff.mp hroom
      exact gatherRuns_store htype rows.spaced (by rwa [Nat.zero_add, ← rows.size_eq])

/-- To look for rows is to look for their cells. -/
theorem forM_requireRow :
    list.forM (requireRow c.size) = (fun _ => ()) <$> list.mapM c.cellAt := by
  have hrow : ∀ row, requireRow c.size row = (fun _ => ()) <$> c.cellAt row := fun row => by
    rw [requireRow, cellAt, Cells.get?_eq]
    split
    · rw [List.getElem?_eq_none (by rwa [Cells.length_toList])]
      rfl
    · rw [List.getElem?_eq_getElem (by rw [Cells.length_toList]; exact Nat.lt_of_not_le ‹_›)]
      rfl
  rw [List.forM_eq_forM]
  induction list with
  | nil => rfl
  | cons row list ih =>
    rw [List.forM_cons, List.mapM_cons, ih, hrow]
    cases c.cellAt row with
    | error e => rfl
    | ok x => cases list.mapM c.cellAt <;> rfl

theorem gatherRows_store (htype : k.type = c.type)
    (hread : List.Forall₂ (fun row x => c.toList[row]? = some x) list read)
    (hroom : i + list.length ≤ k.size) :
    Store.within (c.store.storage.gatherRows list i) k.store =
      (.ok (), (k.overwrite i read).store) := by
  induction hread generalizing i k with
  | nil =>
    rw [Chunk.overwrite_nil]
    rfl
  | @cons row x list read hx hread ih =>
    rw [List.length_cons] at hroom
    have hrow : row + 1 ≤ c.size := lt_size hx
    have hwidth : (⟨row, row + 1⟩ : Run).width = 1 := Nat.add_sub_cancel_left ..
    have hslice : c.cells.slice ⟨row, row + 1⟩ = [x] := by
      refine Cells.slice_eq_of_forall₂ ?_
      rw [Run.keys, hwidth]
      exact .cons hx .nil
    have hsize : (k.overwrite i [x]).size = k.size :=
      Chunk.size_overwrite (by rw [List.length_singleton]; omega)
    have hjoin : (k.overwrite i [x]).overwrite (i + 1) read = k.overwrite i (x :: read) :=
      Chunk.overwrite_overwrite (by omega)
    rw [Store.within, Storage.gatherRows, Storage.copyRow,
      copyRun_store htype hrow (by omega), hslice, ← hjoin]
    exact ih (k := k.overwrite i [x]) htype (by omega)

/-- To gather a list of rows is a call on a chunk. -/
theorem run_gatherEach : k.store.run (.gatherEach c.store list) =
    (c.gatherEach list k).map id Chunk.store := by
  rw [gatherEach, cellsFor]
  change after (c.type.require k.type) _ k.store = _
  cases htype : c.type.require k.type with
  | error e => rfl
  | ok _ =>
    rw [after_ok rfl, ok_bind, Store.within, Storage.gatherEach]
    change Prod.map _ _ (after (requireRoom list.length k.size >>= fun _ =>
      list.forM (requireRow c.size)) _ _) = _
    rw [forM_requireRow]
    cases hroom : requireRoom list.length k.size with
    | error e => rfl
    | ok _ =>
      cases hread : list.mapM c.cellAt with
      | error e => rfl
      | ok read =>
        have htype := (ColumnType.require_eq_ok_iff.mp htype).symm
        have hroom := requireRoom_eq_ok_iff.mp hroom
        have hread := (mapM_eq_ok.mp hread).imp fun _ _ => cellAt_eq_ok_iff.mp
        exact gatherRows_store htype hread (by rwa [Nat.zero_add])

/-! ## Scattering -/

theorem length_piece (h : i + w ≤ k.size) : ((k.cells.drop i).take w).length = w := by
  rw [Chunk.size] at h
  rw [List.length_take, List.length_drop]
  omega

theorem scatterRuns_store (htype : c.type = k.type) (hrs : Spaced limit low rs)
    (hrows : ∀ row ∈ Runs.toList rs, row < size) (hsize : size ≤ c.size)
    (hroom : i + Runs.size rs ≤ k.size) :
    Store.within (k.store.storage.scatterRuns size rs i) c.store =
      (scatterRuns rs (k.cells.drop i) c).map id store := by
  induction rs generalizing low i c with
  | nil => rfl
  | cons r rs ih =>
    have hstop : r.stop ≤ size := hrs.stop_le_of_keys hrows
    obtain ⟨-, hpos, -, hrest⟩ := hrs
    rw [Runs.size] at hroom
    have hdest : r.start + r.width ≤ c.size := by
      rw [Run.width]
      omega
    let d : Column := { c with cells := c.cells.overwrite r.start ((k.cells.drop i).take r.width) }
    have hpiece : ((k.cells.drop i).take r.width).length = r.width := length_piece (by omega)
    have hsize' : d.size = c.size := c.cells.size_overwrite (by rwa [hpiece])
    rw [Store.within, Storage.scatterRuns, after_ok ((requireRun_eq_ok_iff hpos).mpr hstop),
      copyRun_store_chunk htype (by omega) hdest, scatterRuns,
      (requireRun_eq_ok_iff hpos).mpr (by omega), List.drop_drop]
    exact ih (c := d) htype hrest (fun row hrow => hrows row (List.mem_append_right _ hrow))
      (by omega) (by omega)

theorem scatterRows_store (htype : c.type = k.type) (hrows : ∀ row ∈ list, row < size)
    (hsize : size ≤ c.size) (hroom : i + list.length ≤ k.size) :
    Store.within (k.store.storage.scatterRows size list i) c.store =
      (scatterRows list (k.cells.drop i) c).map id store := by
  induction list generalizing i c with
  | nil => rfl
  | cons row list ih =>
    obtain ⟨hrow, hrows⟩ := List.forall_mem_cons.mp hrows
    rw [List.length_cons] at hroom
    have hi : i < k.cells.length := Nat.lt_of_lt_of_le (by omega) hroom
    have hdest : row + 1 ≤ c.size := by omega
    have hpiece : (k.cells.drop i).take 1 = [k.cells[i]] := by
      rw [List.drop_eq_getElem_cons hi, List.take_succ_cons, List.take_zero]
    let d : Column := { c with cells := c.cells.set row k.cells[i] }
    have hwritten : { c with cells := c.cells.overwrite row ((k.cells.drop i).take 1) } = d := by
      rw [hpiece, Cells.overwrite_singleton hdest]
    have hsize' : d.size = c.size := c.cells.size_set row k.cells[i]
    rw [Store.within, Storage.scatterRows, after_ok (requireRow_eq_ok_iff.mpr hrow),
      Storage.copyRow, copyRun_store_chunk htype (by omega) hdest, hwritten,
      List.drop_eq_getElem_cons hi, scatterRows, requireRow_eq_ok_iff.mpr hdest]
    exact ih (c := d) htype hrows (by omega) (by omega)

/-- To scatter to a set of rows is a call on a column. -/
theorem run_scatter : c.store.run (.scatter k.store rows) = (c.scatter k rows).map id store := by
  rw [scatter, requireScatter]
  change after (c.type.require k.type) _ c.store = _
  cases htype : c.type.require k.type with
  | error e => rfl
  | ok _ =>
    rw [after_ok rfl, ok_bind, Store.within, Storage.scatter]
    change Prod.map _ _ (after (requireRoom rows.size k.size >>= fun _ =>
      rows.last?.mapM Storage.sizeFor) _ _) = _
    cases hroom : requireRoom rows.size k.size with
    | error e => rfl
    | ok _ =>
      cases hlast : rows.last? with
      | none => rfl
      | some last =>
        have hlt : last < maxKey := KeySet.lt_maxKey (List.mem_of_getLast? (by
          rw [KeySet.getLast?_toList, hlast]))
        have hneeded : (some last).mapM Storage.sizeFor = .ok (some (last + 1)) := by
          rw [Option.mapM_some, Storage.sizeFor, requireAddressable, if_neg (by omega)]
          rfl
        have htype := ColumnType.require_eq_ok_iff.mp htype
        have hroom := requireRoom_eq_ok_iff.mp hroom
        rw [hneeded]
        refine scatterRuns_store (c := c.growFor last) htype rows.spaced (fun row hrow => ?_) ?_ ?_
        · exact Nat.lt_of_lt_of_eq (KeySet.lt_reach hrow) (KeySet.reach_eq hlast)
        · rw [size_growFor]
          exact Nat.le_max_right ..
        · rwa [Nat.zero_add, ← rows.size_eq]

/-- To scatter to a list of rows is a call on a column. -/
theorem run_scatterEach : c.store.run (.scatterEach k.store list) =
    (c.scatterEach k list).map id store := by
  rw [scatterEach, requireScatterEach]
  change after (c.type.require k.type) _ c.store = _
  cases htype : c.type.require k.type with
  | error e => rfl
  | ok _ =>
    rw [after_ok rfl, ok_bind, Store.within, Storage.scatterEach]
    change Prod.map _ _ (after (requireRoom list.length k.size >>= fun _ =>
      list.max?.mapM Storage.sizeFor) _ _) = _
    cases hroom : requireRoom list.length k.size with
    | error e => rfl
    | ok _ =>
      cases hmax : list.max? with
      | none => rfl
      | some greatest =>
        have hneeded : (some greatest).mapM Storage.sizeFor =
            (fun _ => some (greatest + 1)) <$> requireAddressable greatest := by
          rw [Option.mapM_some, Storage.sizeFor]
          cases requireAddressable greatest <;> rfl
        have hasked : (some greatest).forM requireAddressable = requireAddressable greatest := rfl
        rw [hneeded, hasked]
        cases requireAddressable greatest with
        | error e => rfl
        | ok _ =>
          have htype := ColumnType.require_eq_ok_iff.mp htype
          have hroom := requireRoom_eq_ok_iff.mp hroom
          refine scatterRows_store (c := c.growFor greatest) htype (fun row hrow => ?_) ?_ ?_
          · exact Nat.lt_succ_of_le ((List.max?_eq_some_iff.mp hmax).2 row hrow)
          · rw [size_growFor]
            exact Nat.le_max_right ..
          · rwa [Nat.zero_add]

/-! ## Cutting and joining -/

/-- To drop rows is a call. -/
theorem run_drop : c.store.run (.drop n) =
    after (c.drop n) (fun c' _ => (.ok (), c'.store)) c.store := by
  rw [drop, after_bind]
  rfl

/-- To append a column is a call. -/
theorem run_append : c.store.run (.append d.store) =
    after (c.append d) (fun c' _ => (.ok (), c'.store)) c.store := by
  rw [append, after_bind]
  refine after_congr fun _ htype => ?_
  have hkind : c.store.storage.kind = d.store.storage.kind :=
    congrArg ColumnType.kind (ColumnType.require_eq_ok_iff.mp htype)
  rw [Store.within, Storage.appendTo, after_ok (Storage.requireKind_eq_ok hkind)]
  rfl

/-- To append a chunk is a call. -/
theorem run_appendChunk : c.store.run (.append k.store) =
    after (c.appendChunk k) (fun c' _ => (.ok (), c'.store)) c.store := by
  have hcontents : (ofChunk k .array).contents = k :=
    congrArg (Chunk.mk k.type) (Cells.toList_ofList .array k.cells)
  have happend := run_append (c := c) (d := ofChunk k .array)
  rwa [append_eq_appendChunk, hcontents] at happend

/-- To append an array is a call. -/
theorem run_appendArray {a : EncodedArray} : c.store.run (.appendArray a) =
    after (c.appendArray a) (fun c' _ => (.ok (), c'.store)) c.store := by
  change after (a.cellsAs c.type >>= _) _ _ = after (a.cellsAs c.type >>= _) _ _
  rw [after_bind, after_bind]
  refine after_congr fun cells _ => ?_
  let added : Storage := ⟨c.type.kind, .ofList c.backing cells⟩
  have hkind : c.store.storage.kind = added.kind := rfl
  have hcells : added.cells.toList = cells := Cells.toList_ofList ..
  change Store.within added.appendTo c.store =
    (.ok (), { c with cells := c.cells.append cells }.store)
  rw [Store.within, Storage.appendTo, after_ok (Storage.requireKind_eq_ok hkind), hcells]
  rfl

end Column

namespace Chunk

variable {k other : Chunk} {n : Nat}

/-- To drop cells is a call. -/
theorem run_drop : k.store.run (.drop n) =
    after (k.drop n) (fun k' _ => (.ok (), k'.store)) k.store := by
  have hcells : (Cells.ofList .array k.cells).drop n = .ofList .array (k.cells.drop n) :=
    Cells.ext (by simp) (by simp)
  rw [drop, after_bind]
  exact after_congr fun _ _ =>
    congrArg (fun cells => (Except.ok (), Store.mk k.type ⟨k.type.kind, cells⟩)) hcells

/-- To append a chunk is a call. -/
theorem run_append : k.store.run (.append other.store) =
    after (k.append other) (fun k' _ => (.ok (), k'.store)) k.store := by
  have hcells : (Cells.ofList .array k.cells).append (Cells.ofList .array other.cells).toList =
      .ofList .array (k.cells ++ other.cells) :=
    Cells.ext (by simp) (by simp)
  rw [append, after_bind]
  refine after_congr fun _ htype => ?_
  have hkind : k.store.storage.kind = other.store.storage.kind :=
    congrArg ColumnType.kind (ColumnType.require_eq_ok_iff.mp htype)
  rw [Store.within, Storage.appendTo, after_ok (Storage.requireKind_eq_ok hkind)]
  exact congrArg (fun cells => (Except.ok (), Store.mk k.type ⟨k.type.kind, cells⟩)) hcells

end Chunk

end LiveTables
