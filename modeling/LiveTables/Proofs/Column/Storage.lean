import LiveTables.Column.Storage
import LiveTables.Proofs.Column.Overlay
import LiveTables.Proofs.Column.RowByRow
import LiveTables.Proofs.Column.Backing

/-!
# Calls that fail change nothing

A call on a store checks what it is asked for, and works only then. But a step of the work can fail
as well: for a row out of range, or for a kind of cells that the storage does not take. Such a
failure would leave what was done before it. None ever happens. The checks made first cover all rows
that are looked up later, and stores of one type have storages of one kind, since in all stores that
can be made the kind is that of the type (`Store.Made.sound`). So a call that fails has failed in
its checks, and leaves the store as it was (`Store.Made.eq_of_run_error`).

Lists are the case where the kind alone would not do: all of them are of one kind, so only the
comparison of the types keeps lists of different items apart.
-/

namespace LiveTables

/-! ## Work in place -/

section Work

variable {σ α : Type} {s : σ} {w : Worked σ} {check : Except Error α}

/-- Work on `s` that has changed nothing, if it has failed. -/
def Worked.Atomic (w : Worked σ) (s : σ) : Prop := ∀ e, w.1 = .error e → w.2 = s

/-- Work that succeeds cannot break off. -/
theorem Worked.Atomic.of_ok (h : w.1 = .ok ()) : w.Atomic s := fun e he => by
  rw [h] at he
  cases he

/-- A check that fails leaves everything as it was. So what counts is the work after it. -/
theorem Worked.Atomic.after {work : α → σ → Worked σ}
    (h : ∀ found, check = .ok found → (work found s).Atomic s) : (after check work s).Atomic s := by
  cases check with
  | ok found => exact h found rfl
  | error e => exact fun _ _ => rfl

/-- What work keeps is kept if there is a check before it. -/
theorem keeps_after {P : σ → Prop} {work : α → σ → Worked σ} (hs : P s)
    (h : ∀ found, P (work found s).2) : P (after check work s).2 := by
  cases check with
  | ok found => exact h found
  | error e => exact hs

/-- What each part of work keeps is kept by the whole. -/
theorem Worked.keeps_andThen {P : σ → Prop} {work : σ → Worked σ} (hw : P w.2)
    (h : ∀ s, P s → P (work s).2) : P (w.andThen work).2 := by
  obtain ⟨outcome, s⟩ := w
  cases outcome with
  | ok _ => exact h s hw
  | error e => exact hw

theorem after_ok {found : α} {work : α → σ → Worked σ} (h : check = .ok found) :
    after check work s = work found s := by
  rw [h, after]

theorem Worked.andThen_ok {work : σ → Worked σ} (h : w.1 = .ok ()) : w.andThen work = work w.2 := by
  obtain ⟨outcome, s⟩ := w
  obtain rfl : outcome = .ok () := h
  rfl

end Work

/-! ## Storages -/

namespace Storage

variable {src d : Storage} {rs : List Run} {rows : List Nat} {limit low size i : Nat} {k : CellKind}

/-! ### The kind stays -/

theorem kind_after {α : Type} {check : Except Error α} {work : α → Storage → Worked Storage}
    (h : d.kind = k) (hwork : ∀ found, (work found d).2.kind = k) :
    (after check work d).2.kind = k :=
  keeps_after (P := fun d : Storage => d.kind = k) h hwork

theorem kind_appendTo (h : d.kind = k) : (src.appendTo d).2.kind = k := kind_after h fun _ => h

theorem kind_copyRun {r : Run} (h : d.kind = k) : (src.copyRun r i d).2.kind = k :=
  kind_after h fun _ => h

theorem kind_copyRun_andThen {r : Run} {work : Storage → Worked Storage} (h : d.kind = k)
    (hwork : ∀ d, d.kind = k → (work d).2.kind = k) :
    ((src.copyRun r i d).andThen work).2.kind = k :=
  Worked.keeps_andThen (P := fun d : Storage => d.kind = k) (kind_copyRun h) hwork

theorem kind_gatherRuns (h : d.kind = k) : (src.gatherRuns rs i d).2.kind = k := by
  induction rs generalizing i d with
  | nil => exact h
  | cons r rs ih => exact kind_after h fun _ => kind_copyRun_andThen h fun _ hd => ih hd

theorem kind_gatherRows (h : d.kind = k) : (src.gatherRows rows i d).2.kind = k := by
  induction rows generalizing i d with
  | nil => exact h
  | cons row rows ih => exact kind_copyRun_andThen h fun _ hd => ih hd

theorem kind_scatterRuns (h : d.kind = k) : (src.scatterRuns size rs i d).2.kind = k := by
  induction rs generalizing i d with
  | nil => exact h
  | cons r rs ih => exact kind_after h fun _ => kind_copyRun_andThen h fun _ hd => ih hd

theorem kind_scatterRows (h : d.kind = k) : (src.scatterRows size rows i d).2.kind = k := by
  induction rows generalizing i d with
  | nil => exact h
  | cons row rows ih => exact kind_after h fun _ => kind_copyRun_andThen h fun _ hd => ih hd

theorem kind_gather {set : KeySet} (h : d.kind = k) : (src.gather set d).2.kind = k :=
  kind_after h fun _ => kind_gatherRuns h

theorem kind_gatherEach (h : d.kind = k) : (src.gatherEach rows d).2.kind = k :=
  kind_after h fun _ => kind_gatherRows h

theorem kind_scatter {set : KeySet} (h : d.kind = k) : (src.scatter set d).2.kind = k :=
  kind_after h fun
    | some _ => kind_scatterRuns h
    | none => h

theorem kind_scatterEach (h : d.kind = k) : (src.scatterEach rows d).2.kind = k :=
  kind_after h fun
    | some _ => kind_scatterRows h
    | none => h

/-! ### After the checks nothing fails -/

theorem requireKind_eq_ok (h : d.kind = src.kind) : d.requireKind src = .ok () := if_pos h

theorem appendTo_ok (h : d.kind = src.kind) : (src.appendTo d).1 = .ok () := by
  rw [appendTo, after_ok (requireKind_eq_ok h)]

theorem copyRun_ok {r : Run} (h : d.kind = src.kind) : (src.copyRun r i d).1 = .ok () := by
  rw [copyRun, after_ok (requireKind_eq_ok h)]

theorem gatherRuns_ok (hkind : d.kind = src.kind) (hrs : Spaced limit low rs)
    (hrows : ∀ row ∈ Runs.toList rs, row < src.size) : (src.gatherRuns rs i d).1 = .ok () := by
  induction rs generalizing low i d with
  | nil => rfl
  | cons r rs ih =>
    have hstop : r.stop ≤ src.size := hrs.stop_le_of_keys hrows
    obtain ⟨-, hpos, -, hrest⟩ := hrs
    rw [gatherRuns, after_ok ((Column.requireRun_eq_ok_iff hpos).mpr hstop),
      Worked.andThen_ok (copyRun_ok hkind)]
    exact ih (kind_copyRun hkind) hrest fun row hrow => hrows row (List.mem_append_right _ hrow)

theorem gatherRows_ok (hkind : d.kind = src.kind) : (src.gatherRows rows i d).1 = .ok () := by
  induction rows generalizing i d with
  | nil => rfl
  | cons row rows ih =>
    rw [gatherRows, copyRow, Worked.andThen_ok (copyRun_ok hkind)]
    exact ih (kind_copyRun hkind)

theorem scatterRuns_ok (hkind : d.kind = src.kind) (hrs : Spaced limit low rs)
    (hrows : ∀ row ∈ Runs.toList rs, row < size) : (src.scatterRuns size rs i d).1 = .ok () := by
  induction rs generalizing low i d with
  | nil => rfl
  | cons r rs ih =>
    have hstop : r.stop ≤ size := hrs.stop_le_of_keys hrows
    obtain ⟨-, hpos, -, hrest⟩ := hrs
    rw [scatterRuns, after_ok ((Column.requireRun_eq_ok_iff hpos).mpr hstop),
      Worked.andThen_ok (copyRun_ok hkind)]
    exact ih (kind_copyRun hkind) hrest fun row hrow => hrows row (List.mem_append_right _ hrow)

theorem scatterRows_ok (hkind : d.kind = src.kind) (hrows : ∀ row ∈ rows, row < size) :
    (src.scatterRows size rows i d).1 = .ok () := by
  induction rows generalizing i d with
  | nil => rfl
  | cons row rows ih =>
    obtain ⟨hrow, hrows⟩ := List.forall_mem_cons.mp hrows
    rw [scatterRows, after_ok (Column.requireRow_eq_ok_iff.mpr hrow), copyRow,
      Worked.andThen_ok (copyRun_ok hkind)]
    exact ih (kind_copyRun hkind) hrows

/-! ### Whole copies -/

/-- What has to be addressable is the greatest row, and the size is one more. -/
theorem mapM_sizeFor_eq_ok {greatest needed : Option Nat}
    (h : greatest.mapM sizeFor = .ok needed) : needed = greatest.map (· + 1) := by
  cases greatest with
  | none => exact (pure_eq_ok.mp h).symm
  | some row =>
    simp only [Option.mapM_some, sizeFor, bind_eq_ok, pure_eq_ok, map_eq_pure_bind] at h
    obtain ⟨_, ⟨-, -, rfl⟩, rfl⟩ := h
    rfl

theorem gather_atomic {set : KeySet} (hkind : d.kind = src.kind) :
    (src.gather set d).Atomic d :=
  .after fun _ hcheck => .of_ok <| by
    obtain ⟨-, -, hset⟩ := bind_eq_ok.mp hcheck
    exact gatherRuns_ok hkind set.spaced (Column.requireSet_eq_ok_iff.mp hset)

theorem gatherEach_atomic (hkind : d.kind = src.kind) : (src.gatherEach rows d).Atomic d :=
  .after fun _ _ => .of_ok (gatherRows_ok hkind)

theorem scatter_atomic {set : KeySet} (hkind : d.kind = src.kind) :
    (src.scatter set d).Atomic d :=
  .after fun needed hcheck => by
    obtain ⟨-, -, hneeded⟩ := bind_eq_ok.mp hcheck
    obtain rfl := mapM_sizeFor_eq_ok hneeded
    cases hlast : set.last? with
    | none => exact .of_ok rfl
    | some last =>
      refine .of_ok (scatterRuns_ok hkind set.spaced fun row hrow => ?_)
      exact Nat.lt_of_lt_of_eq (KeySet.lt_reach hrow) (KeySet.reach_eq hlast)

theorem scatterEach_atomic (hkind : d.kind = src.kind) : (src.scatterEach rows d).Atomic d :=
  .after fun needed hcheck => by
    obtain ⟨-, -, hneeded⟩ := bind_eq_ok.mp hcheck
    obtain rfl := mapM_sizeFor_eq_ok hneeded
    cases hmax : rows.max? with
    | none => exact .of_ok rfl
    | some greatest =>
      refine .of_ok (scatterRows_ok hkind fun row hrow => ?_)
      exact Nat.lt_succ_of_le ((List.max?_eq_some_iff.mp hmax).2 row hrow)

end Storage

/-! ## Stores -/

namespace Store

variable {s t : Store} {call : StoreCall} {work : Storage → Worked Storage}

theorem within_atomic (h : (work s.storage).Atomic s.storage) : (within work s).Atomic s := by
  intro e he
  have hstorage : (work s.storage).2 = s.storage := h e he
  rw [within, Prod.map, hstorage, id]

/-- The kind of a store is that of its type. -/
def Sound (s : Store) : Prop := s.storage.kind = s.type.kind

theorem sound_ofArrayAs {type : ColumnType} {a : EncodedArray} {b : Backing}
    (h : ofArrayAs type a b = .ok s) : s.type = type ∧ s.Sound := by
  obtain ⟨cells, -, hs⟩ := bind_eq_ok.mp h
  obtain rfl := pure_eq_ok.mp hs
  exact ⟨rfl, rfl⟩

/-- Stores of one type are of one kind. -/
theorem Sound.kind_eq (hs : s.Sound) (ht : t.Sound) (h : s.type.require t.type = .ok ()) :
    s.storage.kind = t.storage.kind := by
  rw [hs, ht, ColumnType.require_eq_ok_iff.mp h]

theorem Sound.within (hs : s.Sound) (h : (work s.storage).2.kind = s.storage.kind) :
    (within work s).2.Sound := h.trans hs

/-- A call that succeeds or fails leaves the kind as it is, and never changes the type. -/
theorem Sound.run (hs : s.Sound) : (s.run call).2.Sound := by
  cases call with
  | drop n => exact keeps_after hs fun _ => hs.within rfl
  | append other => exact keeps_after hs fun _ => hs.within (Storage.kind_appendTo rfl)
  | appendArray a => exact keeps_after hs fun _ => hs.within (Storage.kind_appendTo rfl)
  | gather src rows => exact keeps_after hs fun _ => hs.within (Storage.kind_gather rfl)
  | gatherEach src rows => exact keeps_after hs fun _ => hs.within (Storage.kind_gatherEach rfl)
  | scatter src rows => exact keeps_after hs fun _ => hs.within (Storage.kind_scatter rfl)
  | scatterEach src rows => exact keeps_after hs fun _ => hs.within (Storage.kind_scatterEach rfl)

/-- In every store that can be made the kind is that of the type. -/
theorem Made.sound (h : s.Made) : s.Sound := by
  induction h with
  | nulls type b n => rfl
  | ofArrayAs h => exact (sound_ofArrayAs h).2
  | ofArray h =>
    obtain ⟨type, -, h⟩ := bind_eq_ok.mp h
    exact (sound_ofArrayAs h).2
  | move _ b ih => exact ih
  | take _ ht ih =>
    obtain ⟨-, -, ht⟩ := bind_eq_ok.mp ht
    obtain rfl := pure_eq_ok.mp ht
    exact ih
  | run _ call _ ih => exact ih.run

/-- A call that fails changes nothing, if the kind of each store is that of its type. -/
theorem Sound.run_atomic (hs : s.Sound) (hothers : ∀ t ∈ call.others, t.Sound) :
    (s.run call).Atomic s := by
  cases call with
  | drop n => exact .after fun _ _ => within_atomic (.of_ok rfl)
  | append other =>
    exact .after fun _ htype =>
      within_atomic (.of_ok (Storage.appendTo_ok (hs.kind_eq (hothers other (.head _)) htype)))
  | appendArray a =>
    refine .after fun t ht => within_atomic (.of_ok (Storage.appendTo_ok ?_))
    obtain ⟨htype, hsound⟩ := sound_ofArrayAs ht
    rw [hs, hsound, htype]
  | gather src rows =>
    exact .after fun _ htype =>
      within_atomic (Storage.gather_atomic ((hothers src (.head _)).kind_eq hs htype).symm)
  | gatherEach src rows =>
    exact .after fun _ htype =>
      within_atomic (Storage.gatherEach_atomic ((hothers src (.head _)).kind_eq hs htype).symm)
  | scatter src rows =>
    exact .after fun _ htype =>
      within_atomic (Storage.scatter_atomic (hs.kind_eq (hothers src (.head _)) htype))
  | scatterEach src rows =>
    exact .after fun _ htype =>
      within_atomic (Storage.scatterEach_atomic (hs.kind_eq (hothers src (.head _)) htype))

/-- A call on a store that fails leaves the store as it was, with its type, its backing and all its
cells: nothing is written in part, and no null is added. -/
theorem Made.eq_of_run_error {e : Error} (hs : s.Made) (hothers : ∀ t ∈ call.others, t.Made)
    (he : (s.run call).1 = .error e) : (s.run call).2 = s :=
  hs.sound.run_atomic (fun t ht => (hothers t ht).sound) e he

/-- A list of rows of which one cannot be addressed is refused as a whole. Row 2, which could be
written after growing, is not written either. -/
theorem Made.eq_of_run_error_unaddressable : ∃ s t : Store, s.Made ∧ t.Made ∧
    s.storage.cells.toList = [.int 7, .null] ∧ t.storage.cells.toList = [.int 8, .int 9] ∧
    (s.run (.scatterEach t [2, maxKey])).1 = .error (.invalidArgument (.unaddressableRow maxKey)) ∧
    (s.run (.scatterEach t [2, maxKey])).2 = s := by
  let a : EncodedArray := .ofCells .int64 [.int 7, .null] (by decide) rfl
  let b : EncodedArray := .ofCells .int64 [.int 8, .int 9] (by decide) rfl
  have hs : Made ⟨.int64, .int64, .persistent a.cells⟩ :=
    .ofArray (a := a) (b := .persistent) rfl
  have ht : Made ⟨.int64, .int64, .array b.cells.toArray⟩ := .ofArray (a := b) (b := .array) rfl
  exact ⟨_, _, hs, ht, rfl, rfl, rfl, hs.eq_of_run_error (by simpa [StoreCall.others] using ht) rfl⟩

/-- The kind counts: a store declared to hold numbers, with a storage for text, would grow for a
number and then refuse it. -/
example :
    let s : Store := ⟨.int64, .utf8, .persistent []⟩
    let t : Store := ⟨.int64, .int64, .array #[.int 8]⟩
    s.run (.scatterEach t [1]) =
      (.error (.typeMismatch "Utf8" "Int64"), ⟨.int64, .utf8, .persistent [.null, .null]⟩) := rfl

end Store

end LiveTables
