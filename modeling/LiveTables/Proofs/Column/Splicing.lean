import LiveTables.Column.Splicing
import LiveTables.Proofs.Column.Kept

/-!
# Splices and what undoes them

To splice in place comes to what `Column.spliceOut` and `Column.spliceIn` say, although the store is
something else in between (`Column.spliceOut_store`, `Column.spliceIn_store`). A splice is undone by
putting back at its place what was there (`Column.Spliced.undo`), so removing and inserting undo one
another (`Column.splices_restore`), at the ends of a column and for no rows as well.
-/

namespace LiveTables

namespace Column

variable {c c' c'' : Column} {k : Chunk} {cells : List Cell} {i w n : Nat}

/-- The `w` rows from row `i` on, as a chunk. -/
def part (c : Column) (i w : Nat) : Chunk := ⟨c.type, (c.toList.drop i).take w⟩

/-! ## In place -/

theorem take_store : c.store.take n = store <$> c.take n := by
  rw [take, Store.take]
  change (requirePart n c.size >>= _) = _ <$> (requirePart n c.size >>= _)
  cases requirePart n c.size <;> rfl

theorem take_eq_error (h : c.size < n) : c.take n = .error (.indexOutOfRange n c.size) := by
  rw [take, requirePart, if_pos h]
  rfl

theorem drop_eq_error (h : c.size < n) : c.drop n = .error (.indexOutOfRange n c.size) := by
  rw [drop, requirePart, if_pos h]
  rfl

/-- To append a column of the same type is a call that succeeds. -/
theorem run_append_ok {d : Column} (h : c.type = d.type) :
    ∃ c', c.append d = .ok c' ∧ c.store.run (.append d.store) = (.ok (), c'.store) :=
  ⟨_, append_eq_ok h, by rw [run_append, append_eq_ok h]; rfl⟩

/-- What removing rows in place comes to. What fails has changed nothing. -/
theorem spliceOut_store : c.store.spliceOut i w =
    after (c.spliceOut i w) (fun c' _ => (.ok (), c'.store)) c.store := by
  rw [Store.spliceOut, take_store, spliceOut]
  rcases Nat.lt_or_ge c.size i with hi | hi
  · rw [take_eq_error hi]
    rfl
  · obtain ⟨head, hhead, htype⟩ : ∃ head, c.take i = .ok head ∧ head.type = c.type :=
      ⟨_, take_eq_ok hi, rfl⟩
    rw [hhead, ok_bind]
    change (c.store.run (.drop (Word.wrapAdd i w))).andThen _ = _
    rw [run_drop]
    rcases Nat.lt_or_ge c.size (Word.wrapAdd i w) with hw | hw
    · rw [drop_eq_error hw]
      rfl
    · obtain ⟨tail, htail, htype'⟩ : ∃ tail, c.drop (Word.wrapAdd i w) = .ok tail ∧
          tail.type = c.type := ⟨_, drop_eq_ok hw, rfl⟩
      obtain ⟨c', happend, hrun⟩ := run_append_ok (htype.trans htype'.symm)
      rw [htail, ok_bind, happend]
      exact hrun

/-- What inserting a piece of the right type in place comes to. What fails has changed nothing. -/
theorem spliceIn_store (hk : i ≤ c.size → k.type = c.type) :
    c.store.spliceIn i k.store =
      after (c.spliceIn i k) (fun c' _ => (.ok (), c'.store)) c.store := by
  rw [Store.spliceIn, take_store, spliceIn]
  rcases Nat.lt_or_ge c.size i with hi | hi
  · rw [take_eq_error hi]
    rfl
  · obtain ⟨head, hhead, htype⟩ : ∃ head, c.take i = .ok head ∧ head.type = c.type :=
      ⟨_, take_eq_ok hi, rfl⟩
    obtain ⟨tail, htail, htype'⟩ : ∃ tail, c.drop i = .ok tail ∧ tail.type = c.type :=
      ⟨_, drop_eq_ok hi, rfl⟩
    obtain ⟨front, hfront, htype''⟩ : ∃ front, head.appendChunk k = .ok front ∧
        front.type = c.type := ⟨_, appendChunk_eq_ok (htype.trans (hk hi).symm), htype⟩
    obtain ⟨c', happend, hrun⟩ := run_append_ok (htype''.trans htype'.symm)
    rw [hhead, ok_bind, htail, ok_bind, hfront, ok_bind, happend]
    change (c.store.run (.drop i)).andThen (fun tail =>
      (head.store.run (.append k.store)).andThen (·.run (.append tail))) = _
    rw [run_drop, htail, run_appendChunk, hfront]
    exact hrun

/-! ## Undoing a splice -/

namespace Spliced

theorem take_toList (h : c.Spliced i w cells c') : c'.toList.take i = c.toList.take i := by
  rw [h.toList, List.take_left' h.length_take]

/-- A column is restored by putting back at its place what was there. -/
theorem undo (h : c.Spliced i w cells c')
    (h' : c'.Spliced i cells.length (c.part i w).cells c'') : c'' = c := by
  have hrear : (c.toList.drop i).drop w = c.toList.drop (i + w) := List.drop_drop
  refine ext_toList (h'.type.trans h.type) (h'.backing.trans h.backing) ?_
  rw [h'.toList, h.take_toList, ← h.after, part, ← hrear, List.take_append_drop,
    List.take_append_drop]

end Spliced

/-- What is removed can be inserted again. -/
theorem spliceOut_undone (h : i + w ≤ c.size) (hword : i + w ≤ maxKey) :
    ∃ c', c.spliceOut i w = .ok c' ∧ c.Spliced i w [] c' ∧
      c'.spliceIn i (c.part i w) = .ok c := by
  obtain ⟨c', hout, hspliced⟩ := spliceOut_spec h hword
  have hsize := hspliced.size
  have hbound : i ≤ c'.size := by
    rw [List.length_nil] at hsize
    omega
  obtain ⟨c'', hin, hspliced'⟩ := spliceIn_spec (k := c.part i w) hbound hspliced.type.symm
  exact ⟨c', hout, hspliced, hspliced.undo hspliced' ▸ hin⟩

/-- What is inserted can be removed again. -/
theorem spliceIn_undone (h : i ≤ c.size) (hk : k.type = c.type) : ∃ c', c.spliceIn i k = .ok c' ∧
    c.Spliced i 0 k.cells c' ∧ (c'.size ≤ maxKey → c'.spliceOut i k.size = .ok c) := by
  obtain ⟨c', hin, hspliced⟩ := spliceIn_spec h hk
  refine ⟨c', hin, hspliced, fun hmax => ?_⟩
  have hsize := hspliced.size
  have hbound : i + k.size ≤ c'.size := by
    rw [Chunk.size]
    omega
  obtain ⟨c'', hout, hspliced'⟩ := spliceOut_spec hbound (hbound.trans hmax)
  exact hspliced.undo hspliced' ▸ hout

/-! ## Splices that fail, and one that should -/

theorem spliceOut_eq_error (h : c.size < i) :
    c.spliceOut i w = .error (.indexOutOfRange i c.size) := by
  rw [spliceOut, take_eq_error h]
  rfl

theorem spliceOut_eq_error_of_width (hi : i ≤ c.size) (h : c.size < i + w)
    (hword : i + w ≤ maxKey) : c.spliceOut i w = .error (.indexOutOfRange (i + w) c.size) := by
  rw [spliceOut, take_eq_ok hi, ok_bind, Word.wrapAdd_eq hword, drop_eq_error h]
  rfl

theorem spliceIn_eq_error (h : c.size < i) :
    c.spliceIn i k = .error (.indexOutOfRange i c.size) := by
  rw [spliceIn, take_eq_error h]
  rfl

/-- Rows are not counted past the greatest machine word. Where the sum of a row and a width is past
it, what is left of the sum is a row before that row, and the rear part starts there. -/
theorem spliceOut_wrapped (hi : i ≤ c.size) (himax : i ≤ maxKey) (hwmax : w ≤ maxKey)
    (hword : maxKey < i + w) : ∃ c', c.spliceOut i w = .ok c' ∧
      c'.toList = c.toList.take i ++ c.toList.drop (i + w - (maxKey + 1)) ∧
      c'.type = c.type ∧ c'.backing = c.backing ∧ c.size < c'.size := by
  have hsum := Word.wrapAdd_of_lt himax hwmax hword
  have hrear : Word.wrapAdd i w = i + w - (maxKey + 1) := by omega
  have hbound : i + w - (maxKey + 1) ≤ c.size := by omega
  obtain ⟨c', hout, hrows, htype, hbacking⟩ : ∃ c', c.spliceOut i w = .ok c' ∧
      c'.toList = c.toList.take i ++ c.toList.drop (i + w - (maxKey + 1)) ∧
      c'.type = c.type ∧ c'.backing = c.backing := by
    rw [spliceOut, take_eq_ok hi, ok_bind, hrear, drop_eq_ok hbound, ok_bind,
      append_eq_ok (by rfl)]
    exact ⟨_, rfl, by simp [toList], rfl, by simp [backing]⟩
  refine ⟨c', hout, hrows, htype, hbacking, ?_⟩
  rw [← length_toList (c := c'), hrows, List.length_append, List.length_take, List.length_drop,
    length_toList]
  omega

/-- Rows can be removed wherever there are rows, and a chunk of the right type can be inserted in
front of each row and at the end. What is removed can be inserted again and what is inserted can be
removed again, and this restores the column. A call for a row that there is not fails and changes
nothing, as does one for too many rows, as long as their end is a machine word. Where it is not,
rows are there twice afterwards. In place all of this comes to the same. -/
theorem splices_restore (c : Column) (i : Nat) :
    (∀ w, c.store.spliceOut i w =
      after (c.spliceOut i w) (fun c' _ => (.ok (), c'.store)) c.store) ∧
    (∀ w, i + w ≤ c.size → i + w ≤ maxKey → ∃ c', c.spliceOut i w = .ok c' ∧
      c.store.spliceOut i w = (.ok (), c'.store) ∧
      c'.toList = c.toList.take i ++ c.toList.drop (i + w) ∧
      c'.type = c.type ∧ c'.backing = c.backing ∧
      c'.spliceIn i (c.part i w) = .ok c ∧
      c'.store.spliceIn i (c.part i w).store = (.ok (), c.store)) ∧
    (∀ piece : Chunk, i ≤ c.size → piece.type = c.type → ∃ c', c.spliceIn i piece = .ok c' ∧
      c.store.spliceIn i piece.store = (.ok (), c'.store) ∧
      c'.toList = c.toList.take i ++ (piece.cells ++ c.toList.drop i) ∧
      c'.type = c.type ∧ c'.backing = c.backing ∧
      (c'.size ≤ maxKey → c'.spliceOut i piece.size = .ok c ∧
        c'.store.spliceOut i piece.size = (.ok (), c.store))) ∧
    (∀ w, i ≤ c.size → c.size < i + w → i + w ≤ maxKey →
      c.spliceOut i w = .error (.indexOutOfRange (i + w) c.size) ∧
      c.store.spliceOut i w = (.error (.indexOutOfRange (i + w) c.size), c.store)) ∧
    (∀ w ≤ maxKey, i ≤ c.size → i ≤ maxKey → maxKey < i + w → ∃ c', c.spliceOut i w = .ok c' ∧
      c.store.spliceOut i w = (.ok (), c'.store) ∧
      c'.toList = c.toList.take i ++ c.toList.drop (i + w - (maxKey + 1)) ∧
      c'.type = c.type ∧ c'.backing = c.backing ∧ c.size < c'.size) ∧
    (c.size < i →
      (∀ w, c.spliceOut i w = .error (.indexOutOfRange i c.size) ∧
        c.store.spliceOut i w = (.error (.indexOutOfRange i c.size), c.store)) ∧
      ∀ piece : Chunk, c.spliceIn i piece = .error (.indexOutOfRange i c.size) ∧
        c.store.spliceIn i piece.store = (.error (.indexOutOfRange i c.size), c.store)) := by
  refine ⟨fun w => spliceOut_store, fun w h hword => ?_, fun piece h hk => ?_,
    fun w hi hw hword => ?_, fun w hwmax hi himax hword => ?_,
    fun hi => ⟨fun w => ⟨spliceOut_eq_error hi, ?_⟩, fun piece => ⟨spliceIn_eq_error hi, ?_⟩⟩⟩
  · obtain ⟨c', hout, hspliced, hin⟩ := spliceOut_undone h hword
    refine ⟨c', hout, ?_, hspliced.toList, hspliced.type, hspliced.backing, hin, ?_⟩
    · rw [spliceOut_store, hout]
      rfl
    · rw [spliceIn_store fun _ => hspliced.type.symm, hin]
      rfl
  · obtain ⟨c', hin, hspliced, hout⟩ := spliceIn_undone h hk
    refine ⟨c', hin, ?_, hspliced.toList, hspliced.type, hspliced.backing,
      fun hmax => ⟨hout hmax, ?_⟩⟩
    · rw [spliceIn_store fun _ => hk, hin]
      rfl
    · rw [spliceOut_store, hout hmax]
      rfl
  · have herror := spliceOut_eq_error_of_width hi hw hword
    refine ⟨herror, ?_⟩
    rw [spliceOut_store, herror]
    rfl
  · obtain ⟨c', hout, hrows⟩ := spliceOut_wrapped hi himax hwmax hword
    refine ⟨c', hout, ?_, hrows⟩
    rw [spliceOut_store, hout]
    rfl
  · rw [spliceOut_store, spliceOut_eq_error hi]
    rfl
  · rw [spliceIn_store fun h => absurd hi (Nat.not_lt.mpr h), spliceIn_eq_error hi]
    rfl

/-- Of five rows in a persistent column two are removed and inserted again. -/
theorem splices_restore_of_middle : ∃ c c' : Column,
    c.toList = [.int 10, .int 11, .int 12, .int 13, .int 14] ∧ c.backing = .persistent ∧
    c.store.spliceOut 1 2 = (.ok (), c'.store) ∧
    c'.toList = [.int 10, .int 13, .int 14] ∧
    c'.store.spliceIn 1 (c.part 1 2).store = (.ok (), c.store) := by
  let c : Column := ⟨.int64, .ofList .persistent [.int 10, .int 11, .int 12, .int 13, .int 14]⟩
  have hcells : c.toList = [.int 10, .int 11, .int 12, .int 13, .int 14] :=
    Cells.toList_ofList .persistent _
  have hsize : c.size = 5 := by rw [← length_toList, hcells]; rfl
  obtain ⟨c', -, hout, hrows, -, -, -, hin⟩ :=
    (splices_restore c 1).2.1 2 (by rw [hsize]; decide) (by decide)
  exact ⟨c, c', hcells, rfl, hout, by rw [hrows, hcells]; rfl, hin⟩

/-- Of five rows more are removed than machine words can count, and seven are left. -/
theorem exists_spliceOut_wrapped : ∃ c c' : Column,
    c.toList = [.int 0, .int 1, .int 2, .int 3, .int 4] ∧
    c.size < 3 + 0xFFFFFFFFFFFFFFFE ∧ 0xFFFFFFFFFFFFFFFE ≤ maxKey ∧
    c.spliceOut 3 0xFFFFFFFFFFFFFFFE = .ok c' ∧
    c.store.spliceOut 3 0xFFFFFFFFFFFFFFFE = (.ok (), c'.store) ∧
    c'.toList = [.int 0, .int 1, .int 2, .int 1, .int 2, .int 3, .int 4] := by
  let c : Column := ⟨.int64, .ofList .array [.int 0, .int 1, .int 2, .int 3, .int 4]⟩
  exact ⟨c, _, rfl, by decide, by decide, rfl, rfl, rfl⟩

end Column

end LiveTables
