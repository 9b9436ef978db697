import LiveTables.Keys.Cursor
import LiveTables.Proofs.Keys.Space
import Mathlib.Data.List.ReduceOption

/-!
# A walk is a queue with two ends

A walk over a key set answers as a queue does that holds the keys of the set in ascending order and
is served at both ends (`KeySet.run_cursor`). The queue is not kept anywhere: it is what lies between
the two places of the walk. `Place.Opens` and `Place.Closes` count the keys before a place, and a
walk goes on as long as the count at the back is ahead of the count at the front (`Cursor.Between`).

The counts also say that no step reads a run that does not exist. At the front, a run with no key
behind it is the last one, and then the walk ends. At the back, a run with a key in front of it is
not the first one.
-/

namespace LiveTables

/-! ## Places -/

namespace Runs

variable {rs : List Run} {r : Run} {i : Nat}

theorem size_take_add_one (hr : rs[i]? = some r) :
    size (List.take (i + 1) rs) = size (List.take i rs) + r.width := by
  rw [List.take_add_one, hr, size_append]
  rfl

/-- A key of a run comes after the keys of the runs before it. -/
theorem getElem?_toList (hr : rs[i]? = some r) {j : Nat} (hj : j < r.width) :
    (toList rs)[size (List.take i rs) + j]? = some (r.start + j) := by
  obtain ⟨hi, rfl⟩ := List.getElem?_eq_some_iff.mp hr
  have hsplit : toList rs =
      toList (List.take i rs) ++ (rs[i].keys ++ toList (List.drop (i + 1) rs)) := by
    rw [← toList_cons, ← toList_append, ← List.drop_eq_getElem_cons hi, List.take_append_drop]
  rw [hsplit, List.getElem?_append_right (by rw [length_toList]; omega), length_toList,
    Nat.add_sub_cancel_left, List.getElem?_append_left (by rwa [Run.length_keys]), Run.keys,
    List.getElem?_range' hj, Nat.one_mul]

end Runs

namespace Place

/-- A place at a key of the run `r`, with `n` keys before it. -/
structure Opens (rs : List Run) (r : Run) (n : Nat) (p : Place) : Prop where
  run : rs[p.run]? = some r
  start_le : r.start ≤ p.key
  lt_stop : p.key < r.stop
  before : Runs.size (List.take p.run rs) + (p.key - r.start) = n

/-- A place that follows a key of the run `r`, with `n` keys before it. -/
structure Closes (rs : List Run) (r : Run) (n : Nat) (p : Place) : Prop where
  run : rs[p.run]? = some r
  start_lt : r.start < p.key
  le_stop : p.key ≤ r.stop
  before : Runs.size (List.take p.run rs) + (p.key - r.start) = n

variable {rs : List Run} {r : Run} {n : Nat} {p : Place}

theorem Opens.getElem? (h : p.Opens rs r n) : (Runs.toList rs)[n]? = some p.key := by
  obtain ⟨hrun, hstart, hstop, rfl⟩ := h
  have hkey : r.start + (p.key - r.start) = p.key := by omega
  rw [Runs.getElem?_toList hrun (by rw [Run.width]; omega), hkey]

theorem Closes.getElem? (h : p.Closes rs r (n + 1)) : (Runs.toList rs)[n]? = some (p.key - 1) := by
  obtain ⟨hrun, hstart, hstop, hbefore⟩ := h
  have hkey : r.start + (p.key - 1 - r.start) = p.key - 1 := by omega
  have hn : n = Runs.size (List.take p.run rs) + (p.key - 1 - r.start) := by omega
  rw [hn, Runs.getElem?_toList hrun (by rw [Run.width]; omega), hkey]

/-- As long as there are more keys, the next place is at one. -/
theorem Opens.next (h : p.Opens rs r n) (hpos : ∀ r ∈ rs, r.start < r.stop)
    (hmore : n + 1 < Runs.size rs) : ∃ s, (p.next rs r).Opens rs s (n + 1) := by
  obtain ⟨hrun, hstart, hstop, hbefore⟩ := h
  rw [Place.next]
  split
  · rename_i hlast
    have hsize : Runs.size (List.take (p.run + 1) rs) = n + 1 := by
      rw [Runs.size_take_add_one hrun, Run.width]
      omega
    cases hs : rs[p.run + 1]? with
    | none =>
      -- without a further run all keys are before the place
      rw [List.take_of_length_le (List.getElem?_eq_none_iff.mp hs)] at hsize
      omega
    | some s =>
      refine ⟨s, hs, Nat.le_refl _, hpos s (List.mem_of_getElem? hs), ?_⟩
      rw [Option.elim_some, Nat.sub_self, hsize, Nat.add_zero]
  · refine ⟨r, hrun, ?_, ?_, ?_⟩
    all_goals
      simp only
      omega

/-- A place at the back can go one key back. It is behind a key again if there is one before it. -/
theorem Closes.prev (h : p.Closes rs r (n + 1)) (hpos : ∀ r ∈ rs, r.start < r.stop) :
    ∃ q, p.prev rs r = some q ∧ (0 < n → ∃ s, q.Closes rs s n) := by
  obtain ⟨hrun, hstart, hstop, hbefore⟩ := h
  have hlength : p.run < rs.length := (List.getElem?_eq_some_iff.mp hrun).1
  rw [Place.prev]
  split
  · rename_i hfirst
    have hsize : Runs.size (List.take p.run rs) = n := by omega
    split
    · rename_i hzero
      obtain ⟨l, hl⟩ : ∃ l, rs[p.run - 1]? = some l := ⟨_, List.getElem?_eq_getElem (by omega)⟩
      have hwidth := Runs.size_take_add_one hl
      rw [Nat.sub_add_cancel hzero, hsize] at hwidth
      rw [hl]
      exact ⟨_, rfl, fun _ => ⟨l, hl, hpos l (List.mem_of_getElem? hl), Nat.le_refl _, hwidth.symm⟩⟩
    · rename_i hzero
      rw [Nat.eq_zero_of_not_pos hzero, List.take_zero] at hsize
      exact ⟨p, rfl, fun hn => absurd hsize (Nat.ne_of_lt hn)⟩
  · refine ⟨_, rfl, fun _ => ⟨r, hrun, ?_, ?_, ?_⟩⟩
    all_goals
      simp only
      omega

end Place

/-! ## Queues -/

namespace Cursor

/-- What a queue answers to a call, and what is left of it. -/
def Call.serve (q : List Nat) : Call → Option Nat × List Nat
  | .next => (q.head?, q.tail)
  | .nextBack => (q.getLast?, q.dropLast)
  | .nth n => (q[n]?, q.drop (n + 1))

/-- The keys that a call takes off a queue without answering with them. -/
def Call.skipped (q : List Nat) : Call → List Nat
  | .next | .nextBack => []
  | .nth n => q.take n

/-- What a queue answers to one call after another, and what is left of it. -/
def serveAll (q : List Nat) : List Call → List (Option Nat) × List Nat
  | [] => ([], q)
  | a :: as => ((a.serve q).1 :: (serveAll (a.serve q).2 as).1, (serveAll (a.serve q).2 as).2)

/-- The keys that one call after another takes off a queue without answering with them. -/
def skippedAll (q : List Nat) : List Call → List Nat
  | [] => []
  | a :: as => a.skipped q ++ skippedAll (a.serve q).2 as

/-- A queue gives, skips or keeps each of its keys, and does just one of these. -/
theorem Call.serve_perm (q : List Nat) (a : Call) :
    ((a.serve q).1.toList ++ a.skipped q ++ (a.serve q).2).Perm q := by
  cases a with
  | next =>
    cases q with
    | nil => exact .nil
    | cons k q => exact .refl _
  | nextBack =>
    rcases q.eq_nil_or_concat with rfl | ⟨q, k, rfl⟩
    · exact .nil
    · simpa [serve, skipped] using (List.perm_append_singleton k q).symm
  | nth n =>
    have hq : q.take n ++ (q[n]?.toList ++ q.drop (n + 1)) = q := by
      rw [← List.drop_eq_getElem?_toList_append, List.take_append_drop]
    calc q[n]?.toList ++ q.take n ++ q.drop (n + 1)
      _ |>.Perm (q.take n ++ q[n]?.toList ++ q.drop (n + 1)) := List.perm_append_comm.append_right _
      _ = q := by rw [List.append_assoc, hq]

/-- A queue gives, skips or keeps each of its keys, however often it is called. -/
theorem serveAll_perm (q : List Nat) (as : List Call) :
    ((serveAll q as).1.reduceOption ++ skippedAll q as ++ (serveAll q as).2).Perm q := by
  induction as generalizing q with
  | nil => exact .refl q
  | cons a as ih =>
    rw [List.perm_iff_count]
    intro k
    have hfirst := (a.serve_perm q).count_eq k
    have hrest := (ih (a.serve q).2).count_eq k
    have hanswers : (serveAll q (a :: as)).1.reduceOption =
        (a.serve q).1.toList ++ (serveAll (a.serve q).2 as).1.reduceOption := by
      rw [serveAll]
      cases (a.serve q).1 with
      | none => exact List.reduceOption_cons_of_none _
      | some k => exact List.reduceOption_cons_of_some k _
    rw [hanswers, skippedAll, serveAll]
    simp only [List.count_append] at hfirst hrest ⊢
    omega

/-- Calls on one end or the other skip nothing. -/
theorem skippedAll_eq_nil {as : List Call} (h : ∀ a ∈ as, a = .next ∨ a = .nextBack)
    (q : List Nat) : skippedAll q as = [] := by
  induction as generalizing q with
  | nil => rfl
  | cons a as ih =>
    rw [skippedAll, ih fun b hb => h b (List.mem_cons_of_mem _ hb), List.append_nil]
    rcases h a (List.mem_cons_self ..) with rfl | rfl <;> rfl

/-- An empty queue has no answer. -/
theorem serveAll_nil (as : List Call) : serveAll [] as = (List.replicate as.length none, []) := by
  induction as with
  | nil => rfl
  | cons a as ih =>
    have hserve : a.serve [] = (none, []) := by cases a <;> rfl
    rw [serveAll, hserve, ih, List.length_cons, List.replicate_succ]

/-! ## Walks -/

/-- The keys that a walk has yet to give begin at the position `passed`. As long as there are any, the
place at the front has just the keys that were passed before it, and the place at the back has those
to come before it as well. At the end of the walk nothing is known about the places. -/
structure Between (c : Cursor) (passed : Nat) : Prop where
  pos : ∀ r ∈ c.runs, r.start < r.stop
  room : passed + c.remaining ≤ Runs.size c.runs
  front : 0 < c.remaining → ∃ r, c.front.Opens c.runs r passed
  back : 0 < c.remaining → ∃ r, c.back.Closes c.runs r (passed + c.remaining)

/-- The keys of `q` are those that a walk has yet to give. -/
def Queues (c : Cursor) (q : List Nat) : Prop :=
  ∃ passed, c.Between passed ∧ q = ((Runs.toList c.runs).drop passed).take c.remaining

variable {c : Cursor} {q : List Nat}

namespace Queues

theorem length_eq (h : c.Queues q) : q.length = c.remaining := by
  obtain ⟨passed, hbetween, rfl⟩ := h
  have hroom := hbetween.room
  rw [List.length_take, List.length_drop, Runs.length_toList]
  omega

theorem eq_nil_iff (h : c.Queues q) : q = [] ↔ c.remaining = 0 := by
  rw [← h.length_eq, List.length_eq_zero_iff]

/-- A step at the front takes the first key off the queue. -/
theorem next (h : c.Queues q) : ∃ c', c.next = some (q.head?, c') ∧ c'.Queues q.tail := by
  by_cases hnone : c.remaining = 0
  · obtain rfl := h.eq_nil_iff.mpr hnone
    exact ⟨c, if_pos hnone, h⟩
  · obtain ⟨n, hn⟩ := Nat.exists_eq_add_one_of_ne_zero hnone
    obtain ⟨passed, ⟨hpos, hroom, hfront, hback⟩, rfl⟩ := h
    obtain ⟨r, hopens⟩ := hfront (by omega)
    obtain ⟨s, hcloses⟩ := hback (by omega)
    -- the key at the place in front is the first one of the queue
    rw [hn, List.drop_eq_getElem?_toList_append, hopens.getElem?, Option.toList_some,
      List.singleton_append, List.take_succ_cons, List.head?_cons, List.tail_cons, Cursor.next,
      if_neg hnone, hopens.run, hn]
    refine ⟨_, rfl, passed + 1, ⟨hpos, ?_, fun hmore => ?_, fun _ => ⟨s, ?_⟩⟩, rfl⟩
    · simp only
      omega
    · simp only at hmore
      exact hopens.next hpos (by omega)
    · have hcount : passed + 1 + n = passed + c.remaining := by omega
      simpa only [hcount, Nat.add_sub_cancel] using hcloses

/-- A step at the back takes the last key off the queue. -/
theorem nextBack (h : c.Queues q) :
    ∃ c', c.nextBack = some (q.getLast?, c') ∧ c'.Queues q.dropLast := by
  by_cases hnone : c.remaining = 0
  · obtain rfl := h.eq_nil_iff.mpr hnone
    exact ⟨c, if_pos hnone, h⟩
  · obtain ⟨n, hn⟩ := Nat.exists_eq_add_one_of_ne_zero hnone
    obtain ⟨passed, ⟨hpos, hroom, hfront, hback⟩, rfl⟩ := h
    obtain ⟨r, hopens⟩ := hfront (by omega)
    obtain ⟨s, hcloses⟩ := hback (by omega)
    rw [hn, ← Nat.add_assoc] at hcloses
    obtain ⟨back, hprev, hbehind⟩ := hcloses.prev hpos
    -- the key before the place at the back is the last one of the queue
    rw [hn, List.take_add_one, List.getElem?_drop, hcloses.getElem?, Option.toList_some,
      List.getLast?_concat, List.dropLast_concat, Cursor.nextBack, if_neg hnone, hcloses.run, hn]
    simp only [Option.bind_eq_bind, Option.bind_some, hprev]
    refine ⟨_, rfl, passed, ⟨hpos, ?_, fun _ => ⟨r, hopens⟩, fun hmore => ?_⟩, rfl⟩
    · simp only
      omega
    · simp only [Nat.add_sub_cancel] at hmore ⊢
      exact hbehind (by omega)

/-- Skipping takes the skipped keys off the queue, and the one after them. -/
theorem nth (h : c.Queues q) (n : Nat) :
    ∃ c', c.nth n = some (q[n]?, c') ∧ c'.Queues (q.drop (n + 1)) := by
  induction n generalizing c q with
  | zero =>
    obtain ⟨c', hnext, hrest⟩ := h.next
    exact ⟨c', by rw [Cursor.nth, hnext, List.head?_eq_getElem?], by rwa [List.drop_one]⟩
  | succ n ih =>
    obtain ⟨c', hnext, hrest⟩ := h.next
    rw [Cursor.nth, hnext]
    cases q with
    | nil => exact ⟨c', rfl, hrest⟩
    | cons k q =>
      obtain ⟨c'', hnth, hrest'⟩ := ih hrest
      exact ⟨c'', hnth, hrest'⟩

/-- A call takes off the queue what a queue takes off for it, and has the same answer. -/
theorem step (h : c.Queues q) (a : Call) :
    ∃ c', c.step a = some ((a.serve q).1, c') ∧ c'.Queues (a.serve q).2 := by
  cases a with
  | next => exact h.next
  | nextBack => exact h.nextBack
  | nth n => exact h.nth n

/-- A walk answers as the queue does, and has to give what is left of it. -/
theorem run (h : c.Queues q) (as : List Call) :
    ∃ c', c.run as = some ((serveAll q as).1, c') ∧ c'.Queues (serveAll q as).2 := by
  induction as generalizing c q with
  | nil => exact ⟨c, rfl, h⟩
  | cons a as ih =>
    obtain ⟨c', hstep, hrest⟩ := h.step a
    obtain ⟨c'', hrun, hrest'⟩ := ih hrest
    exact ⟨c'', by rw [Cursor.run, hstep]; simp [hrun, serveAll], hrest'⟩

/-- A walk that goes on at the front until its end lists the queue. -/
theorem collect (h : c.Queues q) : c.collect = some q := by
  induction q generalizing c with
  | nil =>
    obtain ⟨c', hnext, -⟩ := h.next
    rw [Cursor.collect]
    split
    · cases hnext.symm.trans ‹_›
    · rfl
    · cases hnext.symm.trans ‹_›
  | cons k q ih =>
    obtain ⟨c', hnext, hrest⟩ := h.next
    rw [Cursor.collect]
    split
    · cases hnext.symm.trans ‹_›
    · cases hnext.symm.trans ‹_›
    · cases hnext.symm.trans ‹_›
      rw [ih hrest]
      rfl

/-- The size hint of a walk is the length of the queue, which fits a machine word. -/
theorem sizeHint_eq (h : c.Queues q) (hmax : q.length ≤ maxKey) :
    c.sizeHint = (q.length, some q.length) := by
  rw [h.length_eq] at hmax ⊢
  rw [sizeHint, if_pos hmax]

end Queues

end Cursor

namespace KeySet

/-- No set has more keys than there are machine words. -/
theorem length_toList_le (s : KeySet) : s.toList.length ≤ maxKey := by
  have hsub : s.toList ⊆ List.range maxKey := fun k hk => List.mem_range.mpr (lt_maxKey hk)
  calc s.toList.length
    _ ≤ (List.range maxKey).length := (List.subperm_of_subset s.ascending.nodup hsub).length_le
    _ = maxKey := List.length_range

/-- A walk over a set has all its keys to give. -/
theorem queues_cursor (s : KeySet) : s.cursor.Queues s.toList := by
  have hpos : ∀ r ∈ s.runs, r.start < r.stop := fun r hr => (s.spaced.of_mem hr).2.1
  have hall : s.cursor.remaining = s.toList.length := s.length_toList.symm
  have hnone : s.runs = [] → s.cursor.remaining = 0 := fun hruns => by
    rw [hall, toList, hruns]
    rfl
  refine ⟨0, ⟨hpos, ?_, fun hmore => ?_, fun hmore => ?_⟩, ?_⟩
  · rw [Nat.zero_add, hall]
    exact Nat.le_of_eq (Runs.length_toList s.runs)
  · cases hruns : s.runs with
    | nil => exact absurd (hnone hruns) (Nat.ne_of_gt hmore)
    | cons r rs =>
      refine ⟨r, ?_⟩
      rw [cursor, hruns, List.head?_cons, Option.elim_some]
      exact ⟨rfl, Nat.le_refl _, hpos r (hruns ▸ List.mem_cons_self ..), by
        rw [Nat.sub_self]; rfl⟩
  · rcases s.runs.eq_nil_or_concat with hruns | ⟨rs, r, hruns⟩
    · exact absurd (hnone hruns) (Nat.ne_of_gt hmore)
    · rw [List.concat_eq_append] at hruns
      have hcount : s.cursor.remaining = Runs.size rs + r.width := by
        rw [hall, toList, Runs.length_toList, hruns, Runs.size_append]
        rfl
      refine ⟨r, ?_⟩
      rw [hcount, Nat.zero_add, cursor, hruns, List.getLast?_concat, Option.elim_some]
      have hlast : (rs ++ [r]).length - 1 = rs.length := by
        rw [List.length_append, List.length_singleton, Nat.add_sub_cancel]
      rw [hlast]
      have hmem : r ∈ s.runs := hruns ▸ List.mem_append_right _ (List.mem_singleton_self r)
      exact ⟨List.getElem?_concat_length, hpos r hmem, Nat.le_refl _, by rw [List.take_left]; rfl⟩
  · rw [hall]
    exact List.take_length.symm

/-- A walk over a set answers as a queue with two ends does that holds the keys of the set in
ascending order, and no call reads a run that does not exist. After any calls the size hint is the
number of keys that are left, and each key was given or skipped or is left. A walk with no key left
stays at its end. -/
theorem run_cursor (s : KeySet) (as : List Cursor.Call) :
    s.toList.Pairwise (· < ·) ∧ ∃ answers left c,
      Cursor.serveAll s.toList as = (answers, left) ∧ s.cursor.run as = some (answers, c) ∧
      c.sizeHint = (left.length, some left.length) ∧
      (answers.reduceOption ++ Cursor.skippedAll s.toList as ++ left).Perm s.toList ∧
      ((∀ a ∈ as, a = .next ∨ a = .nextBack) → Cursor.skippedAll s.toList as = []) ∧
      (left = [] → ∀ more, ∃ c',
        c.run more = some (List.replicate more.length none, c') ∧ c'.sizeHint = (0, some 0)) := by
  obtain ⟨c, hrun, hqueues⟩ := s.queues_cursor.run as
  have hperm := Cursor.serveAll_perm s.toList as
  have hlength : (Cursor.serveAll s.toList as).2.length ≤ maxKey := by
    have hall := hperm.length_eq
    have hmax := s.length_toList_le
    rw [List.length_append] at hall
    omega
  refine ⟨s.ascending, _, _, c, rfl, hrun, hqueues.sizeHint_eq hlength, hperm,
    fun h => Cursor.skippedAll_eq_nil h _, fun hnil more => ?_⟩
  rw [hnil] at hqueues
  obtain ⟨c', hrun', hqueues'⟩ := hqueues.run more
  rw [Cursor.serveAll_nil] at hrun' hqueues'
  exact ⟨c', hrun', hqueues'.sizeHint_eq (Nat.zero_le _)⟩

/-- The two ends of a walk go from run to run and meet. Key 0 is skipped at first, and the last step
at the front skips the key that is left. -/
theorem run_cursor_of_meeting : ∃ (s : KeySet) (c : Cursor), s.toList = [0, 1, 2, 10, 11, 20] ∧
    s.cursor.run [.nth 1, .nextBack, .nextBack, .next, .nth 3, .nextBack] =
      some ([some 1, some 20, some 11, some 2, none, none], c) ∧
    c.sizeHint = (0, some 0) ∧
    ([1, 20, 11, 2] ++ [0, 10]).Perm s.toList ∧
    ∃ c', c.run [.next, .nth 2] = some ([none, none], c') := by
  let s : KeySet := ⟨[⟨0, 3⟩, ⟨10, 12⟩, ⟨20, 21⟩], by simp [Spaced, maxKey]⟩
  obtain ⟨-, answers, left, c, hserve, hrun, hhint, hperm, -, hend⟩ :=
    run_cursor s [.nth 1, .nextBack, .nextBack, .next, .nth 3, .nextBack]
  obtain ⟨rfl, rfl⟩ := Prod.mk.inj hserve
  obtain ⟨c', hrun', -⟩ := hend (by decide) [.next, .nth 2]
  exact ⟨s, c, by decide, hrun, hhint, hperm, c', hrun'⟩

end KeySet

end LiveTables
