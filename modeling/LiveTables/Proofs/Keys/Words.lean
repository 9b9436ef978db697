import LiveTables.Proofs.Keys.Collecting
import LiveTables.Proofs.Update.Accepted

/-!
# Machine words suffice

Whatever keys there are, the key layer makes no sum and no difference that is not a machine word
(`Checked.words_suffice`). For key spaces this is said by `Checked.addRange_eq`,
`Checked.eraseRange_eq` and `Checked.shift_eq`. What remains rests on the greatest key being in no
set. So every key of a set has a successor, which may be the end of its run, the end of a move or
the next step of a walk. And there are no more keys in a set than can be counted.
-/

namespace LiveTables

variable {s : KeySpace} {keys : KeySet} {first stop k : Nat}

/-! ## Growing a key set -/

/-- Are the arguments of a call machine words? -/
def Addition.InWords : Addition → Prop
  | .range first stop => first ≤ maxKey ∧ stop ≤ maxKey
  | .key k => k ≤ maxKey

namespace Checked

open Word

namespace Builder

theorem add_eq (keys : KeySet) (hk : k ≤ maxKey) :
    (builder keys).add k = some (builder <$> keys.add k) := by
  rw [Builder.add, KeySet.add]
  rcases Nat.eq_or_lt_of_le hk with rfl | hlt
  · rw [add?_eq_none (Nat.lt_succ_self _)]
    rfl
  · rw [add?_eq_some hlt]
    exact addRange_eq keys hlt

theorem grow_eq (keys : KeySet) {a : Addition} (ha : a.InWords) :
    (builder keys).grow a = some (Prod.map id builder (keys.grow a)) := by
  have houtcome : (builder keys).outcome a = some (builder <$> keys.outcome a) := by
    cases a with
    | range first stop => exact addRange_eq keys ha.2
    | key k => exact add_eq keys ha
  rw [Builder.grow, KeySet.grow, houtcome, Option.bind_eq_bind, Option.bind_some]
  cases keys.outcome a <;> rfl

theorem growAll_eq (keys : KeySet) {as : List Addition} (has : ∀ a ∈ as, a.InWords) :
    (builder keys).growAll as = some (Prod.map id builder (keys.growAll as)) := by
  induction as generalizing keys with
  | nil => rfl
  | cons a as ih =>
    obtain ⟨ha, has⟩ := List.forall_mem_cons.mp has
    rw [Builder.growAll, KeySet.growAll, grow_eq keys ha, Option.bind_eq_bind, Option.bind_some]
    simp only [Prod.map, ih (keys.grow a).2 has]
    rfl

end Builder

/-! ## Positions of keys -/

theorem positionsFrom_eq {rs : List Run} {low : Nat} (hrs : Spaced maxKey low rs)
    (found : KeySet) : positionsFrom s rs (builder found) =
      some (builder <$> rs.foldlM (fun found r => do
        s.requirePresent r.start r.stop
        found.addRange (s.rank r.start) (s.rank r.start + r.width)) found) := by
  induction rs generalizing low found with
  | nil => rfl
  | cons r rs ih =>
    obtain ⟨-, hpos, hstop, hrest⟩ := hrs
    rw [positionsFrom, sub?_eq_some (by omega), Option.bind_eq_bind, Option.bind_some,
      add?_eq_some (by omega), Option.bind_eq_bind, Option.bind_some, Nat.sub_add_cancel (by omega),
      requirePresent_eq (Nat.le_of_lt hpos) hstop, Option.bind_eq_bind, Option.bind_some,
      List.foldlM_cons]
    cases hpresent : s.requirePresent r.start r.stop with
    | error e => rfl
    | ok _ =>
      -- the positions end with the rank of the stop, which is not greater than the stop itself
      have hrank := KeySpace.rank_stop hpos (KeySpace.requirePresent_eq_ok_iff.mp hpresent)
      have hle := s.rank_le r.stop
      rw [countBelow_eq, sub?_eq_some (Nat.le_of_lt hpos), ok_bind, ← Run.width]
      simp only [Option.bind_some]
      rw [add?_eq_some (by omega), Option.bind_some, Builder.addRange_eq found (by omega),
        Option.bind_some]
      cases found.addRange (s.rank r.start) (s.rank r.start + r.width) with
      | error e => rfl
      | ok found' => exact ih hrest found'

theorem positions_eq (s : KeySpace) (keys : KeySet) :
    positions s keys = some (builder <$> s.positions keys) :=
  positionsFrom_eq keys.spaced .empty

/-! ## Scheduling moves -/

/-- Last source keys are keys of a set, so they have a successor. -/
theorem moveOf_eq {r : Renumbering} {t : Nat × Nat × Nat} (ht : t ∈ r.triples) :
    moveOf t = some (Renumbering.moveOf t) := by
  obtain ⟨start, last, dest⟩ := t
  obtain ⟨i, hi⟩ := List.getElem?_of_mem ht
  obtain ⟨-, hlast, -⟩ := Renumbering.getElem?_triples.mp hi
  have hmax : last < maxKey := KeySet.lt_maxKey (List.mem_of_getElem? hlast)
  rw [moveOf, add?_eq_some hmax]
  rfl

theorem mapM_moveOf {r : Renumbering} {ts : List (Nat × Nat × Nat)} (hts : ts ⊆ r.triples) :
    ts.mapM moveOf = some (ts.map Renumbering.moveOf) := by
  induction ts with
  | nil => rfl
  | cons t ts ih =>
    obtain ⟨ht, hts⟩ := List.cons_subset.mp hts
    rw [List.mapM_cons, moveOf_eq ht, ih hts]
    rfl

theorem schedule_eq (r : Renumbering) : schedule r = some r.schedule := by
  rw [schedule, Renumbering.schedule]
  cases r.validate with
  | error e => rfl
  | ok _ =>
    have hdown : r.triples.filter (fun t => t.2.2 < t.1) ⊆ r.triples := List.filter_subset_self _
    have hup : r.triples.reverse.filter (fun t => t.1 < t.2.2) ⊆ r.triples := fun t ht =>
      List.mem_reverse.mp (List.mem_of_mem_filter ht)
    simp only [mapM_moveOf hdown, mapM_moveOf hup, Option.bind_eq_bind, Option.bind_some, ok_bind]
    rw [← List.map_reverse, List.filter_map, List.filter_map]
    rfl

/-! ## Walking a key set -/

section Walk

variable {c c' : Cursor} {q : List Nat}

theorem runs_next {answer : Option Nat} (h : c.next = some (answer, c')) : c'.runs = c.runs := by
  rw [Cursor.next] at h
  split at h
  · cases h
    rfl
  · obtain ⟨r, -, h⟩ := Option.bind_eq_some_iff.mp h
    cases h
    rfl

theorem runs_nextBack {answer : Option Nat} (h : c.nextBack = some (answer, c')) :
    c'.runs = c.runs := by
  rw [Cursor.nextBack] at h
  split at h
  · cases h
    rfl
  · obtain ⟨r, -, h⟩ := Option.bind_eq_some_iff.mp h
    obtain ⟨back, -, h⟩ := Option.bind_eq_some_iff.mp h
    cases h
    rfl

theorem runs_nth {n : Nat} {answer : Option Nat} (h : c.nth n = some (answer, c')) :
    c'.runs = c.runs := by
  induction n generalizing c with
  | zero => exact runs_next h
  | succ n ih =>
    rw [Cursor.nth] at h
    obtain ⟨⟨skipped, c₁⟩, hnext, h⟩ := Option.bind_eq_some_iff.mp h
    have hruns := runs_next hnext
    cases skipped with
    | none =>
      cases h
      exact hruns
    | some k => exact (ih h).trans hruns

/-- A walk never changes its runs. -/
theorem runs_run {as : List Cursor.Call} {answers : List (Option Nat)}
    (h : c.run as = some (answers, c')) : c'.runs = c.runs := by
  induction as generalizing c answers with
  | nil =>
    cases h
    rfl
  | cons a as ih =>
    rw [Cursor.run] at h
    obtain ⟨⟨answer, c₁⟩, hstep, h⟩ := Option.bind_eq_some_iff.mp h
    obtain ⟨⟨answers', c₂⟩, hrun, h⟩ := Option.bind_eq_some_iff.mp h
    cases h
    have hruns : c₁.runs = c.runs := by
      cases a with
      | next => exact runs_next hstep
      | nextBack => exact runs_nextBack hstep
      | nth n => exact runs_nth hstep
    exact (ih hrun).trans hruns

/-- The key that a walk is at at the front has a successor, which is at most the end of its run. -/
theorem next_eq (h : c.Queues q) (hstop : ∀ r ∈ c.runs, r.stop ≤ maxKey) : next c = c.next := by
  rw [next, Cursor.next]
  split
  case isTrue => rfl
  case isFalse hmore =>
    obtain ⟨passed, hbetween, -⟩ := h
    obtain ⟨r, hopens⟩ := hbetween.front (Nat.pos_of_ne_zero hmore)
    have hlt := hopens.lt_stop
    have hmax := hstop r (List.mem_of_getElem? hopens.run)
    rw [hopens.run, add?_eq_some (by omega), sub?_eq_some (by omega)]
    rfl

/-- The end at the back that a walk is at follows a key. -/
theorem nextBack_eq (h : c.Queues q) : nextBack c = c.nextBack := by
  rw [nextBack, Cursor.nextBack]
  split
  case isTrue => rfl
  case isFalse hmore =>
    obtain ⟨passed, hbetween, -⟩ := h
    obtain ⟨r, hcloses⟩ := hbetween.back (Nat.pos_of_ne_zero hmore)
    have hlt := hcloses.start_lt
    rw [hcloses.run, sub?_eq_some (by omega), sub?_eq_some (by omega)]
    rfl

end Walk

/-- In machine words the key layer computes what it is to compute, and no sum and no difference that
it needs is not a word. This holds of all key spaces, also of those that hold the greatest key, and
of all arguments that are words. -/
theorem words_suffice :
    (∀ s : KeySpace,
      (∀ k, indexOf? s k = some (s.indexOf? k)) ∧
      (∀ b e, e ≤ maxKey → addRange s b e = some (s.addRange b e)) ∧
      (∀ b e, e ≤ maxKey → eraseRange s b e = some (s.eraseRange b e)) ∧
      (∀ m : Move, m.stop ≤ maxKey → shift s m = some (s.shift m)) ∧
      ∀ keys, positions s keys = some (builder <$> s.positions keys)) ∧
    (∀ r, schedule r = some r.schedule) ∧
    (∀ (keys : KeySet) calls, ∃ answers c, keys.cursor.run calls = some (answers, c) ∧
      (∃ step, next c = some step ∧ c.next = some step) ∧
      ∃ step, nextBack c = some step ∧ c.nextBack = some step) ∧
    ∀ (keys : KeySet) (as : List Addition), (∀ a ∈ as, a.InWords) →
      (builder keys).growAll as = some (Prod.map id builder (keys.growAll as)) := by
  refine ⟨fun s => ⟨indexOf?_eq s, fun _ _ => addRange_eq, fun _ _ => eraseRange_eq,
    fun _ => shift_eq, positions_eq s⟩, schedule_eq, fun keys calls => ?_,
    fun keys _ => Builder.growAll_eq keys⟩
  obtain ⟨c, hrun, hqueues⟩ := keys.queues_cursor.run calls
  have hstop : ∀ r ∈ c.runs, r.stop ≤ maxKey := by
    rw [runs_run hrun]
    exact keys.spaced.stop_le
  obtain ⟨front, hfront, -⟩ := hqueues.next
  obtain ⟨back, hback, -⟩ := hqueues.nextBack
  exact ⟨_, c, hrun, ⟨_, (next_eq hqueues hstop).trans hfront, hfront⟩,
    _, (nextBack_eq hqueues).trans hback, hback⟩

/-- Two keys move to the end of the key space, but not past it. There they are in the way of keys
that are added. A set cannot hold the greatest key. -/
theorem words_suffice_at_the_end : ∃ s t : KeySpace, s.toList = [10, 11] ∧
    shift s ⟨10, 12, maxKey - 1⟩ = some (.ok t) ∧ t.toList = [maxKey - 1, maxKey] ∧
    shift s ⟨10, 12, maxKey⟩ =
      some (.error (.protocol (.shiftLeavesKeySpace 10 12 maxKey 11))) ∧
    addRange t 5 maxKey = some (.error (.duplicateKey (maxKey - 1))) ∧
    eraseRange t 5 maxKey = some (.error (.keyNotFound 5)) ∧
    (builder .empty).growAll [.key maxKey, .range 5 maxKey] =
      some ([.error (.invalidArgument (.unrepresentableKey maxKey)), .ok ()],
        ⟨[⟨5, maxKey⟩], maxKey - 5⟩) := by
  obtain ⟨hspace, -, -, hgrow⟩ := words_suffice
  let s : KeySpace := ⟨[⟨10, 12⟩], by simp [Spaced, maxKey]⟩
  let t : KeySpace := ⟨[⟨maxKey - 1, maxKey + 1⟩], by simp [Spaced, maxKey]⟩
  obtain ⟨-, -, -, hshift, -⟩ := hspace s
  obtain ⟨-, hadd, herase, -, -⟩ := hspace t
  refine ⟨s, t, rfl, ?_, rfl, ?_, ?_, ?_, ?_⟩
  · rw [hshift _ (by decide)]
    rfl
  · rw [hshift _ (by decide)]
    rfl
  · rw [hadd _ _ (Nat.le_refl _)]
    rfl
  · rw [herase _ _ (Nat.le_refl _)]
    rfl
  · rw [hgrow _ _ (by simp [Addition.InWords, maxKey])]
    rfl

end Checked

end LiveTables
