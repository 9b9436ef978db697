import LiveTables.Proofs.Keys.Cursor
import Mathlib.Order.Bounds.Basic

/-!
# What a key set shows, and its parts

A set can be read in many ways: by a walk, by single questions, by its size, its two ends and its
runs. `KeySet.Lists` says that all of them tell of the same keys, and that the runs are the maximal
ones. It holds of every set, however it was made, so sets with the same keys are equal
(`KeySet.beq_iff_contains`).

The `n` least keys of a set and the others are sets again, with all that goes with it
(`KeySet.lists_take_drop`).
-/

namespace LiveTables

/-! ## Maximal runs -/

/-- All keys of the run lie in `S`, and none that is next to it does. -/
structure Run.IsMaximal (S : Set Nat) (r : Run) : Prop where
  pos : r.start < r.stop
  inside : ∀ k, r.start ≤ k → k < r.stop → k ∈ S
  before : ∀ k, k + 1 = r.start → k ∉ S
  after : r.stop ∉ S

namespace Spaced

variable {limit low : Nat} {rs : List Run} {r s : Run}

/-- Of two runs one ends, with a gap behind it, before the other one starts. -/
theorem apart (h : Spaced limit low rs) (hr : r ∈ rs) (hs : s ∈ rs) :
    r = s ∨ r.stop < s.start ∨ s.stop < r.start := by
  obtain ⟨i, hi, rfl⟩ := List.mem_iff_getElem.mp hr
  obtain ⟨j, hj, rfl⟩ := List.mem_iff_getElem.mp hs
  have hpair := List.pairwise_iff_getElem.mp h.pairwise
  rcases Nat.lt_trichotomy i j with hij | rfl | hji
  · exact .inr (.inl (hpair i j hi hj hij))
  · exact .inl rfl
  · exact .inr (.inr (hpair j i hj hi hji))

/-- The runs of the normal form are the maximal runs of their keys. -/
theorem mem_iff_isMaximal (h : Spaced limit low rs) :
    r ∈ rs ↔ r.IsMaximal {k | k ∈ Runs.toList rs} := by
  refine ⟨fun hr => ?_, fun hmax => ?_⟩
  · have hpos := (h.of_mem hr).2.1
    refine ⟨hpos, fun k hle hlt => Runs.mem_toList.mpr ⟨r, hr, hle, hlt⟩, fun k hk hmem => ?_,
      h.stop_not_mem hr⟩
    obtain ⟨s, hs, hle, hlt⟩ := Runs.mem_toList.mp hmem
    rcases h.apart hr hs with rfl | hrs | hsr
    · omega
    · omega
    · omega
  · obtain ⟨hpos, hinside, hbefore, hafter⟩ := hmax
    obtain ⟨s, hs, hle, hlt⟩ := Runs.mem_toList.mp (hinside r.start (Nat.le_refl _) hpos)
    have hstart : s.start = r.start := by
      by_contra hne
      exact hbefore (r.start - 1) (by omega)
        (Runs.mem_toList.mpr ⟨s, hs, by omega, by omega⟩)
    have hstop : s.stop = r.stop := by
      rcases Nat.lt_trichotomy s.stop r.stop with hshort | heq | hlong
      · exact absurd (hinside s.stop (by omega) hshort) (h.stop_not_mem hs)
      · exact heq
      · exact absurd (Runs.mem_toList.mpr ⟨s, hs, by omega, hlong⟩) hafter
    obtain rfl : s = r := Run.mk.injEq .. ▸ ⟨hstart, hstop⟩
    exact hs

end Spaced

/-! ## Ends of ascending lists -/

section Ascending

variable {l : List Nat} {k : Nat}

theorem head?_eq_some_iff_isLeast (h : l.Pairwise (· < ·)) :
    l.head? = some k ↔ IsLeast {j | j ∈ l} k := by
  have hleast : ∀ k, l.head? = some k → IsLeast {j | j ∈ l} k := fun k hk =>
    ⟨List.mem_of_head? hk, fun j hj => le_of_head? h hk hj⟩
  refine ⟨hleast k, fun hk => ?_⟩
  obtain ⟨j, hj⟩ := Option.ne_none_iff_exists'.mp
    (mt List.head?_eq_none_iff.mp (List.ne_nil_of_mem hk.1))
  rw [hj, (hleast j hj).unique hk]

theorem getLast?_eq_some_iff_isGreatest (h : l.Pairwise (· < ·)) :
    l.getLast? = some k ↔ IsGreatest {j | j ∈ l} k := by
  have hgreatest : ∀ k, l.getLast? = some k → IsGreatest {j | j ∈ l} k := fun k hk =>
    ⟨List.mem_of_getLast? hk, fun j hj => le_of_getLast? h hk hj⟩
  refine ⟨hgreatest k, fun hk => ?_⟩
  obtain ⟨j, hj⟩ := Option.ne_none_iff_exists'.mp
    (mt List.getLast?_eq_none_iff.mp (List.ne_nil_of_mem hk.1))
  rw [hj, (hgreatest j hj).unique hk]

end Ascending

namespace KeySet

variable {s t : KeySet}

/-! ## All views of a set agree -/

/-- The first and the last key of every run, in the order in which they are told. -/
def told (s : KeySet) : List (Nat × Nat) :=
  ((s.forEachRun (m := StateM (List (Nat × Nat))) fun first last =>
    modify (· ++ [(first, last)])).run []).2

theorem told_eq (s : KeySet) : s.told = s.runs.map fun r => (r.start, r.last) := by
  have hrun : ∀ (rs : List Run) (seen : List (Nat × Nat)),
      ((rs.forM (m := StateM (List (Nat × Nat))) fun r =>
        modify (· ++ [(r.start, r.last)])).run seen).2 =
      seen ++ rs.map fun r => (r.start, r.last) := by
    intro rs
    induction rs with
    | nil => exact fun seen => (List.append_nil seen).symm
    | cons r rs ih =>
      intro seen
      exact (ih (seen ++ [(r.start, r.last)])).trans (List.append_assoc ..)
  exact hrun s.runs []

/-- Every view of a set tells of the keys in `keys`, and the runs are the maximal ones. -/
structure Lists (s : KeySet) (keys : List Nat) : Prop where
  ascending : keys.Pairwise (· < ·)
  walk : s.cursor.collect = some keys
  contains : ∀ k, s.contains k = true ↔ k ∈ keys
  size : s.size = keys.length
  least : ∀ k, s.first? = some k ↔ IsLeast {j | j ∈ keys} k
  greatest : ∀ k, s.last? = some k ↔ IsGreatest {j | j ∈ keys} k
  runs : ∀ r, r ∈ s.runs ↔ r.IsMaximal {k | k ∈ keys}
  apart : s.runs.Pairwise fun r r' => r.stop < r'.start
  told : s.told = s.runs.map fun r => (r.start, r.last)

/-- A set lists one list of keys only. -/
theorem Lists.unique {keys keys' : List Nat} (h : s.Lists keys) (h' : s.Lists keys') :
    keys = keys' :=
  Option.some.inj (h.walk.symm.trans h'.walk)

/-- All views of a set tell of its keys. -/
theorem lists_toList (s : KeySet) : s.Lists s.toList where
  ascending := s.ascending
  walk := s.queues_cursor.collect
  contains _ := contains_iff
  size := s.length_toList.symm
  least _ := by
    rw [first?, ← s.spaced.head?_toList, ← toList, head?_eq_some_iff_isLeast s.ascending]
  greatest _ := by
    rw [last?, ← s.spaced.getLast?_toList, ← toList, getLast?_eq_some_iff_isGreatest s.ascending]
  runs _ := s.spaced.mem_iff_isMaximal
  apart := s.spaced.pairwise
  told := s.told_eq

/-- Sets with the same keys are equal. -/
theorem ext_mem (h : ∀ k, k ∈ s.toList ↔ k ∈ t.toList) : s = t :=
  ext_toList (s.ascending.eq_of_mem_iff t.ascending h)

/-- Two sets are equal, that is, they agree in their runs and their sizes, just if they contain the
same keys. All that a set shows of itself tells of these keys. -/
theorem beq_iff_contains (s t : KeySet) :
    ((s == t) = true ↔ s.runs = t.runs ∧ s.size = t.size) ∧
    ((s == t) = true ↔ ∀ k, s.contains k = t.contains k) ∧
    ∃ keys, s.Lists keys := by
  rw [beq_iff_eq]
  refine ⟨⟨?_, fun h => ext h.1⟩, ⟨?_, fun h => ext_mem fun k => ?_⟩, _, s.lists_toList⟩
  · rintro rfl
    exact ⟨rfl, rfl⟩
  · rintro rfl k
    rfl
  · rw [← contains_iff, ← contains_iff, h k]

/-- What is left of a run that was cut at both ends is equal to the set of its keys, one by one and in
another order. -/
theorem beq_iff_contains_of_cut : ∃ s t : KeySet, ofRanges [(5, 8), (0, 5)] = .ok s ∧
    ofKeys [4, 2, 3] = .ok t ∧ ((s.drop 2).take 3 == t) = true ∧
    (∀ k, ((s.drop 2).take 3).contains k = t.contains k) ∧
    ((s.drop 2).take 3).Lists [2, 3, 4] := by
  let s : KeySet := ⟨[⟨0, 8⟩], by simp [Spaced, maxKey]⟩
  let t : KeySet := ⟨[⟨2, 5⟩], by simp [Spaced, maxKey]⟩
  have hequal : ((s.drop 2).take 3 == t) = true := by decide +kernel
  obtain ⟨-, hiff, keys, hlists⟩ := beq_iff_contains ((s.drop 2).take 3) t
  obtain rfl : keys = [2, 3, 4] := hlists.unique (lists_toList _)
  exact ⟨s, t, rfl, rfl, hequal, hiff.mp hequal, hlists⟩

/-! ## Parts -/

/-- A set falls into its `n` least keys, or all of them if there are no more, and the others. To cut
twice is to cut at the sum or at the lesser of the two counts. -/
theorem lists_take_drop (s : KeySet) (n : Nat) :
    (∃ front back, s.Lists (front ++ back) ∧ (s.take n).Lists front ∧ (s.drop n).Lists back ∧
      front.length = min n s.size ∧ ∀ j ∈ front, ∀ k ∈ back, j < k) ∧
    (s.take n).size = min n s.size ∧ (s.drop n).size = s.size - n ∧
    ∀ m, (s.drop m).drop n = s.drop (m + n) ∧ (s.take m).take n = s.take (min m n) ∧
      (s.drop m).take n = (s.take (m + n)).drop m := by
  have hparts : s.toList = s.toList.take n ++ s.toList.drop n := (List.take_append_drop ..).symm
  have htake : (s.toList.take n).length = min n s.size := by rw [List.length_take, length_toList]
  refine ⟨⟨s.toList.take n, s.toList.drop n, hparts ▸ s.lists_toList,
    toList_take s n ▸ lists_toList _, toList_drop s n ▸ lists_toList _, htake, ?_⟩, ?_, ?_,
    fun m => ⟨?_, ?_, ?_⟩⟩
  · have hasc := s.ascending
    rw [hparts] at hasc
    exact (List.pairwise_append.mp hasc).2.2
  · rw [← length_toList, toList_take, htake]
  · rw [← length_toList, toList_drop, List.length_drop, length_toList]
  · apply ext_toList
    rw [toList_drop, toList_drop, toList_drop, List.drop_drop]
  · apply ext_toList
    rw [toList_take, toList_take, toList_take, List.take_take, Nat.min_comm]
  · apply ext_toList
    rw [toList_take, toList_drop, toList_drop, toList_take, List.drop_take, Nat.add_sub_cancel_left]

/-- A cut between two runs, and cuts within both of them. -/
theorem lists_take_drop_of_boundary : ∃ s : KeySet, s.runs = [⟨0, 3⟩, ⟨10, 14⟩] ∧
    (s.take 3).Lists [0, 1, 2] ∧ (s.drop 3).Lists [10, 11, 12, 13] ∧
    (s.drop 3).size = 4 ∧ (s.drop 1).drop 3 = s.drop 4 ∧ (s.take 6).take 3 = s.take 3 ∧
    (s.drop 2).take 3 = (s.take 5).drop 2 := by
  let s : KeySet := ⟨[⟨0, 3⟩, ⟨10, 14⟩], by simp [Spaced, maxKey]⟩
  obtain ⟨⟨front, back, -, hfront, hback, -⟩, -, hsize, hcuts⟩ := lists_take_drop s 3
  obtain rfl : front = [0, 1, 2] := hfront.unique (lists_toList _)
  obtain rfl : back = [10, 11, 12, 13] := hback.unique (lists_toList _)
  exact ⟨s, rfl, hfront, hback, hsize, (hcuts 1).1, (hcuts 6).2.1, (hcuts 2).2.2⟩

end KeySet

end LiveTables
