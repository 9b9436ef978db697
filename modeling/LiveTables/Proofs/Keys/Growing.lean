import LiveTables.Proofs.Keys.Sets
import Mathlib.Data.Set.Card
import Mathlib.Order.CompletePartialOrder

/-!
# Growing a key set

A set grows by ranges of keys. A call looks at the two neighbours of its range only, and may join
the range with one of them, with both or with none. Nevertheless the set holds at any time just the
keys of the calls that succeeded until then, in normal form, and a call succeeds just if none of its
keys is there (`KeySet.growAll_empty`). So neither the order of the calls nor how the keys are
divided among them can be told from the set.
-/

namespace LiveTables

namespace Addition

/-- The keys that a call is to add. -/
def keys : Addition → Set Nat
  | .range first stop => Set.Ico first stop
  | .key k => {k}

/-- The keys of the calls that succeeded. -/
def added (as : List Addition) (outcomes : List (Except Error Unit)) : Set Nat :=
  {k | ∃ a, (a, .ok ()) ∈ as.zip outcomes ∧ k ∈ a.keys}

variable {a : Addition} {as : List Addition} {outcomes : List (Except Error Unit)}

theorem added_nil : added [] outcomes = ∅ := by
  simp [added]

theorem added_cons_ok : added (a :: as) (.ok () :: outcomes) = a.keys ∪ added as outcomes := by
  ext k
  simp [added, or_and_right, exists_or]

theorem added_cons_error {error : Error} :
    added (a :: as) (.error error :: outcomes) = added as outcomes := by
  ext k
  simp [added]

end Addition

namespace KeySet

open Addition (added)

variable {s t : KeySet} {first stop : Nat}

/-- The keys of a set. -/
def members (s : KeySet) : Set Nat := {k | k ∈ s.toList}

theorem members_empty : empty.members = ∅ := Set.eq_empty_of_forall_notMem fun _ => List.not_mem_nil

/-- Sets with the same keys are equal. -/
theorem ext_members (h : s.members = t.members) : s = t := ext_mem fun k => Set.ext_iff.mp h k

theorem encard_members (s : KeySet) : s.members.encard = s.size := by
  rw [members, ← List.coe_toFinset, Set.encard_coe_eq_coe_finsetCard,
    List.toFinset_card_of_nodup s.ascending.nodup, length_toList]

/-! ## One call -/

/-- A call that succeeds adds its keys. A call that fails changes nothing. -/
theorem grow_cases (s : KeySet) (a : Addition) :
    (∃ t, s.grow a = (.ok (), t) ∧ t.members = s.members ∪ a.keys) ∨
      ∃ error, s.grow a = (.error error, s) := by
  cases h : s.outcome a with
  | error error => exact .inr ⟨error, by rw [grow, h]⟩
  | ok t =>
    refine .inl ⟨t, by rw [grow, h], ?_⟩
    ext k
    rw [Set.mem_union, or_comm]
    cases a with
    | range first stop => exact mem_addRange h
    | key j =>
      refine (mem_addRange h).trans (or_congr_left ?_)
      rw [Addition.keys, Set.mem_singleton_iff]
      omega

/-- A call that fails leaves the set as it is. -/
theorem eq_of_grow_error {a : Addition} {error : Error} (h : s.grow a = (.error error, t)) :
    t = s := by
  rcases s.grow_cases a with ⟨t', hok, -⟩ | ⟨error', herror⟩
  · cases hok.symm.trans h
  · exact (Prod.mk.inj (h.symm.trans herror)).2

/-- A range is added just if none of its keys is there. -/
theorem grow_range (s : KeySet) (hpos : first < stop) (hmax : stop ≤ maxKey) :
    (Disjoint (Set.Ico first stop) s.members ∧ ∃ t, s.grow (.range first stop) = (.ok (), t)) ∨
      ¬ Disjoint (Set.Ico first stop) s.members ∧
        s.grow (.range first stop) = (.error (.overlap first stop), s) := by
  rcases s.addRange_spec hpos hmax with ⟨hfree, t, hadd, -⟩ | ⟨⟨k, hk, hin⟩, herror⟩
  · have hdisjoint : Disjoint (Set.Ico first stop) s.members :=
      Set.disjoint_left.mpr fun k hin hk => hfree k hk hin
    exact .inl ⟨hdisjoint, t, by rw [grow, outcome, hadd]⟩
  · have htaken : ¬ Disjoint (Set.Ico first stop) s.members :=
      Set.not_disjoint_iff.mpr ⟨k, hin, hk⟩
    exact .inr ⟨htaken, by rw [grow, outcome, herror]⟩

theorem grow_range_iff (s : KeySet) (hpos : first < stop) (hmax : stop ≤ maxKey) :
    (∃ t, s.grow (.range first stop) = (.ok (), t)) ↔ Disjoint (Set.Ico first stop) s.members := by
  rcases s.grow_range hpos hmax with ⟨hdisjoint, hgrow⟩ | ⟨htaken, hgrow⟩
  · exact iff_of_true hgrow hdisjoint
  · refine iff_of_false (fun ⟨t, hok⟩ => ?_) htaken
    cases hok.symm.trans hgrow

/-- A key is a range of its own. -/
theorem grow_key_iff (s : KeySet) {k : Nat} (hmax : k < maxKey) :
    (∃ t, s.grow (.key k) = (.ok (), t)) ↔ k ∉ s.members := by
  have hrange : Set.Ico k (k + 1) = {k} := by
    ext j
    rw [Set.mem_Ico, Set.mem_singleton_iff]
    omega
  rw [← Set.disjoint_singleton_left, ← hrange]
  exact s.grow_range_iff (Nat.lt_succ_self k) hmax

/-- A reversed range is refused. -/
theorem grow_reversed (s : KeySet) (hreversed : stop < first) :
    s.grow (.range first stop) = (.error (.invalidArgument (.reversedRange first stop)), s) := by
  rw [grow, outcome, addRange, dif_pos hreversed]

/-- The largest key of all is refused. -/
theorem grow_maxKey (s : KeySet) :
    s.grow (.key maxKey) = (.error (.invalidArgument (.unrepresentableKey maxKey)), s) := by
  rw [grow, outcome, add, addRange, dif_neg (by omega), dif_neg (by omega), dif_neg (by omega),
    Nat.add_sub_cancel]

/-! ## One call after another -/

/-- There is an outcome of each call, and the set has the keys of the calls that succeeded besides
those from before. -/
theorem growAll_spec (s : KeySet) (as : List Addition) :
    (s.growAll as).1.length = as.length ∧
      (s.growAll as).2.members = s.members ∪ added as (s.growAll as).1 := by
  induction as generalizing s with
  | nil => exact ⟨rfl, by rw [growAll, Addition.added_nil, Set.union_empty]⟩
  | cons a as ih =>
    rw [growAll]
    rcases s.grow_cases a with ⟨t, hgrow, hmembers⟩ | ⟨error, hgrow⟩
    · obtain ⟨hlength, hrest⟩ := ih t
      rw [hgrow, Addition.added_cons_ok, ← Set.union_assoc, ← hmembers, ← hrest]
      exact ⟨congrArg (· + 1) hlength, rfl⟩
    · obtain ⟨hlength, hrest⟩ := ih s
      rw [hgrow, Addition.added_cons_error, ← hrest]
      exact ⟨congrArg (· + 1) hlength, rfl⟩

/-- After any calls on a new set its runs are non-empty, ascend and do not touch, and hold just the
keys of the calls that succeeded. Its size is the number of these keys. A further range is added just
if none of its keys is among them. A call that fails leaves the set as it is, and every reversed
range and the largest key fail. Any other calls that succeed with the same keys make the same set. -/
theorem growAll_empty (as : List Addition) {outcomes : List (Except Error Unit)}
    (h : empty.growAll as = (outcomes, s)) :
    outcomes.length = as.length ∧
    (∀ r ∈ s.runs, r.start < r.stop) ∧ (s.runs.Pairwise fun r r' => r.stop < r'.start) ∧
    {k | ∃ r ∈ s.runs, r.start ≤ k ∧ k < r.stop} = added as outcomes ∧
    (added as outcomes).encard = s.size ∧
    (∀ first stop, first < stop → stop ≤ maxKey →
      ((∃ t, s.grow (.range first stop) = (.ok (), t)) ↔
        Disjoint (Set.Ico first stop) (added as outcomes))) ∧
    (∀ k < maxKey, (∃ t, s.grow (.key k) = (.ok (), t)) ↔ k ∉ added as outcomes) ∧
    (∀ a error t, s.grow a = (.error error, t) → t = s) ∧
    (∀ first stop, first < stop → stop ≤ maxKey →
      ¬ Disjoint (Set.Ico first stop) (added as outcomes) →
      s.grow (.range first stop) = (.error (.overlap first stop), s)) ∧
    (∀ first stop, stop < first →
      s.grow (.range first stop) = (.error (.invalidArgument (.reversedRange first stop)), s)) ∧
    s.grow (.key maxKey) = (.error (.invalidArgument (.unrepresentableKey maxKey)), s) ∧
    ∀ bs, added bs (empty.growAll bs).1 = added as outcomes → (empty.growAll bs).2 = s := by
  have hadded : ∀ bs, (empty.growAll bs).2.members = added bs (empty.growAll bs).1 := fun bs => by
    rw [(empty.growAll_spec bs).2, members_empty, Set.empty_union]
  have hlength := (empty.growAll_spec as).1
  have hmembers := hadded as
  rw [h] at hlength hmembers
  rw [← hmembers]
  exact ⟨hlength, fun r hr => (s.spaced.of_mem hr).2.1, s.spaced.pairwise,
    Set.ext fun k => Runs.mem_toList.symm, s.encard_members, fun _ _ => s.grow_range_iff,
    fun _ => s.grow_key_iff, fun _ _ _ => eq_of_grow_error,
    fun _ _ hpos hmax htaken => ((s.grow_range hpos hmax).resolve_left fun h => htaken h.1).2,
    fun _ _ => s.grow_reversed, s.grow_maxKey, fun bs hbs => ext_members ((hadded bs).trans hbs)⟩

/-- Ranges and keys that come in any order, some of them twice or reversed, make one run. The same
keys make it when they are divided in another way. -/
theorem growAll_empty_of_pieces : ∃ (outcomes : List (Except Error Unit)) (s : KeySet),
    empty.growAll [.range 5 8, .key 2, .range 6 9, .range 3 5, .range 9 4, .key 2, .key maxKey] =
      (outcomes, s) ∧
    s.runs = [⟨2, 8⟩] ∧ s.size = 6 ∧
    (∃ t, s.grow (.range 8 10) = (.ok (), t)) ∧
    s.grow (.range 0 3) = (.error (.overlap 0 3), s) ∧
    (empty.growAll [.key 7, .range 2 4, .range 4 7]).2 = s := by
  let as : List Addition :=
    [.range 5 8, .key 2, .range 6 9, .range 3 5, .range 9 4, .key 2, .key maxKey]
  let bs : List Addition := [.key 7, .range 2 4, .range 4 7]
  obtain ⟨outcomes, s, hs⟩ : ∃ outcomes s, empty.growAll as = (outcomes, s) := ⟨_, _, rfl⟩
  obtain ⟨outcomes', t, ht⟩ : ∃ outcomes t, empty.growAll bs = (outcomes, t) := ⟨_, _, rfl⟩
  have hruns : (empty.growAll as).2.runs = [⟨2, 8⟩] := by decide +kernel
  have hruns' : (empty.growAll bs).2.runs = [⟨2, 8⟩] := by decide +kernel
  rw [hs] at hruns
  rw [ht] at hruns'
  obtain ⟨-, -, -, hkeys, -, hiff, -, -, hoverlap, -, -, hsame⟩ := growAll_empty as hs
  obtain ⟨-, -, -, hkeys', -⟩ := growAll_empty bs ht
  have hmem : ∀ k, k ∈ added as outcomes ↔ 2 ≤ k ∧ k < 8 := fun k => by
    rw [← hkeys, hruns]
    simp
  refine ⟨outcomes, s, hs, hruns, by rw [size_eq, hruns]; rfl,
    (hiff 8 10 (by decide) (by decide)).mpr (Set.disjoint_left.mpr fun k hk hin => ?_),
    hoverlap 0 3 (by decide) (by decide) (Set.not_disjoint_iff.mpr ⟨2, by simp, ?_⟩),
    hsame bs ?_⟩
  · have := (hmem k).mp hin
    have := hk.1
    omega
  · exact (hmem 2).mpr (by decide)
  · rw [ht, ← hkeys, ← hkeys', hruns, hruns']

end KeySet

end LiveTables
