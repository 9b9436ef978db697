import LiveTables.Proofs.Keys.Rehearsal

/-!
# What ranks tell

The rank of a key among the present keys tells whether keys are there. Between two keys it grows by
at most one for each key, and by one just if the key is present. So a range is full just if the rank
grows along it by its width (`KeySpace.rank_add_eq_iff`), and free just if the rank does not grow
(`KeySpace.rank_eq_iff`). The present keys that follow one another from a key on are those whose
positions follow one another (`KeySpace.keyAt?_rank_add_iff`), which is what a bisection can look
for.
-/

namespace LiveTables.KeySpace

variable {s : KeySpace} {b e j k n : Nat}

@[simp] theorem rank_zero (s : KeySpace) : s.rank 0 = 0 := by
  rw [rank_eq_countP, List.countP_eq_zero]
  simp

theorem rank_add_one_of_not_mem (hk : k ∉ s.toList) : s.rank (k + 1) = s.rank k := by
  rw [rank_eq_countP, rank_eq_countP]
  refine List.countP_congr fun j hj => ?_
  have hne : j ≠ k := fun heq => hk (heq ▸ hj)
  simp only [decide_eq_true_eq]
  omega

/-- The rank grows by at most one for each key. -/
theorem rank_add_le : s.rank (b + n) ≤ s.rank b + n := by
  induction n with
  | zero => exact Nat.le_refl _
  | succ n ih =>
    rw [← Nat.add_assoc]
    by_cases hk : b + n ∈ s.toList
    · rw [rank_add_one_of_mem hk]
      omega
    · rw [rank_add_one_of_not_mem hk]
      omega

/-- The rank grows by the width of a range just if all keys of the range are present. -/
theorem rank_add_eq_iff :
    s.rank (b + n) = s.rank b + n ↔ ∀ k, b ≤ k → k < b + n → k ∈ s.toList := by
  refine ⟨fun h k hbk hk => ?_, rank_add⟩
  by_contra hout
  -- one key less is counted up to `k`, and the keys behind it cannot make up for it
  have hbefore : s.rank k ≤ s.rank b + (k - b) := by
    have hle := rank_add_le (s := s) (b := b) (n := k - b)
    rwa [Nat.add_sub_cancel' hbk] at hle
  have hbehind : s.rank (b + n) ≤ s.rank (k + 1) + (b + n - (k + 1)) := by
    have hle := rank_add_le (s := s) (b := k + 1) (n := b + n - (k + 1))
    rwa [Nat.add_sub_cancel' hk] at hle
  rw [rank_add_one_of_not_mem hout] at hbehind
  omega

/-- A present key comes before a key just if its position is below the rank of that. -/
theorem rank_lt_rank_iff (hk : k ∈ s.toList) : s.rank k < s.rank e ↔ k < e := by
  refine ⟨fun h => ?_, fun h => ?_⟩
  · by_contra hle
    exact absurd (rank_mono (s := s) (Nat.not_lt.mp hle)) (Nat.not_le.mpr h)
  · calc s.rank k
      _ < s.rank (k + 1) := by rw [rank_add_one_of_mem hk]; exact Nat.lt_succ_self _
      _ ≤ s.rank e := rank_mono h

/-- The rank does not grow along a range just if no key of the range is present. -/
theorem rank_eq_iff (hbe : b ≤ e) : s.rank b = s.rank e ↔ ∀ k ∈ s.toList, b ≤ k → e ≤ k := by
  refine ⟨fun h k hk hbk => ?_, fun h => ?_⟩
  · by_contra hlt
    have hless := (rank_lt_rank_iff hk).mpr (Nat.not_le.mp hlt)
    have hle := rank_mono (s := s) hbk
    omega
  · rw [rank_eq_countP, rank_eq_countP]
    refine List.countP_congr fun k hk => ?_
    have := h k hk
    simp only [decide_eq_true_eq]
    omega

/-! ## Looking up by rank -/

/-- The least present key at or after a key is the one with its rank. -/
theorem firstFrom?_eq (s : KeySpace) (k : Nat) :
    Runs.firstFrom? s.runs k = s.keyAt? (s.rank k) := by
  obtain ⟨front, back, hsplit, hfront, hback, hlen⟩ := exists_split_at s.ascending k
  have hnone : front.find? (k ≤ ·) = none := by
    rw [List.find?_eq_none]
    intro j hj
    have := hfront j hj
    simp only [decide_eq_true_eq]
    omega
  have hfirst : back.find? (k ≤ ·) = back.head? := by
    cases back with
    | nil => rfl
    | cons j back => exact List.find?_cons_of_pos (decide_eq_true (hback j (List.mem_cons_self ..)))
  rw [s.spaced.firstFrom?_eq_find?, keyAt?, Runs.select?_eq_getElem?, rank_eq_countP, ← hlen,
    ← toList, hsplit, List.find?_append, hnone, hfirst, Option.none_or,
    List.getElem?_append_right (Nat.le_refl _), Nat.sub_self, List.head?_eq_getElem?]

/-- The present keys of a range are those whose positions lie between the ranks of its ends. -/
theorem filterMap_keyAt? (s : KeySpace) (b e : Nat) :
    (Run.mk (s.rank b) (s.rank e)).keys.filterMap s.keyAt? =
      Runs.toList (Runs.within b e s.runs) := by
  have hkey : ∀ {i k}, s.keyAt? i = some k → k ∈ s.toList ∧ s.rank k = i := fun hi => by
    rw [keyAt?, Runs.select?_eq_getElem?] at hi
    exact ⟨List.mem_of_getElem? hi, rank_eq_of_getElem? hi⟩
  have hwithin : Spaced (maxKey + 1) 0 (Runs.within b e s.runs) := s.spaced.within
  refine List.Pairwise.eq_of_mem_iff (r := (· < ·)) ?_ hwithin.ascending fun k => ?_
  · refine List.Pairwise.filterMap _ (fun i j hij k hk k' hk' => ?_) List.pairwise_lt_range'
    obtain ⟨hmem, rfl⟩ := hkey hk
    obtain ⟨-, rfl⟩ := hkey hk'
    exact (rank_lt_rank_iff hmem).mp hij
  · rw [List.mem_filterMap, Runs.mem_within]
    simp only [Run.mem_keys]
    refine ⟨?_, ?_⟩
    · rintro ⟨i, ⟨hb, he⟩, hi⟩
      obtain ⟨hmem, rfl⟩ := hkey hi
      refine ⟨hmem, ?_, (rank_lt_rank_iff hmem).mp he⟩
      exact Nat.not_lt.mp fun hlt => Nat.not_lt.mpr hb ((rank_lt_rank_iff hmem).mpr hlt)
    · rintro ⟨hmem, hb, he⟩
      refine ⟨s.rank k, ⟨rank_mono hb, (rank_lt_rank_iff hmem).mpr he⟩, ?_⟩
      rw [keyAt?, Runs.select?_eq_getElem?]
      exact getElem?_rank hmem

/-- The keys from `b` on have consecutive positions as long as they are present. -/
theorem keyAt?_rank_add_iff :
    s.keyAt? (s.rank b + j) = some (b + j) ↔ b + j < Runs.firstGap s.runs b := by
  obtain ⟨hle, hgap, hfull⟩ := s.spaced.firstGap_spec b
  rw [keyAt?, Runs.select?_eq_getElem?]
  refine ⟨fun h => ?_, fun h => ?_⟩
  · by_contra hout
    have hall := rank_add_eq_iff.mp (rank_eq_of_getElem? h)
    rcases Nat.eq_or_lt_of_le (Nat.not_lt.mp hout) with heq | hlt
    · exact hgap (heq ▸ List.mem_of_getElem? h)
    · exact hgap (hall _ hle hlt)
  · have hrank := rank_add (s := s) (b := b) (i := j) fun k hbk hk => hfull k hbk (hk.trans h)
    rw [← hrank]
    exact getElem?_rank (hfull _ (Nat.le_add_right ..) h)

/-- A range has as many present keys as it is wide just if it ends before the first gap. -/
theorem rank_sub_eq_iff (hbe : b ≤ e) :
    s.rank e - s.rank b = e - b ↔ e ≤ Runs.firstGap s.runs b := by
  obtain ⟨hle, hgap, hfull⟩ := s.spaced.firstGap_spec b
  have hmono := rank_mono (s := s) hbe
  have hwidth := rank_add_eq_iff (s := s) (b := b) (n := e - b)
  rw [Nat.add_sub_cancel' hbe] at hwidth
  have hsub : s.rank e - s.rank b = e - b ↔ s.rank e = s.rank b + (e - b) := by omega
  rw [hsub, hwidth]
  refine ⟨fun h => ?_, fun h k hbk hke => hfull k hbk (by omega)⟩
  by_contra hlt
  exact hgap (h _ hle (by omega))

end LiveTables.KeySpace
