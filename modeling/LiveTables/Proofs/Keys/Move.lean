import LiveTables.Proofs.Keys.Space

/-!
# Making one move

A move renumbers the keys of its source and leaves the others alone: `Move.apply`. A key space makes
a move just if no key leaves the key space and all keys keep their order
(`KeySpace.exists_shift_iff`). Its keys are then the renumbered ones, each at the position that it
had before (`KeySpace.toList_shift`).

The check that the library makes is a different one. It looks only for a foreign key on the way from
the source to its landing place, between the outermost source key and where that lands
(`Move.strictMonoOn_apply_iff`).
-/

namespace LiveTables

namespace Move

variable {m : Move} {k : Nat}

/-- Is `k` a source key of the move? -/
def covers (m : Move) (k : Nat) : Prop := m.start ≤ k ∧ k < m.stop

instance (m : Move) (k : Nat) : Decidable (m.covers k) :=
  inferInstanceAs (Decidable (m.start ≤ k ∧ k < m.stop))

/-- What becomes of a key: a source key moves, any other key stays. -/
def apply (m : Move) (k : Nat) : Nat := if m.covers k then m.target k else k

theorem apply_of_covers (h : m.covers k) : m.apply k = m.target k := if_pos h

theorem apply_of_not_covers (h : ¬ m.covers k) : m.apply k = k := if_neg h

/-- A move without source, or to where its source is, changes no key. -/
theorem apply_eq_self (h : m.start = m.stop ∨ m.start = m.dest) (k : Nat) : m.apply k = k := by
  by_cases hk : m.covers k
  · rw [apply_of_covers hk, target]
    rw [covers] at hk
    omega
  · exact apply_of_not_covers hk

/-- A move keeps the order of keys just if there is no key on the way, except in the source. The way
is what lies between the outermost source key and its landing place. -/
theorem strictMonoOn_apply_iff {l : List Nat} {first last : Nat}
    (hfirst : first ∈ l ∧ m.covers first) (hlast : last ∈ l ∧ m.covers last)
    (hsource : ∀ k ∈ l, m.covers k → first ≤ k ∧ k ≤ last) :
    StrictMonoOn m.apply {k | k ∈ l} ↔
      ∀ k ∈ l, (KeySpace.crossed m first last).1 ≤ k → (KeySpace.crossed m first last).2 ≤ k := by
  obtain ⟨hfl, hfc⟩ := hfirst
  obtain ⟨hll, hlc⟩ := hlast
  rw [KeySpace.crossed]
  refine ⟨?_, ?_⟩
  · intro hmono k hk hway
    -- the outermost source key would pass a key on the way, or land on it
    by_contra hlt
    split at hway <;> rename_i hdir
    · rw [if_pos hdir] at hlt
      have hout : ¬ m.covers k := fun hc => by
        have := (hsource k hk hc).2
        omega
      have hbad := hmono hll hk (by omega : last < k)
      rw [apply_of_covers hlc, apply_of_not_covers hout] at hbad
      omega
    · rw [if_neg hdir] at hlt
      have hout : ¬ m.covers k := fun hc => by
        have := (hsource k hk hc).1
        omega
      have hbad := hmono hk hfl (by omega : k < first)
      rw [apply_of_covers hfc, apply_of_not_covers hout] at hbad
      omega
  · intro hfree j hj k hk hjk
    by_cases hjc : m.covers j
    · by_cases hkc : m.covers k
      · rw [apply_of_covers hjc, apply_of_covers hkc, target, target]
        rw [covers] at hjc
        omega
      · -- `k` lies above the source, and a move upward does not reach it
        rw [apply_of_covers hjc, apply_of_not_covers hkc]
        have hway := hfree k hk
        have := (hsource j hj hjc).2
        rw [covers] at hjc hkc hlc
        simp only [target] at hway ⊢
        split at hway <;> simp only at hway <;> omega
    · by_cases hkc : m.covers k
      · -- `j` lies below the source, and a move downward does not reach it
        rw [apply_of_not_covers hjc, apply_of_covers hkc]
        have hway := hfree j hj
        have := (hsource k hk hkc).1
        rw [covers] at hjc hkc hfc
        simp only [target] at hway ⊢
        split at hway <;> simp only at hway <;> omega
      · rwa [apply_of_not_covers hjc, apply_of_not_covers hkc]

end Move

namespace KeySpace

variable {s t : KeySpace} {m : Move} {k : Nat}

/-- The source keys of a move as the library finds them: none of the present keys, or some with a
least and a greatest one among them. -/
theorem within_cases (s : KeySpace) (m : Move) :
    (Runs.within m.start m.stop s.runs = [] ∧ ∀ k ∈ s.toList, ¬ m.covers k) ∨
      ∃ low high, (Runs.within m.start m.stop s.runs).head? = some low ∧
        (Runs.within m.start m.stop s.runs).getLast? = some high ∧
        (low.start ∈ s.toList ∧ m.covers low.start) ∧ (high.last ∈ s.toList ∧ m.covers high.last) ∧
        ∀ k ∈ s.toList, m.covers k → low.start ≤ k ∧ k ≤ high.last := by
  have hspaced : Spaced (maxKey + 1) 0 (Runs.within m.start m.stop s.runs) := s.spaced.within
  have hmem : ∀ k, k ∈ Runs.toList (Runs.within m.start m.stop s.runs) ↔
      k ∈ s.toList ∧ m.covers k := fun _ => Runs.mem_within
  have hhead := hspaced.head?_toList
  have hlast := hspaced.getLast?_toList
  cases hsource : Runs.within m.start m.stop s.runs with
  | nil =>
    refine .inl ⟨rfl, fun k hk hc => ?_⟩
    have hin := (hmem k).mpr ⟨hk, hc⟩
    rw [hsource] at hin
    exact List.not_mem_nil hin
  | cons low rest =>
    rw [hsource] at hhead hlast hmem hspaced
    obtain ⟨high, hhigh⟩ : ∃ high, (low :: rest).getLast? = some high :=
      ⟨_, List.getLast?_eq_some_getLast (List.cons_ne_nil low rest)⟩
    rw [hhigh] at hlast
    refine .inr ⟨low, high, rfl, hhigh, (hmem _).mp (List.mem_of_head? hhead),
      (hmem _).mp (List.mem_of_getLast? hlast), fun k hk hc => ?_⟩
    have hin := (hmem k).mpr ⟨hk, hc⟩
    exact ⟨le_of_head? hspaced.ascending hhead hin, le_of_getLast? hspaced.ascending hlast hin⟩

/-- The keys of a moved run are those that become of the keys of the run. -/
theorem mem_keys_moved {r : Run} (hr : m.start ≤ r.start) :
    k ∈ (m.moved r).keys ↔ ∃ j ∈ r.keys, m.target j = k := by
  simp only [Run.mem_keys, Move.moved, Move.target]
  refine ⟨?_, ?_⟩
  · intro hk
    exact ⟨k - m.dest + m.start, by omega, by omega⟩
  · rintro ⟨j, hj, rfl⟩
    omega

/-- A source run is not empty, and all of it is in the source. -/
theorem covers_of_mem_within {r : Run} (hr : r ∈ Runs.within m.start m.stop s.runs) :
    r.start < r.stop ∧ ∀ k ∈ r.keys, k ∈ s.toList ∧ m.covers k := by
  have hspaced : Spaced (maxKey + 1) 0 (Runs.within m.start m.stop s.runs) := s.spaced.within
  refine ⟨(hspaced.of_mem hr).2.1, fun k hk => ?_⟩
  exact Runs.mem_within.mp (List.mem_flatMap.mpr ⟨r, hr, hk⟩)

/-- The keys at which a move lands are those that become of its source keys. -/
theorem mem_landing :
    k ∈ Runs.toList ((Runs.within m.start m.stop s.runs).map m.moved) ↔
      ∃ j ∈ s.toList, m.covers j ∧ m.target j = k := by
  rw [Runs.toList, List.mem_flatMap]
  refine ⟨?_, ?_⟩
  · rintro ⟨_, hmem, hk⟩
    obtain ⟨r, hr, rfl⟩ := List.mem_map.mp hmem
    obtain ⟨hpos, hcov⟩ := covers_of_mem_within hr
    have hstart : m.start ≤ r.start := (hcov r.start (Run.mem_keys.mpr ⟨Nat.le_refl _, hpos⟩)).2.1
    obtain ⟨j, hj, rfl⟩ := (mem_keys_moved hstart).mp hk
    exact ⟨j, (hcov j hj).1, (hcov j hj).2, rfl⟩
  · rintro ⟨j, hj, hc, rfl⟩
    obtain ⟨r, hr, hjr⟩ := List.mem_flatMap.mp (Runs.mem_within.mpr ⟨hj, hc⟩)
    obtain ⟨hpos, hcov⟩ := covers_of_mem_within hr
    have hstart : m.start ≤ r.start := (hcov r.start (Run.mem_keys.mpr ⟨Nat.le_refl _, hpos⟩)).2.1
    exact ⟨m.moved r, List.mem_map_of_mem hr, (mem_keys_moved hstart).mpr ⟨j, hjr, rfl⟩⟩

/-- The moved runs end by the largest key just if no key is carried past it. -/
theorem landing_bounded_iff :
    (∀ r ∈ (Runs.within m.start m.stop s.runs).map m.moved, r.stop ≤ maxKey + 1) ↔
      ∀ k ∈ s.toList, m.apply k ≤ maxKey := by
  refine ⟨?_, ?_⟩
  · intro hall k hk
    by_cases hc : m.covers k
    · obtain ⟨r, hr, hkr⟩ := List.mem_flatMap.mp (mem_landing.mpr ⟨k, hk, hc, rfl⟩)
      have hbound := hall r hr
      rw [Run.mem_keys] at hkr
      rw [Move.apply_of_covers hc]
      omega
    · rw [Move.apply_of_not_covers hc]
      exact le_maxKey hk
  · intro hall _ hmem
    obtain ⟨r, hr, rfl⟩ := List.mem_map.mp hmem
    obtain ⟨hpos, hcov⟩ := covers_of_mem_within hr
    have hin : r.stop - 1 ∈ r.keys := by
      rw [Run.mem_keys]
      omega
    obtain ⟨hpresent, hc⟩ := hcov _ hin
    have hbound := hall _ hpresent
    rw [Move.apply_of_covers hc] at hbound
    rw [Move.covers] at hc
    simp only [Move.moved, Move.target] at hbound ⊢
    omega

/-- What has to hold of a move to be made. -/
structure Admits (s : KeySpace) (m : Move) : Prop where
  /-- the source does not stop before it starts -/
  forward : m.start ≤ m.stop
  /-- no key leaves the key space -/
  bounded : ∀ k ∈ s.toList, m.apply k ≤ maxKey
  /-- the keys keep their order -/
  mono : StrictMonoOn m.apply {k | k ∈ s.toList}

/-- A move that changes no key can be made if its source does not stop before it starts. -/
theorem admits_of_apply_eq_self (hle : m.start ≤ m.stop) (hself : ∀ k ∈ s.toList, m.apply k = k) :
    s.Admits m ∧ s.toList = s.toList.map m.apply := by
  refine ⟨⟨hle, fun k hk => ?_, fun j hj k hk hjk => ?_⟩, ?_⟩
  · rw [hself k hk]
    exact le_maxKey hk
  · rwa [hself j hj, hself k hk]
  · rw [List.map_congr_left hself, List.map_id']

/-- Taking the source away and adding where it lands renumbers the keys, if they keep their
order. -/
theorem toList_relocated (hmono : StrictMonoOn m.apply {k | k ∈ s.toList})
    (hspaced : Spaced (maxKey + 1) 0 (Runs.insertAll
      ((Runs.within m.start m.stop s.runs).map m.moved) (Runs.erase m.start m.stop s.runs))) :
    toList ⟨_, hspaced⟩ = s.toList.map m.apply := by
  refine List.Pairwise.eq_of_mem_iff (r := (· < ·)) (ascending _)
    ((pairwise_map_iff s.ascending).mpr hmono) fun k => ?_
  rw [toList, Runs.mem_insertAll, mem_landing, Runs.mem_erase, ← toList, List.mem_map]
  refine ⟨?_, ?_⟩
  · rintro (⟨j, hj, hc, rfl⟩ | ⟨hk, hc⟩)
    · exact ⟨j, hj, Move.apply_of_covers hc⟩
    · exact ⟨k, hk, Move.apply_of_not_covers hc⟩
  · rintro ⟨j, hj, rfl⟩
    by_cases hc : m.covers j
    · exact .inl ⟨j, hj, hc, (Move.apply_of_covers hc).symm⟩
    · rw [Move.apply_of_not_covers hc]
      exact .inr ⟨hj, hc⟩

/-- A move is made if it can be, and then renumbers the keys one by one. Otherwise it is refused. -/
theorem shift_spec (s : KeySpace) (m : Move) :
    (s.Admits m ∧ ∃ t, s.shift m = .ok t ∧ t.toList = s.toList.map m.apply) ∨
      (¬ s.Admits m ∧ ∃ e, s.shift m = .error e) := by
  rw [shift]
  -- the checks of the move in their order, each of which is one of the three conditions
  by_cases hle : m.start ≤ m.stop
  · rw [if_neg (Nat.not_lt.mpr hle)]
    by_cases hstill : m.start = m.stop ∨ m.start = m.dest
    · rw [if_pos hstill]
      obtain ⟨hadmits, hmap⟩ :=
        admits_of_apply_eq_self (s := s) hle fun k _ => Move.apply_eq_self hstill k
      exact .inl ⟨hadmits, s, rfl, hmap⟩
    · rw [if_neg hstill]
      rcases s.within_cases m with ⟨hnone, hout⟩ | ⟨low, high, hlow, hhigh, hfirst, hlast, hsource⟩
      · obtain ⟨hadmits, hmap⟩ :=
          admits_of_apply_eq_self hle fun k hk => Move.apply_of_not_covers (hout k hk)
        simp only [hnone]
        exact .inl ⟨hadmits, s, rfl, hmap⟩
      · have hway := Move.strictMonoOn_apply_iff hfirst hlast hsource
        simp only [hlow, hhigh]
        split
        · rename_i hland
          have hbounded := landing_bounded_iff.mp hland
          split
          · rename_i k hk
            obtain ⟨hmem, hge, hlt, -⟩ := s.spaced.firstIn?_eq_some hk
            have hbad : ¬ s.Admits m := fun hadmits =>
              absurd (hway.mp hadmits.mono k hmem hge) (Nat.not_le.mpr hlt)
            refine .inr ⟨hbad, ?_⟩
            split
            · exact ⟨_, rfl⟩
            · exact ⟨_, rfl⟩
          · rename_i hfree
            have hmono := hway.mpr (s.spaced.firstIn?_eq_none_iff.mp hfree)
            exact .inl ⟨⟨hle, hbounded, hmono⟩, _, rfl, toList_relocated hmono _⟩
        · rename_i hland
          exact .inr ⟨fun hadmits => hland (landing_bounded_iff.mpr hadmits.bounded), _, rfl⟩
  · rw [if_pos (Nat.not_le.mp hle)]
    exact .inr ⟨fun hadmits => hle hadmits.forward, _, rfl⟩

/-- A move is made just if no key leaves the key space and all keys keep their order. -/
theorem exists_shift_iff : (∃ t, s.shift m = .ok t) ↔ s.Admits m := by
  rcases s.shift_spec m with ⟨hadmits, t, ht, -⟩ | ⟨hrefused, e, he⟩
  · exact iff_of_true ⟨t, ht⟩ hadmits
  · refine iff_of_false ?_ hrefused
    rintro ⟨t, ht⟩
    rw [he] at ht
    cases ht

/-- A move renumbers the keys, each at its position. -/
theorem toList_shift (h : s.shift m = .ok t) : t.toList = s.toList.map m.apply := by
  rcases s.shift_spec m with ⟨-, t', ht', hmap⟩ | ⟨-, e, he⟩
  · rw [h] at ht'
    obtain rfl := Except.ok.inj ht'
    exact hmap
  · rw [h] at he
    cases he

end KeySpace

end LiveTables
