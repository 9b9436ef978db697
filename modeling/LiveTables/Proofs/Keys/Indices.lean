import LiveTables.Proofs.Keys.Collecting

/-!
# Keys, indices, and what a change does to them

The index of a key is the number of present keys below it, and every index below the number of rows
belongs to one key: keys and indices are two names of the rows. A set of keys is translated key by
key, although the library goes over its runs (`KeySpace.index_correspondence`).

A range of keys that is added opens a gap in the indices. Below the range they stay, above it they
grow by its width (`KeySpace.Gains`). Erasing the range closes the gap again, and nothing is left of
it (`KeySpace.run_add_erase`). A move changes keys and leaves their indices alone
(`KeySpace.run_shift`).
-/

namespace LiveTables

namespace KeySpace

variable {s s' t : KeySpace} {keys rows : KeySet} {b e i j k d : Nat} {error : Error}
  {answer : Option Nat} {m : Move} {step : KeyStep}

/-! ## Step by step -/

theorem run_of_outcome (h : s.outcome step = .ok (answer, t)) : s.run step = (.ok answer, t) := by
  rw [run, h]

/-- A change that cannot be made leaves the key space as it was. -/
theorem run_of_error (h : s.outcome step = .error error) : s.run step = (.error error, s) := by
  rw [run, h]

/-! ## Keys and indices -/

/-- A key has an index just if it is present. -/
theorem indexOf?_eq_none_iff : s.indexOf? k = none ↔ k ∉ s.toList := by
  rw [indexOf?, ← contains_iff]
  split <;> simp_all

theorem keyAt?_eq_getElem? (s : KeySpace) (i : Nat) : s.keyAt? i = s.toList[i]? :=
  Runs.select?_eq_getElem? s.runs i

/-- An index has a key just if it is one of a row. -/
theorem keyAt?_eq_none_iff : s.keyAt? i = none ↔ s.size ≤ i := by
  rw [keyAt?_eq_getElem?, List.getElem?_eq_none_iff, length_toList]

/-- Indices are in the order of their keys. -/
theorem lt_iff_of_indexOf? (hj : s.indexOf? j = some i) (hk : s.indexOf? k = some d) :
    j < k ↔ i < d := by
  rw [indexOf?_eq_some_iff] at hj hk
  obtain ⟨hi, rfl⟩ := List.getElem?_eq_some_iff.mp hj
  obtain ⟨hd, rfl⟩ := List.getElem?_eq_some_iff.mp hk
  exact s.ascending.sortedLT.getElem_lt_getElem_iff

/-- The `i`-th key of a set has the `i`-th position. -/
theorem getElem?_positions (h : s.positions keys = .ok rows) (i : Nat) :
    rows.toList[i]? = keys.toList[i]?.bind s.indexOf? := by
  obtain ⟨hrows, hall⟩ := toList_positions h
  rw [hrows, List.getElem?_map]
  cases hk : keys.toList[i]? with
  | none => rfl
  | some k =>
    have hpresent := hall k (List.mem_of_getElem? hk)
    exact (indexOf?_eq_some_iff.mpr (getElem?_rank hpresent)).symm

/-- The positions of a set are the indices of its keys. -/
theorem mem_positions (h : s.positions keys = .ok rows) :
    i ∈ rows.toList ↔ ∃ k ∈ keys.toList, s.indexOf? k = some i := by
  rw [List.mem_iff_getElem?]
  simp only [getElem?_positions h, Option.bind_eq_some_iff,
    List.mem_iff_getElem? (l := keys.toList)]
  exact ⟨fun ⟨j, k, hj, hk⟩ => ⟨k, ⟨j, hj⟩, hk⟩, fun ⟨k, ⟨j, hj⟩, hk⟩ => ⟨j, k, hj, hk⟩⟩

/-- All present keys together have all indices. -/
theorem toList_positions_of_all (hkeys : keys.toList = s.toList) (h : s.positions keys = .ok rows) :
    rows.toList = List.range s.size := by
  refine List.ext_getElem? fun i => ?_
  rw [getElem?_positions h, hkeys]
  by_cases hi : i < s.size
  · rw [← length_toList] at hi
    rw [List.getElem?_eq_getElem hi, List.getElem?_range (length_toList s ▸ hi)]
    exact indexOf?_eq_some_iff.mpr (List.getElem?_eq_getElem hi)
  · have hend : s.size ≤ i := Nat.le_of_not_lt hi
    rw [List.getElem?_eq_none (by rwa [length_toList]),
      List.getElem?_eq_none (by rwa [List.length_range])]
    rfl

/-- Keys and indices are two names of the rows, in one order, and this carries over to sets: a set
of present keys has one index for each, and a set with an absent key is refused with the least one.
If the largest key of all is absent, the present keys are a set, which has all indices, and they are
collected key by key; the end of a run is no machine word just if it is present. -/
theorem index_correspondence (s : KeySpace) :
    ((∀ k i, s.indexOf? k = some i ↔ s.keyAt? i = some k) ∧
      (∀ k, s.indexOf? k = none ↔ k ∉ s.toList) ∧ (∀ i, s.keyAt? i = none ↔ s.size ≤ i) ∧
      ∀ j k i i', s.indexOf? j = some i → s.indexOf? k = some i' → (j < k ↔ i < i')) ∧
    (∀ keys : KeySet,
      ((∀ k ∈ keys.toList, k ∈ s.toList) ∧ ∃ rows, s.positions keys = .ok rows ∧
        rows.size = keys.size ∧ (∀ i, i ∈ rows.toList ↔ ∃ k ∈ keys.toList, s.indexOf? k = some i) ∧
        ∀ i : Nat, rows.toList[i]? = keys.toList[i]?.bind s.indexOf?) ∨
      ∃ k, IsLeast {k | k ∈ keys.toList ∧ k ∉ s.toList} k ∧
        s.positions keys = .error (.keyNotFound k)) ∧
    (maxKey ∉ s.toList → ∃ keys rows, s.rowKeys = .ok keys ∧ keys.toList = s.toList ∧
      s.positions keys = .ok rows ∧ rows.toList = List.range s.size ∧
      Checked.rowKeys s = some (.ok (Checked.builder keys))) ∧
    (Checked.rowKeys s = none ↔ maxKey ∈ s.toList) := by
  refine ⟨⟨fun k i => ?_, fun k => indexOf?_eq_none_iff, fun i => keyAt?_eq_none_iff,
    fun j k i i' => lt_iff_of_indexOf?⟩, fun keys => ?_, fun hmax => ?_, rowKeys_eq_none_iff⟩
  · rw [indexOf?_eq_some_iff, keyAt?_eq_getElem?]
  · rcases s.positions_spec keys with ⟨hall, rows, hrows⟩ | hmissing
    · exact .inl ⟨hall, rows, hrows, size_positions hrows, fun i => mem_positions hrows,
        getElem?_positions hrows⟩
    · exact .inr hmissing
  · obtain ⟨keys, hkeys, hlist, hcollected⟩ := exists_rowKeys hmax
    obtain ⟨rows, hrows⟩ : ∃ rows, s.positions keys = .ok rows :=
      s.exists_positions fun k hk => hlist ▸ hk
    exact ⟨keys, rows, hkeys, hlist, hrows, toList_positions_of_all hlist hrows, hcollected⟩

/-- Of three present keys 4 and 9 have the indices 0 and 2, together with key 8 all of them. -/
theorem index_correspondence_of_gaps : ∃ (s : KeySpace) (keys rows : KeySet),
    s.toList = [4, 8, 9] ∧ keys.toList = [4, 9] ∧ s.keyAt? 2 = some 9 ∧ s.keyAt? 3 = none ∧
    (4 < 9 ↔ 0 < 2) ∧ s.positions keys = .ok rows ∧ rows.toList[1]? = some 2 ∧
    ∃ all rows, s.rowKeys = .ok all ∧ s.positions all = .ok rows ∧ rows.toList = [0, 1, 2] := by
  let s : KeySpace := ⟨[⟨4, 5⟩, ⟨8, 10⟩], by simp [Spaced, maxKey]⟩
  let keys : KeySet := ⟨[⟨4, 5⟩, ⟨9, 10⟩], by simp [Spaced, maxKey]⟩
  have h4 : s.indexOf? 4 = some 0 := by decide +kernel
  have h9 : s.indexOf? 9 = some 2 := by decide +kernel
  have hpresent : ∀ k ∈ keys.toList, k ∈ s.toList := by decide +kernel
  obtain ⟨⟨hinverse, -, hend, horder⟩, hsets, hall, -⟩ := index_correspondence s
  obtain ⟨all, allRows, hkeys, -, hpositions, hrange, -⟩ := hall (by decide +kernel)
  rcases hsets keys with ⟨-, rows, hrows, -, -, hget⟩ | ⟨k, ⟨⟨hk, hout⟩, -⟩, -⟩
  · exact ⟨s, keys, rows, by decide +kernel, by decide +kernel, (hinverse 9 2).mp h9,
      (hend 3).mpr (by decide +kernel), horder 4 9 0 2 h4 h9, hrows, (hget 1).trans h9, all,
      allRows, hkeys, hpositions, hrange⟩
  · exact absurd (hpresent k hk) hout

/-! ## Ranges of keys -/

/-- `t` is `s` with the keys of `[b, e)`, which `s` has none of. They lie between the keys below and
the keys above them, so only the latter get other indices. -/
structure Gains (s : KeySpace) (b e : Nat) (t : KeySpace) : Prop where
  /-- the keys of the range are new -/
  free : ∀ k ∈ s.toList, ¬ (b ≤ k ∧ k < e)
  /-- they are there with the keys from before -/
  keys : ∀ k, k ∈ t.toList ↔ (b ≤ k ∧ k < e) ∨ k ∈ s.toList
  /-- below the range indices stay -/
  below : ∀ k < b, t.indexOf? k = s.indexOf? k
  /-- above the range indices grow by its width -/
  above : ∀ k, e ≤ k → t.indexOf? k = (s.indexOf? k).map (· + (e - b))

/-- The keys from before are those outside the range. -/
theorem Gains.mem_iff (h : s.Gains b e t) : k ∈ s.toList ↔ k ∈ t.toList ∧ ¬ (b ≤ k ∧ k < e) := by
  rw [h.keys]
  refine ⟨fun hk => ⟨.inr hk, h.free k hk⟩, ?_⟩
  rintro ⟨hin | hk, hout⟩
  · exact absurd hin hout
  · exact hk

/-- What was gained decides what there was before. -/
theorem Gains.unique (h : s.Gains b e t) (h' : s'.Gains b e t) : s = s' :=
  ext_of_mem fun _ => h.mem_iff.trans h'.mem_iff.symm

/-- Below the range there are as many keys as before. -/
theorem Gains.countP_below (h : s.Gains b e t) :
    t.toList.countP (· < b) = s.toList.countP (· < b) := by
  rw [← rank_eq_countP, ← rank_eq_countP]
  refine rank_congr fun k hk => ?_
  have hout : ¬ (b ≤ k ∧ k < e) := by omega
  rw [h.keys, or_iff_right hout]

/-- A key that is present before and after has the index that its rank says. -/
theorem indexOf?_of_rank (hmem : k ∈ t.toList ↔ k ∈ s.toList) (hrank : t.rank k = s.rank k + d) :
    t.indexOf? k = (s.indexOf? k).map (· + d) := by
  have hcontains : t.contains k = s.contains k := by
    rw [Bool.eq_iff_iff, contains_iff, contains_iff, hmem]
  rw [indexOf?, indexOf?, hcontains, hrank]
  split <;> rfl

/-- Where the keys of a range lie between the others, those keys are gained. -/
theorem gains_of_toList {front back : List Nat} {r : Run} (hs : s.toList = front ++ back)
    (ht : t.toList = front ++ (r.keys ++ back)) : s.Gains r.start r.stop t := by
  have hasc := t.ascending
  rw [ht] at hasc
  obtain ⟨-, hascr, hfront⟩ := List.pairwise_append.mp hasc
  obtain ⟨-, -, hback⟩ := List.pairwise_append.mp hascr
  have hmem : ∀ k, k ∈ t.toList ↔ (r.start ≤ k ∧ k < r.stop) ∨ k ∈ s.toList := fun k => by
    rw [ht, hs]
    simp only [List.mem_append, Run.mem_keys]
    exact or_left_comm
  -- the rank of a key grows by the number of new keys below it
  have hrank : ∀ k, t.rank k = s.rank k + (min r.stop k - r.start) := fun k => by
    rw [rank_eq_countP, rank_eq_countP, ht, hs, List.countP_append, List.countP_append,
      List.countP_append, Run.countP_keys]
    omega
  refine ⟨fun k hk hin => ?_, hmem, fun k hk => ?_, fun k hk => ?_⟩
  · have hkeys : k ∈ r.keys := Run.mem_keys.mpr hin
    rw [hs] at hk
    rcases List.mem_append.mp hk with hk | hk
    · exact Nat.lt_irrefl k (hfront k hk k (List.mem_append_left _ hkeys))
    · exact Nat.lt_irrefl k (hback k hkeys k hk)
  · have hout : ¬ (r.start ≤ k ∧ k < r.stop) := by omega
    have hzero : t.rank k = s.rank k + 0 := by
      rw [hrank]
      omega
    rw [indexOf?_of_rank ((hmem k).trans (or_iff_right hout)) hzero]
    exact Option.map_id'
  · have hout : ¬ (r.start ≤ k ∧ k < r.stop) := by omega
    refine indexOf?_of_rank ((hmem k).trans (or_iff_right hout)) ?_
    rw [hrank, Nat.min_eq_left hk]

theorem gains_of_addRange (hbe : b < e) (h : s.addRange b e = .ok (i, t)) : s.Gains b e t := by
  obtain ⟨front, back, hs, ht, -⟩ := toList_addRange (r := ⟨b, e⟩) hbe h
  exact gains_of_toList hs ht

theorem gains_of_eraseRange (hbe : b < e) (h : s.eraseRange b e = .ok (i, t)) : t.Gains b e s := by
  obtain ⟨front, back, hs, ht, -⟩ := toList_eraseRange (r := ⟨b, e⟩) hbe h
  exact gains_of_toList ht hs

/-- A range that is free is added; otherwise the least present key of it is named. -/
theorem run_add_cases (s : KeySpace) (hbe : b < e) (he : e ≤ maxKey + 1) :
    (∃ t, s.run (.add b e) = (.ok (some (s.toList.countP (· < b))), t) ∧ s.Gains b e t) ∨
      ∃ k, IsLeast {k | (b ≤ k ∧ k < e) ∧ k ∈ s.toList} k ∧
        s.run (.add b e) = (.error (.duplicateKey k), s) := by
  rcases s.addRange_spec (r := ⟨b, e⟩) hbe he with ⟨-, t, ht⟩ | ⟨k, hk, herror⟩
  · refine .inl ⟨t, run_of_outcome ?_, gains_of_addRange hbe ht⟩
    rw [outcome, ht, ← rank_eq_countP]
    rfl
  · simp only [Run.mem_keys] at hk
    refine .inr ⟨k, hk, run_of_error ?_⟩
    rw [outcome, herror]
    rfl

/-- A range that is full is erased; otherwise the least absent key of it is named. -/
theorem run_erase_cases (s : KeySpace) (hbe : b < e) :
    (∃ t, s.run (.erase b e) = (.ok (some (s.toList.countP (· < b))), t) ∧ t.Gains b e s) ∨
      ∃ k, IsLeast {k | (b ≤ k ∧ k < e) ∧ k ∉ s.toList} k ∧
        s.run (.erase b e) = (.error (.keyNotFound k), s) := by
  rcases s.eraseRange_spec (r := ⟨b, e⟩) hbe with ⟨-, t, ht⟩ | ⟨k, hk, herror⟩
  · refine .inl ⟨t, run_of_outcome ?_, gains_of_eraseRange hbe ht⟩
    rw [outcome, ht, ← rank_eq_countP]
    rfl
  · simp only [Run.mem_keys] at hk
    refine .inr ⟨k, hk, run_of_error ?_⟩
    rw [outcome, herror]
    rfl

/-- The range that was gained can be erased again, at the index that it was added at. -/
theorem Gains.run_erase (h : s.Gains b e t) (hbe : b < e) :
    t.run (.erase b e) = (.ok (some (s.toList.countP (· < b))), s) := by
  rcases t.run_erase_cases hbe with ⟨s', hrun, h'⟩ | ⟨k, ⟨⟨hk, habsent⟩, -⟩, -⟩
  · obtain rfl := h.unique h'
    rw [hrun, h.countP_below]
  · exact absurd ((h.keys k).mpr (.inl hk)) habsent

/-- A range that is free is added at the index that its first key gets, and one that is not is
refused with the least key in the way. A range that is full is erased at the index that its first
key had, and one that is not is refused with the least key that is missing. What is refused changes
nothing, and erasing what was just added leads back to where it was added. -/
theorem run_add_erase (s : KeySpace) (hbe : b < e) (he : e ≤ maxKey + 1) :
    (((∀ k ∈ s.toList, ¬ (b ≤ k ∧ k < e)) →
        ∃ t, s.run (.add b e) = (.ok (some (s.toList.countP (· < b))), t) ∧ s.Gains b e t) ∧
      ((∃ k ∈ s.toList, b ≤ k ∧ k < e) →
        ∃ k, IsLeast {k | (b ≤ k ∧ k < e) ∧ k ∈ s.toList} k ∧
          s.run (.add b e) = (.error (.duplicateKey k), s))) ∧
    (((∀ k, b ≤ k → k < e → k ∈ s.toList) →
        ∃ t, s.run (.erase b e) = (.ok (some (s.toList.countP (· < b))), t) ∧
          ∀ k, k ∈ t.toList ↔ k ∈ s.toList ∧ ¬ (b ≤ k ∧ k < e)) ∧
      ((∃ k, b ≤ k ∧ k < e ∧ k ∉ s.toList) →
        ∃ k, IsLeast {k | (b ≤ k ∧ k < e) ∧ k ∉ s.toList} k ∧
          s.run (.erase b e) = (.error (.keyNotFound k), s))) ∧
    ∀ answer t, s.run (.add b e) = (.ok answer, t) → t.run (.erase b e) = (.ok answer, s) := by
  refine ⟨⟨fun hfree => ?_, fun ⟨j, hj, hin⟩ => ?_⟩, ⟨fun hfull => ?_, fun ⟨j, hbj, hje, hj⟩ => ?_⟩,
    fun answer t hrun => ?_⟩
  · rcases s.run_add_cases hbe he with hadded | ⟨k, ⟨⟨hin, hk⟩, -⟩, -⟩
    · exact hadded
    · exact absurd hin (hfree k hk)
  · rcases s.run_add_cases hbe he with ⟨t, -, hgains⟩ | hrefused
    · exact absurd hin (hgains.free j hj)
    · exact hrefused
  · rcases s.run_erase_cases hbe with ⟨t, hrun, hgains⟩ | ⟨k, ⟨⟨hin, hk⟩, -⟩, -⟩
    · exact ⟨t, hrun, fun k => hgains.mem_iff⟩
    · exact absurd (hfull k hin.1 hin.2) hk
  · rcases s.run_erase_cases hbe with ⟨t, -, hgains⟩ | hrefused
    · exact absurd ((hgains.keys j).mpr (.inl ⟨hbj, hje⟩)) hj
    · exact hrefused
  · rcases s.run_add_cases hbe he with ⟨t', hrun', hgains⟩ | ⟨k, -, herror⟩
    · obtain ⟨hanswer, rfl⟩ := Prod.mk.inj (hrun.symm.trans hrun')
      rw [hgains.run_erase hbe, hanswer]
    · cases hrun.symm.trans herror

/-- Keys 5 and 6 fit in front of key 7 and can be erased again, but key 7 is in the way of more. -/
theorem run_add_erase_of_gap : ∃ s t : KeySpace, s.toList = [3, 7, 9] ∧
    s.run (.add 5 7) = (.ok (some 1), t) ∧ t.toList = [3, 5, 6, 7, 9] ∧ s.Gains 5 7 t ∧
    t.run (.erase 5 7) = (.ok (some 1), s) ∧
    s.run (.add 5 9) = (.error (.duplicateKey 7), s) := by
  let s : KeySpace := ⟨[⟨3, 4⟩, ⟨7, 8⟩, ⟨9, 10⟩], by simp [Spaced, maxKey]⟩
  let t : KeySpace := ⟨[⟨3, 4⟩, ⟨5, 8⟩, ⟨9, 10⟩], by simp [Spaced, maxKey]⟩
  have hs : s.toList = [3, 7, 9] := by decide +kernel
  have hadd : s.run (.add 5 7) = (.ok (some 1), t) := rfl
  obtain ⟨⟨hfree, -⟩, -, hundo⟩ := run_add_erase s (b := 5) (e := 7) (by decide) (by decide)
  obtain ⟨t', hrun, hgains⟩ := hfree (by decide +kernel)
  obtain ⟨-, rfl⟩ := Prod.mk.inj (hrun.symm.trans hadd)
  obtain ⟨⟨-, htaken⟩, -⟩ := run_add_erase s (b := 5) (e := 9) (by decide) (by decide)
  obtain ⟨k, ⟨⟨hin, hk⟩, -⟩, hrefused⟩ := htaken (by decide +kernel)
  obtain rfl : k = 7 := by
    rw [hs] at hk
    simp only [List.mem_cons, List.not_mem_nil, or_false] at hk
    omega
  exact ⟨s, _, hs, hadd, by decide +kernel, hgains, hundo _ _ hadd, hrefused⟩

/-! ## Moves -/

/-- A move leaves each row where it is: what becomes of a key has the index of the key. -/
theorem indexOf?_apply (ht : t.toList = s.toList.map m.apply) (hk : k ∈ s.toList) :
    t.indexOf? (m.apply k) = s.indexOf? k := by
  have hi := getElem?_rank hk
  have hmap : t.toList[s.rank k]? = some (m.apply k) := by
    rw [ht, List.getElem?_map, hi]
    rfl
  rw [indexOf?_eq_some_iff.mpr hi, indexOf?_eq_some_iff.mpr hmap]

/-- A move with a source is made just if no key leaves the key space and all keys keep their order.
Then the present keys are what becomes of them, as many as before, and each has the index that it
had. A move that is refused changes nothing. -/
theorem run_shift (s : KeySpace) (m : Move) :
    (m.start ≤ m.stop → ((∃ t, s.run (.shift m) = (.ok none, t)) ↔
      (∀ k ∈ s.toList, m.apply k ≤ maxKey) ∧ StrictMonoOn m.apply {k | k ∈ s.toList})) ∧
    (∀ answer t, s.run (.shift m) = (.ok answer, t) →
      (∀ k, k ∈ t.toList ↔ ∃ j ∈ s.toList, m.apply j = k) ∧ t.size = s.size ∧
        ∀ k ∈ s.toList, t.indexOf? (m.apply k) = s.indexOf? k) ∧
    (∀ error t, s.run (.shift m) = (.error error, t) → t = s) ∧
    (m.stop < m.start → ∃ error, s.run (.shift m) = (.error error, s)) := by
  rcases s.shift_spec m with ⟨hadmits, t, ht, hlist⟩ | ⟨hrefused, error, herror⟩
  · have hrun : s.run (.shift m) = (.ok none, t) :=
      run_of_outcome (by rw [outcome, ht]; rfl)
    refine ⟨fun _ => iff_of_true ⟨t, hrun⟩ ⟨hadmits.bounded, hadmits.mono⟩, fun answer t' h => ?_,
      fun error t' h => ?_, fun hreversed => absurd hadmits.forward (Nat.not_le.mpr hreversed)⟩
    · obtain ⟨-, rfl⟩ := Prod.mk.inj (h.symm.trans hrun)
      refine ⟨fun k => by rw [hlist, List.mem_map], ?_, fun k hk => indexOf?_apply hlist hk⟩
      rw [← length_toList, hlist, List.length_map, length_toList]
    · cases h.symm.trans hrun
  · have hrun : s.run (.shift m) = (.error error, s) :=
      run_of_error (by rw [outcome, herror]; rfl)
    refine ⟨fun hle => iff_of_false ?_ fun ⟨hbound, hmono⟩ => hrefused ⟨hle, hbound, hmono⟩,
      fun answer t h => ?_, fun error' t h => ?_, fun _ => ⟨error, hrun⟩⟩
    · rintro ⟨t, ht⟩
      cases ht.symm.trans hrun
    · cases h.symm.trans hrun
    · exact (Prod.mk.inj (h.symm.trans hrun)).2

/-- Three keys with gaps between them go up by two. The gap before key 10 is wide enough. -/
theorem run_shift_of_sparse : ∃ (s t : KeySpace) (m : Move), s.toList = [2, 3, 7, 10, 11] ∧
    m = ⟨2, 8, 4⟩ ∧ StrictMonoOn m.apply {k | k ∈ s.toList} ∧
    s.run (.shift m) = (.ok none, t) ∧ t.toList = [4, 5, 9, 10, 11] ∧
    t.size = s.size ∧ t.indexOf? (m.apply 7) = some 2 := by
  let s : KeySpace := ⟨[⟨2, 4⟩, ⟨7, 8⟩, ⟨10, 12⟩], by simp [Spaced, maxKey]⟩
  let t : KeySpace := ⟨[⟨4, 6⟩, ⟨9, 12⟩], by simp [Spaced, maxKey]⟩
  have hrun : s.run (.shift ⟨2, 8, 4⟩) = (.ok none, t) := by decide +kernel
  obtain ⟨hiff, hmade, -⟩ := run_shift s ⟨2, 8, 4⟩
  obtain ⟨-, hsize, hindex⟩ := hmade none t hrun
  have h7 : s.indexOf? 7 = some 2 := by decide +kernel
  exact ⟨s, t, ⟨2, 8, 4⟩, by decide +kernel, rfl, ((hiff (by decide)).mp ⟨t, hrun⟩).2, hrun,
    by decide +kernel, hsize, (hindex 7 (by decide +kernel)).trans h7⟩

end KeySpace

end LiveTables
