import LiveTables.Keys.Space
import LiveTables.Proofs.Keys.Runs
import LiveTables.Proofs.Outcome

/-!
# Key sets and key spaces as ascending lists

A key set and a key space are read as the ascending list of their keys. The index of a present key
is its position in the list (`KeySpace.indexOf?_eq_some_iff`). Where an operation on a range answers
with an index, the list is cut there: adding a run puts its keys between what is below and what is
above them (`KeySpace.toList_addRange`), erasing it joins the two (`KeySpace.toList_eraseRange`). So
the position at which the columns are cut is the one at which the keys are.

`KeySpace.positions` translates a set of keys to positions one run after another, and is the rank of
each key (`KeySpace.toList_positions`).
-/

namespace LiveTables

namespace KeySet

variable {s t : KeySet} {first stop k : Nat}

theorem ascending (s : KeySet) : s.toList.Pairwise (· < ·) := s.spaced.ascending

theorem nodup (s : KeySet) : s.toList.Nodup := s.ascending.imp Nat.ne_of_lt

theorem lt_maxKey (hk : k ∈ s.toList) : k < maxKey := (s.spaced.bounds hk).2

@[simp] theorem contains_iff : s.contains k = true ↔ k ∈ s.toList :=
  s.spaced.any_getLast?_takeWhile k

/-- The search for the one run that can hold a key goes the same as a search of all runs. -/
theorem contains_eq (s : KeySet) (k : Nat) : s.contains k = Runs.contains s.runs k := by
  rw [Bool.eq_iff_iff, contains_iff, Runs.contains_iff, toList]

@[simp] theorem length_toList (s : KeySet) : s.toList.length = s.size :=
  (Runs.length_toList _).trans s.size_eq.symm

/-- A key of a set has an index below the size. -/
theorem lt_size {i : Nat} (h : s.toList[i]? = some k) : i < s.size := by
  rw [← length_toList]
  exact (List.getElem?_eq_some_iff.mp h).1

/-- Sets that list the same keys are equal. -/
theorem ext_toList (h : s.toList = t.toList) : s = t := ext (s.spaced.eq_of_toList_eq t.spaced h)

/-- There is one set without keys. -/
theorem eq_empty (h : s.toList = []) : s = empty := ext_toList h

/-- The least keys of a set are a beginning of all of them. -/
theorem toList_take (s : KeySet) (n : Nat) : (s.take n).toList = s.toList.take n := by
  rw [take]
  split
  · rename_i hall
    rw [List.take_of_length_le (by rwa [length_toList])]
  · exact Runs.toList_take n s.runs

/-- Without its least keys a set has the others. -/
theorem toList_drop (s : KeySet) (n : Nat) : (s.drop n).toList = s.toList.drop n := by
  rw [drop]
  split
  · rename_i hnone
    rw [hnone, List.drop_zero]
  · split
    · rename_i hall
      rw [List.drop_of_length_le (by rwa [length_toList])]
      rfl
    · exact Runs.toList_drop n s.runs

/-- A range that is joined is added and counted. -/
theorem addRange_of_join {runs : List Run} (hpos : first < stop) (hmax : stop ≤ maxKey)
    (hjoin : Runs.join? first stop s.runs = some runs) :
    ∃ t, s.addRange first stop = .ok t ∧ t.runs = runs ∧ t.size = s.size + (stop - first) := by
  rw [addRange, dif_neg (by omega), dif_neg (by omega), dif_pos hmax]
  split
  · rename_i runs' hjoin'
    obtain rfl := Option.some.inj (hjoin.symm.trans hjoin')
    exact ⟨_, rfl, rfl, rfl⟩
  · rename_i hnone
    cases hjoin.symm.trans hnone

/-- A range that cannot be joined is refused. -/
theorem addRange_of_join_eq_none (hpos : first < stop) (hmax : stop ≤ maxKey)
    (hjoin : Runs.join? first stop s.runs = none) :
    s.addRange first stop = .error (.overlap first stop) := by
  rw [addRange, dif_neg (by omega), dif_neg (by omega), dif_pos hmax]
  split
  · rename_i runs hsome
    cases hjoin.symm.trans hsome
  · rfl

/-- A range is added just if none of its keys is in the set. -/
theorem addRange_spec (s : KeySet) (hpos : first < stop) (hmax : stop ≤ maxKey) :
    ((∀ k ∈ s.toList, ¬ (first ≤ k ∧ k < stop)) ∧ ∃ t, s.addRange first stop = .ok t ∧
        ∀ k, k ∈ t.toList ↔ (first ≤ k ∧ k < stop) ∨ k ∈ s.toList) ∨
      (∃ k ∈ s.toList, first ≤ k ∧ k < stop) ∧
        s.addRange first stop = .error (.overlap first stop) := by
  rcases s.spaced.join?_spec hpos with ⟨hfree, runs, hjoin, hmem⟩ | ⟨htaken, hjoin⟩
  · obtain ⟨t, ht, rfl, -⟩ := addRange_of_join hpos hmax hjoin
    exact .inl ⟨hfree, t, ht, hmem⟩
  · exact .inr ⟨htaken, addRange_of_join_eq_none hpos hmax hjoin⟩

/-- A range that was added is there with what was there before. -/
theorem mem_addRange (h : s.addRange first stop = .ok t) :
    k ∈ t.toList ↔ (first ≤ k ∧ k < stop) ∨ k ∈ s.toList := by
  by_cases hpos : first < stop
  · by_cases hmax : stop ≤ maxKey
    · rcases s.addRange_spec hpos hmax with ⟨-, t', ht', hmem⟩ | ⟨-, herror⟩
      · obtain rfl := Except.ok.inj (ht'.symm.trans h)
        exact hmem k
      · cases herror.symm.trans h
    · rw [addRange, dif_neg (by omega), dif_neg (by omega), dif_neg hmax] at h
      cases h
  · rw [addRange] at h
    split at h
    · cases h
    · rw [dif_pos (by omega)] at h
      obtain rfl := Except.ok.inj h
      have hempty : ¬ (first ≤ k ∧ k < stop) := by omega
      rw [or_iff_right hempty]

end KeySet

namespace KeySpace

variable {s t : KeySpace} {b e i k : Nat} {r : Run}

theorem ascending (s : KeySpace) : s.toList.Pairwise (· < ·) := s.spaced.ascending

theorem le_maxKey (hk : k ∈ s.toList) : k ≤ maxKey := Nat.le_of_lt_succ (s.spaced.bounds hk).2

@[simp] theorem contains_iff : s.contains k = true ↔ k ∈ s.toList := Runs.contains_iff

@[simp] theorem length_toList (s : KeySpace) : s.toList.length = s.size := Runs.length_toList _

/-! ## Indices -/

theorem rank_eq_countP (s : KeySpace) (k : Nat) : s.rank k = s.toList.countP (· < k) :=
  Runs.rank_eq_countP s.runs k

/-- The rank of a present key is its position. -/
theorem rank_eq_of_getElem? (hi : s.toList[i]? = some k) : s.rank k = i := by
  rw [rank_eq_countP, countP_lt_of_getElem? s.ascending hi]

theorem getElem?_rank (hk : k ∈ s.toList) : s.toList[s.rank k]? = some k := by
  obtain ⟨i, hi⟩ := List.getElem?_of_mem hk
  rwa [rank_eq_of_getElem? hi]

/-- The index of a key is its position among the present keys. -/
theorem indexOf?_eq_some_iff : s.indexOf? k = some i ↔ s.toList[i]? = some k := by
  rw [indexOf?]
  split
  · rename_i hk
    rw [contains_iff] at hk
    rw [Option.some_inj]
    refine ⟨?_, ?_⟩
    · rintro rfl
      exact getElem?_rank hk
    · exact rank_eq_of_getElem?
  · rename_i hk
    rw [contains_iff] at hk
    refine ⟨?_, ?_⟩
    · intro h
      cases h
    · exact fun hi => absurd (List.mem_of_getElem? hi) hk

/-- There are no more keys below a key than numbers. -/
theorem rank_le (s : KeySpace) (k : Nat) : s.rank k ≤ k := by
  have hbelow : (s.toList.filter (· < k)).length ≤ (List.range k).length := by
    refine (List.subperm_of_subset (s.ascending.nodup.filter _) fun j hj => ?_).length_le
    simpa using (List.mem_filter.mp hj).2
  rw [rank_eq_countP, List.countP_eq_length_filter]
  rwa [List.length_range] at hbelow

theorem rank_mono {j k : Nat} (hjk : j ≤ k) : s.rank j ≤ s.rank k := by
  rw [rank_eq_countP, rank_eq_countP]
  refine List.countP_mono_left fun x _ hx => ?_
  simp only [decide_eq_true_eq] at hx ⊢
  omega

/-- The rank of a key depends on the keys below it. -/
theorem rank_congr (h : ∀ j < k, j ∈ s.toList ↔ j ∈ t.toList) : s.rank k = t.rank k := by
  have hfilter : s.toList.filter (· < k) = t.toList.filter (· < k) := by
    refine (s.ascending.filter _).eq_of_mem_iff (t.ascending.filter _) fun j => ?_
    simp only [List.mem_filter, decide_eq_true_eq, and_congr_left_iff]
    exact h j
  rw [rank_eq_countP, rank_eq_countP, List.countP_eq_length_filter, List.countP_eq_length_filter,
    hfilter]

/-- A present key is counted from the next key on. -/
theorem rank_add_one_of_mem (hk : k ∈ s.toList) : s.rank (k + 1) = s.rank k + 1 := by
  rw [rank_eq_countP, rank_eq_countP, countP_lt_succ s.ascending hk]

/-- Along keys that are all present the rank grows with the key. -/
theorem rank_add (hall : ∀ k, b ≤ k → k < b + i → k ∈ s.toList) :
    s.rank (b + i) = s.rank b + i := by
  induction i with
  | zero => rfl
  | succ i ih =>
    have hmem : b + i ∈ s.toList := hall (b + i) (by omega) (by omega)
    rw [← Nat.add_assoc, rank_add_one_of_mem hmem, ih fun k h₁ h₂ => hall k h₁ (by omega),
      Nat.add_assoc]

/-- Along a run of present keys the rank grows by the width of the run. -/
theorem rank_stop (hpos : r.start < r.stop) (hall : ∀ k, r.start ≤ k → k < r.stop → k ∈ s.toList) :
    s.rank r.stop = s.rank r.start + r.width := by
  have hwidth : r.start + r.width = r.stop := by
    rw [Run.width]
    omega
  rw [← hwidth]
  exact rank_add fun k h₁ h₂ => hall k h₁ (by omega)

/-! ## Ranges -/

/-- All keys of a range are present just if the check for it succeeds. -/
theorem requirePresent_eq_ok_iff :
    s.requirePresent b e = .ok () ↔ ∀ k, b ≤ k → k < e → k ∈ s.toList := by
  obtain ⟨hle, hgap, hfull⟩ := s.spaced.firstGap_spec b
  rw [requirePresent]
  split
  · rename_i hend
    refine iff_of_true rfl fun k hbk hke => hfull k hbk (by omega)
  · rename_i hend
    refine iff_of_false (by simp) fun hall => hgap (hall _ hle (by omega))

/-- A range that was added lies between the keys below and the keys above it, and begins at the
index that was answered. -/
theorem toList_addRange (hr : r.start < r.stop) (h : s.addRange r.start r.stop = .ok (i, t)) :
    ∃ front back, s.toList = front ++ back ∧ t.toList = front ++ (r.keys ++ back) ∧
      front.length = i := by
  rw [addRange, if_neg (by omega), if_neg (by omega)] at h
  split at h
  · split at h
    · cases h
    · rename_i hfree
      rw [s.spaced.firstIn?_eq_none_iff] at hfree
      cases h
      obtain ⟨front, back, hsplit, hfront, hback, hlen⟩ := exists_split_at s.ascending r.start
      refine ⟨front, back, hsplit, ?_, by rw [rank_eq_countP, hlen]⟩
      have hasc := s.ascending
      rw [hsplit] at hasc
      obtain ⟨hascf, hascb, -⟩ := List.pairwise_append.mp hasc
      have habove : ∀ c ∈ back, r.stop ≤ c := fun c hc =>
        hfree c (by rw [← toList, hsplit]; exact List.mem_append_right _ hc) (hback c hc)
      -- ascending lists with the same members are the same
      refine List.Pairwise.eq_of_mem_iff (r := (· < ·)) (ascending _) ?_ fun k => ?_
      · refine List.pairwise_append.mpr ⟨hascf, List.pairwise_append.mpr
          ⟨List.pairwise_lt_range', hascb, fun a ha c hc => ?_⟩, fun a ha c hc => ?_⟩
        · have := habove c hc
          rw [Run.mem_keys] at ha
          omega
        · have := hfront a ha
          rcases List.mem_append.mp hc with hc | hc
          · rw [Run.mem_keys] at hc
            omega
          · have := habove c hc
            omega
      · rw [toList, Runs.mem_insert, ← toList, hsplit]
        simp only [List.mem_append, Run.mem_keys]
        exact or_left_comm
  · cases h

/-- There are no more rows in front of the first erased one than numbers in front of its key. -/
theorem index_le_of_eraseRange (hbe : b < e) (h : s.eraseRange b e = .ok (i, t)) : i ≤ b := by
  rw [eraseRange, if_neg (by omega), if_neg (by omega), bind_eq_ok] at h
  obtain ⟨-, -, h⟩ := h
  cases h
  exact s.rank_le b

/-- A range that was erased lay between the keys below and the keys above it, and began at the index
that was answered. -/
theorem toList_eraseRange (hr : r.start < r.stop) (h : s.eraseRange r.start r.stop = .ok (i, t)) :
    ∃ front back, s.toList = front ++ (r.keys ++ back) ∧ t.toList = front ++ back ∧
      front.length = i := by
  rw [eraseRange, if_neg (by omega), if_neg (by omega), bind_eq_ok] at h
  obtain ⟨⟨⟩, hpresent, h⟩ := h
  rw [requirePresent_eq_ok_iff] at hpresent
  cases h
  obtain ⟨front, rest, hsplit, hfront, hrest, hlen⟩ := exists_split_at s.ascending r.start
  have hasc := s.ascending
  rw [hsplit] at hasc
  obtain ⟨hascf, hascr, -⟩ := List.pairwise_append.mp hasc
  obtain ⟨mid, back, rfl, hmid, hback, -⟩ := exists_split_at hascr r.stop
  obtain ⟨hascm, hascb, -⟩ := List.pairwise_append.mp hascr
  have hmem : ∀ k, k ∈ s.toList ↔ k ∈ front ∨ k ∈ mid ∨ k ∈ back := fun k => by
    rw [hsplit, List.mem_append, List.mem_append]
  -- the middle holds the keys of the run and no other ones
  have hkeys : mid = r.keys := by
    refine hascm.eq_of_mem_iff List.pairwise_lt_range' fun k => ?_
    rw [Run.mem_keys]
    refine ⟨?_, ?_⟩
    · exact fun hk => ⟨hrest k (List.mem_append_left _ hk), hmid k hk⟩
    · intro hk
      rcases (hmem k).mp (hpresent k hk.1 hk.2) with hk' | hk' | hk'
      · have := hfront k hk'
        omega
      · exact hk'
      · have := hback k hk'
        omega
  refine ⟨front, back, by rw [hsplit, hkeys], ?_, by rw [rank_eq_countP, hlen]⟩
  refine List.Pairwise.eq_of_mem_iff (r := (· < ·)) (ascending _) ?_ fun k => ?_
  · refine List.pairwise_append.mpr ⟨hascf, hascb, fun a ha c hc => ?_⟩
    have := hfront a ha
    have := hback c hc
    omega
  · rw [toList, Runs.mem_erase, ← toList, hmem, List.mem_append, hkeys, Run.mem_keys]
    refine ⟨?_, ?_⟩
    · rintro ⟨hk | hk | hk, hout⟩
      · exact .inl hk
      · exact absurd hk hout
      · exact .inr hk
    · rintro (hk | hk)
      · have := hfront k hk
        exact ⟨.inl hk, by omega⟩
      · have := hback k hk
        exact ⟨.inr (.inr hk), by omega⟩

/-! ## Positions of a set of keys -/

/-- The ranks of the keys of a present run follow one another. -/
theorem map_rank_keys (hall : ∀ k, r.start ≤ k → k < r.stop → k ∈ s.toList) :
    r.keys.map s.rank = List.range' (s.rank r.start) r.width := by
  refine List.ext_getElem (by simp) fun j hj₁ hj₂ => ?_
  have hj : j < r.width := by simpa using hj₂
  rw [Run.width] at hj
  simp only [Run.keys, List.getElem_map, List.getElem_range', Nat.one_mul]
  exact rank_add fun k h₁ h₂ => hall k h₁ (by omega)

/-- Translating runs adds the ranks of their keys to what was found before, if all of that lies
further down. -/
theorem toList_foldlM_positions {rs : List Run} {low : Nat} (hrs : Spaced maxKey low rs)
    {found rows : KeySet} (hfound : ∀ p ∈ found.toList, p < s.rank low)
    (h : rs.foldlM (fun found r => do
      s.requirePresent r.start r.stop
      found.addRange (s.rank r.start) (s.rank r.start + r.width)) found = .ok rows) :
    rows.toList = found.toList ++ (Runs.toList rs).map s.rank ∧
      ∀ k ∈ Runs.toList rs, k ∈ s.toList := by
  induction rs generalizing low found with
  | nil =>
    cases h
    simp
  | cons r rs ih =>
    obtain ⟨hlow, hpos, -, hrest⟩ := hrs
    rw [List.foldlM_cons, bind_eq_ok] at h
    obtain ⟨found', hstep, h⟩ := h
    rw [bind_eq_ok] at hstep
    obtain ⟨⟨⟩, hpresent, hadd⟩ := hstep
    rw [requirePresent_eq_ok_iff] at hpresent
    have hstop := rank_stop hpos hpresent
    have hbelow : ∀ p ∈ found.toList, p < s.rank r.start := fun p hp =>
      Nat.lt_of_lt_of_le (hfound p hp) (rank_mono hlow)
    have hfound' : found'.toList = found.toList ++ r.keys.map s.rank := by
      rw [map_rank_keys hpresent]
      refine List.Pairwise.eq_of_mem_iff (r := (· < ·)) found'.ascending ?_ fun p => ?_
      · refine List.pairwise_append.mpr ⟨found.ascending, List.pairwise_lt_range', ?_⟩
        intro p hp q hq
        have := hbelow p hp
        have := (List.mem_range'_1.mp hq).1
        omega
      · rw [KeySet.mem_addRange hadd, List.mem_append, List.mem_range'_1, or_comm]
    -- the next run starts past `r.stop`, so its positions are above those found so far
    have hbelow' : ∀ p ∈ found'.toList, p < s.rank (r.stop + 1) := by
      intro p hp
      have hmono : s.rank r.stop ≤ s.rank (r.stop + 1) := rank_mono (Nat.le_succ _)
      rw [KeySet.mem_addRange hadd] at hp
      rcases hp with hp | hp
      · omega
      · have := hbelow p hp
        omega
    obtain ⟨hrows, hall⟩ := ih hrest hbelow' h
    refine ⟨?_, fun k hk => ?_⟩
    · rw [hrows, hfound', Runs.toList_cons, List.map_append, List.append_assoc]
    · rcases List.mem_append.mp hk with hk | hk
      · rw [Run.mem_keys] at hk
        exact hpresent k hk.1 hk.2
      · exact hall k hk

/-- The positions of a set of keys are their ranks, and all of the keys are present. -/
theorem toList_positions {keys rows : KeySet} (h : s.positions keys = .ok rows) :
    rows.toList = keys.toList.map s.rank ∧ ∀ k ∈ keys.toList, k ∈ s.toList :=
  toList_foldlM_positions keys.spaced (fun _ hp => absurd hp List.not_mem_nil) h

/-- A set of keys has as many positions as keys. -/
theorem size_positions {keys rows : KeySet} (h : s.positions keys = .ok rows) :
    rows.size = keys.size := by
  rw [← KeySet.length_toList, (toList_positions h).1, List.length_map, KeySet.length_toList]

/-- Every position of a set of keys is one of a row. -/
theorem lt_size_of_mem_positions {keys rows : KeySet} (h : s.positions keys = .ok rows) {p : Nat}
    (hp : p ∈ rows.toList) : p < s.size := by
  obtain ⟨hrows, hall⟩ := toList_positions h
  rw [hrows] at hp
  obtain ⟨k, hk, rfl⟩ := List.mem_map.mp hp
  have hget := getElem?_rank (hall k hk)
  rw [← length_toList]
  exact (List.getElem?_eq_some_iff.mp hget).1

end KeySpace

end LiveTables
