import LiveTables.Proofs.Keys.Checked
import LiveTables.Proofs.Keys.Sets

/-!
# Collecting the present keys

The present keys of a key space are made into a set key by key: each of them is joined to the run
before it or begins a new one, and the runs are then added to a set that grows. Since the keys come
in ascending order the runs are those of the key space (`Checked.runsOf_eq`), and none of them is in
the way of another one. So the set has the runs that are stored (`KeySpace.exists_rowKeys`).

Only the end of a run that has the greatest key of all is no machine word
(`KeySpace.rowKeys_eq_none_iff`).
-/

namespace LiveTables

namespace Checked

open Word

variable {s : KeySpace} {first stop low n k : Nat} {r : Run} {rs done : List Run}

/-! ## Growing a key set -/

namespace Builder

/-- No set has more keys than there are words, so the counter does not pass them. -/
theorem addRange_eq (keys : KeySet) (hstop : stop ≤ maxKey) :
    (builder keys).addRange first stop = some (builder <$> keys.addRange first stop) := by
  rw [Builder.addRange]
  split
  case isTrue hreversed =>
    rw [KeySet.addRange, dif_pos hreversed]
    rfl
  case isFalse hle =>
    split
    case isTrue hempty =>
      rw [KeySet.addRange, dif_neg hle, dif_pos hempty]
      rfl
    case isFalse hne =>
      have hpos : first < stop := by omega
      cases hjoin : Runs.join? first stop (builder keys).runs with
      | none =>
        rw [KeySet.addRange_of_join_eq_none hpos hstop hjoin]
        rfl
      | some runs =>
        obtain ⟨t, ht, rfl, hsize⟩ := KeySet.addRange_of_join hpos hstop hjoin
        have hcount : (builder keys).count + (stop - first) = t.size := hsize.symm
        have hmax := t.length_toList_le
        rw [KeySet.length_toList] at hmax
        rw [ht, sub?_eq_some (Nat.le_of_lt hpos)]
        simp only [Option.bind_eq_bind, Option.bind_some]
        rw [add?_eq_some (by omega), hcount]
        rfl

end Builder

/-- Runs that come in ascending order are added without a conflict. -/
theorem addRuns_eq {found : KeySet} (hrs : Spaced maxKey low rs)
    (hfound : ∀ k ∈ found.toList, k < low) : ∃ t : KeySet,
      addRuns rs (builder found) = some (.ok (builder t)) ∧
        ∀ k, k ∈ t.toList ↔ k ∈ found.toList ∨ k ∈ Runs.toList rs := by
  induction rs generalizing low found with
  | nil => exact ⟨found, rfl, fun k => by simp [Runs.toList]⟩
  | cons r rs ih =>
    obtain ⟨hlow, hpos, hstop, hrest⟩ := hrs
    rcases found.addRange_spec hpos hstop with ⟨-, t, ht, hmem⟩ | ⟨⟨k, hk, hin⟩, -⟩
    · have hahead : ∀ k ∈ t.toList, k < r.stop + 1 := fun k hk => by
        rcases (hmem k).mp hk with hin | hbefore
        · omega
        · have hlt := hfound k hbefore
          omega
      obtain ⟨t', ht', hmem'⟩ := ih hrest hahead
      refine ⟨t', ?_, fun k => ?_⟩
      · rw [addRuns, Builder.addRange_eq found hstop, ht]
        exact ht'
      · rw [hmem', hmem, Runs.toList_cons, List.mem_append, Run.mem_keys, or_assoc]
        exact or_left_comm
    · have hlt := hfound k hk
      omega

/-! ## Joining keys -/

/-- The keys behind a run make it longer. -/
theorem foldlM_pushKey_behind (hmax : r.stop + n ≤ maxKey) :
    (List.range' r.stop n).foldlM pushKey (r :: done) = some (⟨r.start, r.stop + n⟩ :: done) := by
  induction n generalizing r with
  | zero => rfl
  | succ n ih =>
    have hpush : pushKey (r :: done) r.stop = some (⟨r.start, r.stop + 1⟩ :: done) := by
      rw [pushKey, add?_eq_some (by omega)]
      exact congrArg some (if_pos rfl)
    have hrest := ih (r := ⟨r.start, r.stop + 1⟩) (by dsimp only; omega)
    rw [List.range'_succ, List.foldlM_cons, hpush, Option.bind_eq_bind, Option.bind_some]
    refine hrest.trans ?_
    rw [Nat.add_right_comm, Nat.add_assoc]

/-- The first key of a run that does not touch the one before begins a new run. -/
theorem pushKey_start (hmax : k < maxKey) (hapart : ∀ r ∈ done.head?, r.stop < k) :
    pushKey done k = some (⟨k, k + 1⟩ :: done) := by
  rw [pushKey, add?_eq_some hmax]
  cases done with
  | nil => rfl
  | cons r done =>
    have hlt := hapart r rfl
    exact congrArg some (if_neg (Nat.ne_of_lt hlt))

/-- The keys of runs in normal form are joined to these runs. -/
theorem foldlM_pushKey (hrs : Spaced maxKey low rs) (hapart : ∀ r ∈ done.head?, r.stop < low) :
    (Runs.toList rs).foldlM pushKey done = some (rs.reverse ++ done) := by
  induction rs generalizing low done with
  | nil => rfl
  | cons r rs ih =>
    obtain ⟨hlow, hpos, hstop, hrest⟩ := hrs
    have hwidth : r.width = (r.stop - (r.start + 1)) + 1 := by
      rw [Run.width]
      omega
    have hstart : pushKey done r.start = some (⟨r.start, r.start + 1⟩ :: done) :=
      pushKey_start (by omega) fun r' hr' => Nat.lt_of_lt_of_le (hapart r' hr') hlow
    have hbehind : (List.range' (r.start + 1) (r.stop - (r.start + 1))).foldlM pushKey
        (⟨r.start, r.start + 1⟩ :: done) = some (r :: done) := by
      refine (foldlM_pushKey_behind (r := ⟨r.start, r.start + 1⟩) (by dsimp only; omega)).trans ?_
      rw [Nat.add_sub_cancel' hpos]
    have happ : ∀ r' ∈ (r :: done).head?, r'.stop < r.stop + 1 := fun r' hr' => by
      obtain rfl := Option.some.inj hr'
      exact Nat.lt_succ_self _
    rw [Runs.toList_cons, List.foldlM_append, Run.keys, hwidth, List.range'_succ,
      List.foldlM_cons, hstart, Option.bind_eq_bind, Option.bind_some, hbehind, Option.bind_some,
      List.reverse_cons, List.append_assoc]
    exact ih hrest happ

theorem runsOf_eq (hrs : Spaced maxKey 0 rs) : runsOf (Runs.toList rs) = some rs := by
  have hapart : ∀ r ∈ ([] : List Run).head?, r.stop < 0 := fun _ hr => by cases hr
  rw [runsOf, foldlM_pushKey hrs hapart, Option.bind_eq_bind, Option.bind_some, List.append_nil,
    List.reverse_reverse]
  rfl

/-- There is no run that has the greatest key of all and an end. -/
theorem foldlM_pushKey_eq_none {ks : List Nat} (h : maxKey ∈ ks) :
    ks.foldlM pushKey done = none := by
  induction ks generalizing done with
  | nil => cases h
  | cons k ks ih =>
    rw [List.foldlM_cons]
    rcases List.mem_cons.mp h with rfl | hks
    · rw [pushKey, add?_eq_none (Nat.lt_succ_self _)]
      rfl
    · cases pushKey done k with
      | none => rfl
      | some done => exact ih hks

end Checked

namespace KeySpace

variable {s : KeySpace}

/-- The present keys are a set, unless the largest key of all is one of them. -/
theorem exists_rowKeys (h : maxKey ∉ s.toList) :
    ∃ keys, s.rowKeys = .ok keys ∧ keys.toList = s.toList ∧
      Checked.rowKeys s = some (.ok (Checked.builder keys)) := by
  have hstop : ∀ r ∈ s.runs, r.stop ≤ maxKey := by
    intro r hr
    refine Run.stop_le (s.spaced.of_mem hr).2.1 fun k hk => ?_
    have hmem : k ∈ s.toList := List.mem_flatMap.mpr ⟨r, hr, hk⟩
    exact Nat.lt_of_le_of_ne (le_maxKey hmem) fun hmax => h (hmax ▸ hmem)
  have hspaced : Spaced maxKey 0 s.runs := s.spaced.narrow hstop
  have hnone : ∀ k ∈ KeySet.empty.toList, k < 0 := nofun
  obtain ⟨t, ht, hmem⟩ := Checked.addRuns_eq hspaced hnone
  obtain rfl : t = ⟨s.runs, hspaced⟩ := KeySet.ext_mem fun k =>
    (hmem k).trans (or_iff_right List.not_mem_nil)
  refine ⟨_, dif_pos hstop, rfl, ?_⟩
  rw [Checked.rowKeys, toList, Checked.runsOf_eq hspaced]
  exact ht

/-- Collecting the present keys needs no sum that is not a word, unless the largest key of all is
one of them. -/
theorem rowKeys_eq_none_iff : Checked.rowKeys s = none ↔ maxKey ∈ s.toList := by
  refine ⟨fun hnone => ?_, fun h => ?_⟩
  · by_contra h
    obtain ⟨keys, -, -, hkeys⟩ := exists_rowKeys h
    cases hnone.symm.trans hkeys
  · rw [Checked.rowKeys, Checked.runsOf, Checked.foldlM_pushKey_eq_none h]
    rfl

end KeySpace

end LiveTables
