import LiveTables.Keys.Checked
import LiveTables.Proofs.Keys.Counting
import LiveTables.Proofs.Keys.Move

/-!
# Key spaces in machine words

What is computed on a key space in machine words is what its operations say, and all sums and
differences are words. Three facts carry this. Ranks grow with the key and are never greater than
it, so differences of ranks are taken the right way round and sums of ranks are words. A bisection
has the gap that it looks for between its ends (`Checked.bisect_eq`). And where the keys of a move
are taken one by one, each of them is a source key. It is not less than the distance if the move
goes down, and it lands by a place that was checked if the move goes up.
-/

namespace LiveTables

namespace Checked

open Word

variable {s : KeySpace} {b e k : Nat}

/-! ## Counting keys -/

theorem countBelow_eq (s : KeySpace) (k : Nat) : countBelow s k = some (s.rank k) := by
  rw [countBelow]
  split
  case isTrue hk => rw [hk, KeySpace.rank_zero]
  case isFalse hk =>
    have hpos : 1 ≤ k := Nat.one_le_iff_ne_zero.mpr hk
    rw [sub?_eq_some hpos, Option.bind_eq_bind, Option.bind_some, KeySpace.upTo,
      Nat.sub_add_cancel hpos]
    rfl

/-- The ranks of the ends of a range are subtracted the right way round. -/
theorem countIn_eq (hbe : b ≤ e) : countIn s b e = some (s.rank e - s.rank b) := by
  rw [countIn, countBelow_eq, countBelow_eq]
  exact sub?_eq_some (KeySpace.rank_mono hbe)

theorem firstFrom?_eq (s : KeySpace) (k : Nat) :
    firstFrom? s k = some (Runs.firstFrom? s.runs k) := by
  rw [firstFrom?, countBelow_eq, KeySpace.firstFrom?_eq]
  rfl

/-- No rank is greater than its key, so there is no position past the machine words. -/
theorem keysIn_eq (hbe : b ≤ e) (he : e ≤ maxKey) :
    keysIn s b e = some (Runs.toList (Runs.within b e s.runs)) := by
  have hrank := s.rank_le e
  have hstop : s.rank b + (s.rank e - s.rank b) = s.rank e :=
    Nat.add_sub_cancel' (KeySpace.rank_mono hbe)
  rw [keysIn, countBelow_eq, countIn_eq hbe, ← KeySpace.filterMap_keyAt?]
  simp only [Option.bind_eq_bind, Option.bind_some]
  rw [add?_eq_some (by omega), hstop]
  rfl

theorem indexOf?_eq (s : KeySpace) (k : Nat) : indexOf? s k = some (s.indexOf? k) := by
  rw [indexOf?, KeySpace.indexOf?, countBelow_eq]
  split <;> rfl

/-! ## Looking for a missing key -/

theorem followsAt_eq {mid : Nat} (hmax : b + mid ≤ maxKey) :
    followsAt s b (s.rank b) mid = some (decide (b + mid < Runs.firstGap s.runs b)) := by
  have hrank := s.rank_le b
  rw [followsAt, add?_eq_some (by omega), add?_eq_some hmax]
  simp only [Option.bind_eq_bind, Option.bind_some, KeySpace.keyAt?_rank_add_iff]
  rfl

/-- The bisection finds the gap that it has between its ends. -/
theorem bisect_eq {lo hi : Nat} (hlo : b + lo ≤ Runs.firstGap s.runs b)
    (hhi : Runs.firstGap s.runs b ≤ b + hi) (hmax : b + hi ≤ maxKey) :
    bisect s b (s.rank b) lo hi = some (Runs.firstGap s.runs b - b) := by
  induction hwidth : hi - lo using Nat.strong_induction_on generalizing lo hi with
  | _ width ih =>
    -- either half that is left has the gap between its ends again
    rw [bisect]
    split
    case isFalse hend =>
      have hfound : Runs.firstGap s.runs b - b = lo := by omega
      rw [hfound]
    case isTrue hpos =>
      have hmiddle := middle_eq_some (Nat.le_of_lt hpos) (by omega)
      split
      case h_1 hnone => cases hmiddle.symm.trans hnone
      case h_2 mid hmid =>
        obtain ⟨hlomid, hmidhi⟩ := middle_mem hpos hmid
        rw [followsAt_eq (by omega), Option.bind_some]
        by_cases hlt : b + mid < Runs.firstGap s.runs b
        · rw [decide_eq_true hlt]
          dsimp only
          have hsucc := add?_eq_some (a := mid) (b := 1) (by omega)
          split
          case h_1 hnone => cases hsucc.symm.trans hnone
          case h_2 next hnext =>
            obtain ⟨-, rfl⟩ := add?_eq_some_iff.mp hnext
            exact ih _ (by omega) (by omega) hhi hmax rfl
        · rw [decide_eq_false hlt]
          exact ih _ (by omega) hlo (by omega) (by omega) rfl

/-- A range is counted, and bisected only if it is not full. -/
theorem requirePresent_eq (hbe : b ≤ e) (he : e ≤ maxKey) :
    requirePresent s b e = some (s.requirePresent b e) := by
  obtain ⟨hle, -, -⟩ := s.spaced.firstGap_spec b
  rw [requirePresent, countIn_eq hbe, sub?_eq_some hbe, countBelow_eq, KeySpace.requirePresent]
  simp only [Option.bind_eq_bind, Option.bind_some, KeySpace.rank_sub_eq_iff hbe]
  split
  case isTrue => rfl
  case isFalse hlt =>
    rw [bisect_eq (by omega) (by omega) (by omega), Option.bind_some, add?_eq_some (by omega),
      Nat.add_sub_cancel' hle]
    rfl

/-! ## Changing a key space -/

/-- A range of keys is inserted whole. -/
theorem insertRange_eq (he : e ≤ maxKey + 1) :
    s.insertRange b e = ⟨Runs.insert b e s.runs, s.spaced.insert he⟩ := by
  simp only [KeySpace.insertRange, Nat.min_eq_left he]

/-- What is added is counted from the ranks of its ends, and its index is counted afterwards. -/
theorem addRange_eq (he : e ≤ maxKey) : addRange s b e = some (s.addRange b e) := by
  rw [addRange, KeySpace.addRange]
  split
  case isTrue => rfl
  case isFalse hle =>
    split
    case isTrue => rfl
    case isFalse hne =>
      have hbe : b ≤ e := Nat.not_lt.mp hle
      have hword : e ≤ maxKey + 1 := Nat.le_succ_of_le he
      have hmono := KeySpace.rank_mono (s := s) hbe
      rw [dif_pos hword, countIn_eq hbe, firstFrom?_eq, countBelow_eq, insertRange_eq hword]
      simp only [Option.bind_eq_bind, Option.bind_some]
      cases hk : Runs.firstIn? s.runs b e with
      | some k =>
        obtain ⟨hmem, hbk, hke, -⟩ := s.spaced.firstIn?_eq_some hk
        have htaken : s.rank e - s.rank b ≠ 0 := fun hzero => by
          have hfree := (KeySpace.rank_eq_iff hbe).mp (by omega) k hmem hbk
          omega
        rw [if_pos htaken, (Option.filter_eq_some_iff.mp hk).1]
        rfl
      | none =>
        have hfree := s.spaced.firstIn?_eq_none_iff.mp hk
        have hzero : s.rank e - s.rank b = 0 := by
          have heq := (KeySpace.rank_eq_iff hbe).mpr hfree
          omega
        -- what was inserted is not below its own beginning
        have hindex : s.rank b = KeySpace.rank ⟨_, s.spaced.insert hword⟩ b :=
          KeySpace.rank_congr fun j hj => by
            have hout : ¬ (b ≤ j ∧ j < e) := by omega
            rw [KeySpace.toList, KeySpace.toList, Runs.mem_insert, or_iff_right hout]
        rw [if_neg (not_not.mpr hzero), hindex]
        rfl

theorem eraseRange_eq (he : e ≤ maxKey) : eraseRange s b e = some (s.eraseRange b e) := by
  rw [eraseRange, KeySpace.eraseRange]
  split
  case isTrue => rfl
  case isFalse hle =>
    split
    case isTrue => rfl
    case isFalse =>
      rw [requirePresent_eq (Nat.not_lt.mp hle) he, countBelow_eq, Option.bind_eq_bind,
        Option.bind_some]
      cases s.requirePresent b e <;> rfl

theorem mem_insertKey (hk : k ≤ maxKey) {j : Nat} :
    j ∈ (s.insertKey k).toList ↔ j = k ∨ j ∈ s.toList := by
  rw [KeySpace.insertKey, insertRange_eq (Nat.succ_le_succ hk), KeySpace.toList, Runs.mem_insert,
    ← KeySpace.toList]
  refine or_congr_left ?_
  omega

theorem mem_removeKey {j : Nat} : j ∈ (s.removeKey k).toList ↔ j ∈ s.toList ∧ j ≠ k := by
  rw [KeySpace.removeKey, KeySpace.removeRange, KeySpace.toList, Runs.mem_erase, ← KeySpace.toList]
  refine and_congr_right fun _ => ?_
  omega

/-- Keys can be replaced one by one if none of them lands on a key that has yet to move. -/
theorem relocate_spec {target? : Nat → Option Nat} {target : Nat → Nat} {ks : List Nat}
    (htarget : ∀ k ∈ ks, target? k = some (target k) ∧ target k ≤ maxKey)
    (hclear : ks.Pairwise fun j k => target j ≠ k) :
    ∃ t, relocate target? ks s = some t ∧
      ∀ k, k ∈ t.toList ↔ (∃ j ∈ ks, target j = k) ∨ (k ∈ s.toList ∧ k ∉ ks) := by
  induction ks generalizing s with
  | nil => exact ⟨s, rfl, fun k => by simp⟩
  | cons k ks ih =>
    obtain ⟨hfirst, hrest⟩ := List.forall_mem_cons.mp htarget
    obtain ⟨hahead, hclear⟩ := List.pairwise_cons.mp hclear
    obtain ⟨t, ht, hmem⟩ := ih (s := (s.removeKey k).insertKey (target k)) hrest hclear
    refine ⟨t, by rw [relocate, hfirst.1]; exact ht, fun j => ?_⟩
    rw [hmem, mem_insertKey hfirst.2, mem_removeKey]
    -- the key that was just put there is not taken away again
    have hkept : target k ∉ ks := fun h => hahead _ h rfl
    by_cases hj : j = target k
    · simp [hj, hkept]
    · simp [hj, Ne.symm hj, and_assoc]

/-! ## Making one move -/

section Shift

variable {m : Move} {first last : Nat}

/-- The source keys of a move, as they are listed. -/
def sourceOf (s : KeySpace) (m : Move) : List Nat :=
  Runs.toList (Runs.within m.start m.stop s.runs)

theorem mem_sourceOf : k ∈ sourceOf s m ↔ k ∈ s.toList ∧ m.covers k := Runs.mem_within

/-- No key leaves the key space just if the last source key does not. -/
theorem landing_bounded_iff_last (hlast : last ∈ s.toList ∧ m.covers last)
    (hsource : ∀ k ∈ s.toList, m.covers k → k ≤ last) :
    (∀ r ∈ (Runs.within m.start m.stop s.runs).map m.moved, r.stop ≤ maxKey + 1) ↔
      m.target last ≤ maxKey := by
  rw [KeySpace.landing_bounded_iff]
  refine ⟨fun h => ?_, fun h k hk => ?_⟩
  · have hbound := h last hlast.1
    rwa [Move.apply_of_covers hlast.2] at hbound
  · by_cases hc : m.covers k
    · have hle := hsource k hk hc
      rw [Move.apply_of_covers hc]
      rw [Move.target] at h ⊢
      omega
    · rw [Move.apply_of_not_covers hc]
      exact KeySpace.le_maxKey hk

/-- The way is the one that is searched, told by its last key, unless the last source key would
leave the key space. If it does not there is a key behind it, and there is one in front of the first
source key if the move goes down. -/
theorem way_eq (hdest : m.start ≠ m.dest) (hfirst : m.covers first) (hlast : m.covers last)
    (hmax : last ≤ maxKey) :
    way m first last = some (if m.target last ≤ maxKey then
      .ok ((KeySpace.crossed m first last).1, (KeySpace.crossed m first last).2 - 1)
      else .error (.protocol (.shiftLeavesKeySpace m.start m.stop m.dest last))) := by
  rw [Move.covers] at hfirst hlast
  rw [way, KeySpace.crossed]
  split
  case isTrue hup =>
    have htarget : last + (m.dest - m.start) = m.target last := by
      rw [Move.target]
      omega
    rw [sub?_eq_some (Nat.le_of_lt hup), Option.bind_eq_bind, Option.bind_some]
    split
    case h_1 hnone =>
      have hout : ¬ m.target last ≤ maxKey := fun hle => by
        rw [add?_eq_some (by omega)] at hnone
        cases hnone
      rw [if_neg hout]
      rfl
    case h_2 landing hsome =>
      obtain ⟨hle, rfl⟩ := add?_eq_some_iff.mp hsome
      rw [if_pos (by omega), add?_eq_some (by omega), htarget]
      rfl
  case isFalse hup =>
    have htarget : first - (m.start - m.dest) = m.target first := by
      rw [Move.target]
      omega
    have hle : m.target last ≤ maxKey := by
      rw [Move.target]
      omega
    rw [sub?_eq_some (by omega), Option.bind_eq_bind, Option.bind_some, sub?_eq_some (by omega),
      sub?_eq_some (by omega), if_pos hle, htarget]
    rfl

/-- A key is landed on just if its origin is a source key. -/
theorem origin?_spec (s : KeySpace) (m : Move) (k : Nat) :
    ∃ o, origin? m k = some o ∧
      (o.any fun o => m.start ≤ o && o < m.stop && s.contains o) =
        Runs.contains ((Runs.within m.start m.stop s.runs).map m.moved) k := by
  have hland : Runs.contains ((Runs.within m.start m.stop s.runs).map m.moved) k = true ↔
      ∃ j, j ∈ s.toList ∧ m.covers j ∧ m.target j = k := by
    rw [Runs.contains_iff, KeySpace.mem_landing]
  have hsource : ∀ j, (m.start ≤ j && j < m.stop && s.contains j) = true ↔
      (m.start ≤ j ∧ j < m.stop) ∧ j ∈ s.toList := fun j => by simp
  rw [origin?]
  split
  case isTrue hup =>
    rw [sub?_eq_some (Nat.le_of_lt hup)]
    refine ⟨_, rfl, ?_⟩
    rw [Bool.eq_iff_iff, hland, Option.any_eq_true]
    refine exists_congr fun j => ?_
    rw [sub?_eq_some_iff, hsource, Move.covers, Move.target]
    refine ⟨?_, ?_⟩
    · rintro ⟨⟨hle, hj⟩, hc, hmem⟩
      exact ⟨hmem, hc, by omega⟩
    · rintro ⟨hmem, hc, hk⟩
      exact ⟨⟨by omega, by omega⟩, hc, hmem⟩
  case isFalse hup =>
    rw [sub?_eq_some (by omega)]
    refine ⟨_, rfl, ?_⟩
    rw [Bool.eq_iff_iff, hland, Option.any_eq_true]
    refine exists_congr fun j => ?_
    rw [add?_eq_some_iff, hsource, Move.covers, Move.target]
    refine ⟨?_, ?_⟩
    · rintro ⟨⟨hle, hj⟩, hc, hmem⟩
      exact ⟨hmem, hc, by omega⟩
    · -- no present key is past the words, so neither is the origin
      rintro ⟨hmem, hc, hk⟩
      have hmax := KeySpace.le_maxKey hmem
      exact ⟨⟨by omega, by omega⟩, hc, hmem⟩

/-- Source keys can be moved one by one, in the order that is taken. -/
theorem moveKeys_spec (hbound : ∀ k ∈ sourceOf s m, m.target k ≤ maxKey) :
    ∃ t, moveKeys s m (sourceOf s m) = some t ∧ ∀ k, k ∈ t.toList ↔
      (∃ j ∈ sourceOf s m, m.target j = k) ∨ (k ∈ s.toList ∧ k ∉ sourceOf s m) := by
  have hascending : (sourceOf s m).Pairwise (· < ·) :=
    (s.spaced.within (b := m.start) (e := m.stop)).ascending
  have hcovers : ∀ k ∈ sourceOf s m, m.covers k := fun k hk => (mem_sourceOf.mp hk).2
  rw [moveKeys]
  split
  case isTrue hup =>
    -- upward the greatest key goes first, and no key lands on one that is less than itself
    rw [sub?_eq_some (Nat.le_of_lt hup), Option.bind_eq_bind, Option.bind_some]
    have htarget : ∀ k ∈ (sourceOf s m).reverse,
        add? k (m.dest - m.start) = some (m.target k) ∧ m.target k ≤ maxKey := fun k hk => by
      rw [List.mem_reverse] at hk
      have hle := hbound k hk
      have hc := hcovers k hk
      rw [Move.covers] at hc
      rw [Move.target] at hle ⊢
      rw [add?_eq_some (by omega)]
      exact ⟨congrArg some (by omega), hle⟩
    obtain ⟨t, ht, hmem⟩ := relocate_spec (s := s) htarget (List.pairwise_reverse.mpr
      (hascending.imp fun hlt => by rw [Move.target]; omega))
    exact ⟨t, ht, fun k => by simpa only [List.mem_reverse] using hmem k⟩
  case isFalse hup =>
    rw [sub?_eq_some (by omega), Option.bind_eq_bind, Option.bind_some]
    have htarget : ∀ k ∈ sourceOf s m,
        sub? k (m.start - m.dest) = some (m.target k) ∧ m.target k ≤ maxKey := fun k hk => by
      have hle := hbound k hk
      have hc := hcovers k hk
      rw [Move.covers] at hc
      rw [Move.target] at hle ⊢
      rw [sub?_eq_some (by omega)]
      exact ⟨congrArg some (by omega), hle⟩
    refine relocate_spec htarget (hascending.imp_of_mem fun {j k} hj hk hlt => ?_)
    have hc := hcovers j hj
    rw [Move.covers] at hc
    rw [Move.target]
    omega

/-- To move the source keys one by one comes to moving their runs. -/
theorem moveKeys_eq
    (hland : ∀ r ∈ (Runs.within m.start m.stop s.runs).map m.moved, r.stop ≤ maxKey + 1) :
    moveKeys s m (sourceOf s m) = some ⟨Runs.insertAll
      ((Runs.within m.start m.stop s.runs).map m.moved) (Runs.erase m.start m.stop s.runs),
      s.spaced.erase.insertAll hland⟩ := by
  obtain ⟨t, ht, hmem⟩ := moveKeys_spec (s := s) (m := m) fun k hk => by
    have hbound := KeySpace.landing_bounded_iff.mp hland k (mem_sourceOf.mp hk).1
    rwa [Move.apply_of_covers (mem_sourceOf.mp hk).2] at hbound
  refine ht.trans (congrArg some (KeySpace.ext_of_mem fun k => ?_))
  rw [hmem, KeySpace.toList, KeySpace.toList, Runs.mem_insertAll, KeySpace.mem_landing,
    Runs.mem_erase, ← KeySpace.toList]
  refine or_congr ?_ (and_congr_right fun hk => ?_)
  · simp only [mem_sourceOf, and_assoc]
  · rw [mem_sourceOf, and_iff_right hk, Move.covers]

/-- The way of a move is not empty, so a key is on it just if it is at most the last one. -/
theorem filter_way (hdest : m.start ≠ m.dest) (hfirst : m.covers first) (s : KeySpace)
    (last : Nat) :
    (Runs.firstFrom? s.runs (KeySpace.crossed m first last).1).filter
        (· ≤ (KeySpace.crossed m first last).2 - 1) =
      Runs.firstIn? s.runs (KeySpace.crossed m first last).1
        (KeySpace.crossed m first last).2 := by
  have hpos : 0 < (KeySpace.crossed m first last).2 := by
    rw [Move.covers] at hfirst
    rw [KeySpace.crossed]
    split
    · exact Nat.succ_pos _
    · simp only
      omega
  rw [Runs.firstIn?]
  congr 1
  funext k
  exact decide_eq_decide.mpr (by omega)

/-- Once the source keys are listed, the move is made or refused as it is on runs. -/
theorem shiftKeys_eq {low high : Run} (hpos : m.start < m.stop) (hdest : m.start ≠ m.dest)
    (hlow : (Runs.within m.start m.stop s.runs).head? = some low)
    (hhigh : (Runs.within m.start m.stop s.runs).getLast? = some high)
    (hfirst : m.covers low.start) (hlast : high.last ∈ s.toList ∧ m.covers high.last)
    (hsource : ∀ k ∈ s.toList, m.covers k → k ≤ high.last) :
    shiftKeys s m (sourceOf s m) low.start high.last = some (s.shift m) := by
  have hland := landing_bounded_iff_last hlast hsource
  have hforward : ¬ m.stop < m.start := by omega
  have hmoves : ¬ (m.start = m.stop ∨ m.start = m.dest) := by omega
  rw [shiftKeys, way_eq hdest hfirst hlast.2 (KeySpace.le_maxKey hlast.1), KeySpace.shift,
    if_neg hforward, if_neg hmoves]
  simp only [hlow, hhigh]
  split
  case isFalse hout =>
    rw [dif_neg (mt hland.mp hout)]
    rfl
  case isTrue hin =>
    rw [dif_pos (hland.mpr hin), Option.bind_eq_bind, Option.bind_some]
    dsimp only
    rw [firstFrom?_eq, Option.bind_eq_bind, Option.bind_some, filter_way hdest hfirst s high.last,
      moveKeys_eq (hland.mpr hin)]
    cases Runs.firstIn? s.runs (KeySpace.crossed m low.start high.last).1
        (KeySpace.crossed m low.start high.last).2 with
    | some k =>
      obtain ⟨o, ho, hany⟩ := origin?_spec s m k
      simp only [ho, Option.bind_some, hany]
      split <;> rfl
    | none => rfl

/-- A move is made in words just as it is made on runs. -/
theorem shift_eq (hstop : m.stop ≤ maxKey) : shift s m = some (s.shift m) := by
  rw [shift]
  split
  case isTrue hreversed =>
    rw [KeySpace.shift, if_pos hreversed]
    rfl
  case isFalse hle =>
    split
    case isTrue hstill =>
      rw [KeySpace.shift, if_neg hle, if_pos hstill]
      rfl
    case isFalse hmoves =>
      have hspaced : Spaced (maxKey + 1) 0 (Runs.within m.start m.stop s.runs) := s.spaced.within
      rw [keysIn_eq (Nat.not_lt.mp hle) hstop, Option.bind_eq_bind, Option.bind_some,
        hspaced.head?_toList, hspaced.getLast?_toList]
      rcases s.within_cases m with ⟨hnone, -⟩ | ⟨low, high, hlow, hhigh, hfirst, hlast, hsource⟩
      · rw [KeySpace.shift, if_neg hle, if_neg hmoves]
        simp only [hnone]
        rfl
      · rw [hlow, hhigh]
        exact shiftKeys_eq (by omega) (by omega) hlow hhigh hfirst.2 hlast
          fun k hk hc => (hsource k hk hc).2

end Shift

end Checked

end LiveTables
