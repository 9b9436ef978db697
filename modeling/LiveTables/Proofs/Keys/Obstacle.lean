import LiveTables.Proofs.Keys.Move
import Mathlib.Order.Bounds.Basic

/-!
# What a move is refused for

A present key outside the source of a move is in its way if a source key lands on it or passes it.
The two are faults of different kinds: a collision is a duplicate key, and a key that is only passed
would change its place in the order, which the protocol does not allow.

There may be many keys in the way, and the library looks at the least one (`KeySpace.firstIn?` on
the way from the source to its landing place). So it is the kind of this key that decides about the
error (`KeySpace.shift_eq_error_iff`). If a collision is behind a key that is only passed, the move
is refused for the latter, and the collision is not told. That is the one case in which the kinds of
errors do not say what the kinds of faults are (`KeySpace.classified_iff`).
-/

namespace LiveTables

namespace KeySpace

variable {s : KeySpace} {m : Move} {e : Error} {k first last : Nat}

/-- A present key outside the source, at which a source key lands. -/
def Collides (s : KeySpace) (m : Move) (k : Nat) : Prop :=
  k ∈ s.toList ∧ ¬ m.covers k ∧ ∃ j ∈ s.toList, m.covers j ∧ m.target j = k

/-- A present key outside the source that would change its order relative to a source key. -/
def Passed (s : KeySpace) (m : Move) (k : Nat) : Prop :=
  k ∈ s.toList ∧ ¬ m.covers k ∧
    ∃ j ∈ s.toList, m.covers j ∧ ((j < k ∧ k < m.target j) ∨ (m.target j < k ∧ k < j))

/-- A key in the way of a move. -/
def Hinders (s : KeySpace) (m : Move) (k : Nat) : Prop := s.Collides m k ∨ s.Passed m k

/-- A key is in the way just if a source key comes to it or past it. -/
theorem hinders_iff (hdest : m.start ≠ m.dest) : s.Hinders m k ↔
    k ∈ s.toList ∧ ¬ m.covers k ∧
      ∃ j ∈ s.toList, m.covers j ∧ ((j < k ∧ k ≤ m.target j) ∨ (m.target j ≤ k ∧ k < j)) := by
  rw [Hinders, Collides, Passed, ← and_or_left, ← and_or_left, ← exists_or]
  refine and_congr_right fun _ => and_congr_right fun _ => exists_congr fun j => ?_
  rw [← and_or_left, ← and_or_left]
  refine and_congr_right fun _ => and_congr_right fun hj => ?_
  rw [Move.covers] at hj
  rw [Move.target]
  omega

/-- The keys in the way are those between the outermost source key and its landing place. -/
theorem hinders_iff_crossed (hdest : m.start ≠ m.dest) (hfirst : first ∈ s.toList ∧ m.covers first)
    (hlast : last ∈ s.toList ∧ m.covers last)
    (hsource : ∀ k ∈ s.toList, m.covers k → first ≤ k ∧ k ≤ last) :
    s.Hinders m k ↔ k ∈ s.toList ∧ (crossed m first last).1 ≤ k ∧ k < (crossed m first last).2 := by
  obtain ⟨hfl, hfc⟩ := hfirst
  obtain ⟨hll, hlc⟩ := hlast
  rw [hinders_iff hdest, crossed]
  refine and_congr_right fun hk => ⟨?_, fun hway => ?_⟩
  · rintro ⟨hout, j, hj, hjc, hmeets⟩
    have hbetween := hsource j hj hjc
    simp only [Move.covers, Move.target] at hout hjc hfc hlc hmeets ⊢
    split <;> simp only <;> omega
  · have hout : ¬ m.covers k := fun hc => by
      have hbetween := hsource k hk hc
      split at hway <;> simp only at hway <;> omega
    -- of all source keys it is the outermost one that gets to `k`
    split at hway <;> rename_i hdir <;> simp only at hway
    · exact ⟨hout, last, hll, hlc, by omega⟩
    · exact ⟨hout, first, hfl, hfc, by omega⟩

/-- The error for a key in the way. -/
def RefusedFor (s : KeySpace) (m : Move) (k : Nat) (e : Error) : Prop :=
  (s.Collides m k ∧ e = .duplicateKey k) ∨
    (¬ s.Collides m k ∧ e = .protocol (.shiftPassesKey m.start m.stop m.dest k))

theorem RefusedFor.unique {e' : Error} (h : s.RefusedFor m k e) (h' : s.RefusedFor m k e') :
    e = e' := by
  rcases h with ⟨hcol, rfl⟩ | ⟨hcol, rfl⟩
  · rcases h' with ⟨-, rfl⟩ | ⟨hcol', -⟩
    · rfl
    · exact absurd hcol hcol'
  · rcases h' with ⟨hcol', -⟩ | ⟨-, rfl⟩
    · exact absurd hcol' hcol
    · rfl

/-- A move that keeps its keys in the key space is made if there is no key in the way, and is
otherwise refused for the least of them. -/
theorem shift_cases (hpos : m.start < m.stop) (hdest : m.start ≠ m.dest)
    (hbound : ∀ k ∈ s.toList, m.covers k → m.target k ≤ maxKey) :
    ((∀ k, ¬ s.Hinders m k) ∧ ∃ t, s.shift m = .ok t) ∨
      ∃ k e, IsLeast {k | s.Hinders m k} k ∧ s.RefusedFor m k e ∧ s.shift m = .error e := by
  rw [shift, if_neg (by omega), if_neg (by omega)]
  rcases s.within_cases m with ⟨hnone, hout⟩ | ⟨low, high, hlow, hhigh, hfirst, hlast, hsource⟩
  · simp only [hnone]
    refine .inl ⟨fun k hk => ?_, s, rfl⟩
    obtain ⟨-, -, j, hj, hjc, -⟩ := (hinders_iff hdest).mp hk
    exact hout j hj hjc
  · have hway := fun k => hinders_iff_crossed (k := k) hdest hfirst hlast hsource
    have hland : ∀ r ∈ (Runs.within m.start m.stop s.runs).map m.moved, r.stop ≤ maxKey + 1 :=
      landing_bounded_iff.mpr fun k hk => by
        by_cases hc : m.covers k
        · rw [Move.apply_of_covers hc]
          exact hbound k hk hc
        · rw [Move.apply_of_not_covers hc]
          exact le_maxKey hk
    simp only [hlow, hhigh]
    rw [dif_pos hland]
    split
    · rename_i k hk
      obtain ⟨hmem, hge, hlt, hleast⟩ := s.spaced.firstIn?_eq_some hk
      have hhinders : s.Hinders m k := (hway k).mpr ⟨hmem, hge, hlt⟩
      have hout : ¬ m.covers k := ((hinders_iff hdest).mp hhinders).2.1
      have hmin : IsLeast {k | s.Hinders m k} k :=
        ⟨hhinders, fun j hj => hleast j ((hway j).mp hj).1 ((hway j).mp hj).2.1⟩
      have hlands : Runs.contains ((Runs.within m.start m.stop s.runs).map m.moved) k = true ↔
          s.Collides m k := by
        rw [Runs.contains_iff, mem_landing, Collides]
        exact ⟨fun h => ⟨hmem, hout, h⟩, fun h => h.2.2⟩
      split
      · rename_i hc
        exact .inr ⟨k, _, hmin, .inl ⟨hlands.mp hc, rfl⟩, rfl⟩
      · rename_i hc
        exact .inr ⟨k, _, hmin, .inr ⟨mt hlands.mpr hc, rfl⟩, rfl⟩
    · rename_i hfree
      refine .inl ⟨fun k hk => ?_, _, rfl⟩
      obtain ⟨hmem, hge, hlt⟩ := (hway k).mp hk
      exact absurd (s.spaced.firstIn?_eq_none_iff.mp hfree k hmem hge) (Nat.not_le.mpr hlt)

/-- The error of a refused move is that of the least key in the way. -/
theorem shift_eq_error_iff (hpos : m.start < m.stop) (hdest : m.start ≠ m.dest)
    (hbound : ∀ k ∈ s.toList, m.covers k → m.target k ≤ maxKey) :
    s.shift m = .error e ↔ ∃ k, IsLeast {k | s.Hinders m k} k ∧ s.RefusedFor m k e := by
  rcases shift_cases hpos hdest hbound with ⟨hfree, t, ht⟩ | ⟨k, e', hleast, hrefused, he'⟩
  · refine iff_of_false (fun he => ?_) fun ⟨k, hleast, _⟩ => hfree k hleast.1
    cases ht.symm.trans he
  · refine ⟨fun he => ?_, fun ⟨j, hleast', hrefused'⟩ => ?_⟩
    · obtain rfl := Except.error.inj (he'.symm.trans he)
      exact ⟨k, hleast, hrefused⟩
    · obtain rfl := hleast.unique hleast'
      rw [he', hrefused.unique hrefused']

/-! ## Kinds of faults and kinds of errors -/

/-- The refusal of a move tells the kind of its faults: if there are collisions it is for one of
them, and it is a violation of the protocol just if there are none and some key is passed. -/
structure Classified (s : KeySpace) (m : Move) : Prop where
  duplicate : (∃ k, s.Collides m k) → ∃ k, s.Collides m k ∧ s.shift m = .error (.duplicateKey k)
  protocol : (∃ v, s.shift m = .error (.protocol v)) ↔
    (∀ k, ¬ s.Collides m k) ∧ ∃ k, s.Passed m k

/-- A move that keeps its keys in the key space is refused just if there is a key in the way, with
the error for the least such key. This tells the kind of the faults just if no collision is behind a
key that is only passed. -/
theorem classified_iff (hpos : m.start < m.stop) (hdest : m.start ≠ m.dest)
    (hbound : ∀ k ∈ s.toList, m.covers k → m.target k ≤ maxKey) :
    (∀ e, s.shift m = .error e ↔ ∃ k, IsLeast {k | s.Hinders m k} k ∧ s.RefusedFor m k e) ∧
    (s.Classified m ↔
      ∀ k, IsLeast {k | s.Hinders m k} k → (∃ j, s.Collides m j) → s.Collides m k) := by
  refine ⟨fun _ => shift_eq_error_iff hpos hdest hbound, fun h k hleast ⟨j, hj⟩ => ?_, fun h => ?_⟩
  · obtain ⟨i, hi, hrefused⟩ := h.duplicate ⟨j, hj⟩
    obtain ⟨k', hleast', hfor⟩ := (shift_eq_error_iff hpos hdest hbound).mp hrefused
    obtain rfl := hleast.unique hleast'
    rcases hfor with ⟨hcol, -⟩ | ⟨-, heq⟩
    · exact hcol
    · cases heq
  · rcases shift_cases hpos hdest hbound with ⟨hfree, t, ht⟩ | ⟨k, e, hleast, hfor, he⟩
    · refine ⟨fun ⟨k, hk⟩ => absurd (.inl hk) (hfree k), iff_of_false ?_ ?_⟩
      · rintro ⟨v, hv⟩
        cases ht.symm.trans hv
      · rintro ⟨-, k, hk⟩
        exact hfree k (.inr hk)
    · rcases hfor with ⟨hcol, rfl⟩ | ⟨hcol, rfl⟩
      · refine ⟨fun _ => ⟨k, hcol, he⟩, iff_of_false ?_ fun hnone => hnone.1 k hcol⟩
        rintro ⟨v, hv⟩
        cases he.symm.trans hv
      · have hnone : ∀ j, ¬ s.Collides m j := fun j hj => hcol (h k hleast ⟨j, hj⟩)
        refine ⟨fun ⟨j, hj⟩ => absurd hj (hnone j), iff_of_true ⟨_, he⟩ ⟨hnone, k, ?_⟩⟩
        exact hleast.1.resolve_left hcol

/-- Keys 10 and 11 move by three places up. Key 11 lands on 14, and no key is in between. -/
theorem classified_iff_of_sparse : ∃ s : KeySpace, s.toList = [10, 11, 14, 20] ∧
    s.shift ⟨10, 12, 13⟩ = .error (.duplicateKey 14) ∧ s.Classified ⟨10, 12, 13⟩ := by
  let s : KeySpace := ⟨[⟨10, 12⟩, ⟨14, 15⟩, ⟨20, 21⟩], by simp [Spaced, maxKey]⟩
  have hkeys : s.toList = [10, 11, 14, 20] := rfl
  have hrefused : s.shift ⟨10, 12, 13⟩ = .error (.duplicateKey 14) := by decide +kernel
  obtain ⟨herror, hiff⟩ := classified_iff (s := s) (m := ⟨10, 12, 13⟩) (by decide) (by decide)
    (by rw [hkeys]; decide)
  refine ⟨s, hkeys, hrefused, hiff.mpr fun k hleast _ => ?_⟩
  obtain ⟨j, hleast', hfor⟩ := (herror _).mp hrefused
  obtain rfl := hleast.unique hleast'
  rcases hfor with ⟨hcol, -⟩ | ⟨-, heq⟩
  · exact hcol
  · cases heq

/-- Key 0 is to become 10, which is present. On its way it would pass 5, and the move is refused for
that. -/
theorem exists_unclassified : ∃ s : KeySpace, s.toList = [0, 5, 10] ∧
    (∀ k ∈ s.toList, (⟨0, 1, 10⟩ : Move).covers k → (⟨0, 1, 10⟩ : Move).target k ≤ maxKey) ∧
    s.Collides ⟨0, 1, 10⟩ 10 ∧
    s.shift ⟨0, 1, 10⟩ = .error (.protocol (.shiftPassesKey 0 1 10 5)) ∧
    ¬ s.Classified ⟨0, 1, 10⟩ := by
  let s : KeySpace := ⟨[⟨0, 1⟩, ⟨5, 6⟩, ⟨10, 11⟩], by simp [Spaced, maxKey]⟩
  have hkeys : s.toList = [0, 5, 10] := rfl
  have hcol : s.Collides ⟨0, 1, 10⟩ 10 := by
    rw [Collides, hkeys]
    exact ⟨by decide, by decide, 0, by decide, by decide, rfl⟩
  have hrefused : s.shift ⟨0, 1, 10⟩ = .error (.protocol (.shiftPassesKey 0 1 10 5)) := by
    decide +kernel
  refine ⟨s, hkeys, by rw [hkeys]; decide, hcol, hrefused, fun h => ?_⟩
  obtain ⟨k, -, hk⟩ := h.duplicate ⟨10, hcol⟩
  cases hrefused.symm.trans hk

end KeySpace

end LiveTables
