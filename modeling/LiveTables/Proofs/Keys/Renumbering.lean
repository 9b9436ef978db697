import LiveTables.Proofs.Keys.Path
import Mathlib.Data.List.Pairwise
import Mathlib.Data.Set.Finite.Lemmas

/-!
# Renumberings

An update means its moves all at once: a key in the source of a move becomes what this move makes of
it, and any other key stays (`Renumbering.image`). The library makes them one after another. The two
agree but for relayed keys, which the second of their moves takes past where they are meant to go
(`Renumbering.image_lt_path`). So a successful renumbering makes of the present keys what the update
means just if it relays none of them.

If the places at which moves land are disjoint as well as their sources, no key is relayed
(`Renumbering.not_relayed`). Then the schedule never fails where the moves all at once would be
fine.
-/

namespace LiveTables

/-! ## What a renumbering means -/

namespace Renumbering

open Move

variable {r : Renumbering} {ms : List Move} {m : Move} {k : Nat}

/-- The moves of a renumbering, those that go nowhere included. -/
def moves (r : Renumbering) : List Move := r.triples.map moveOf

/-- No key is in the sources of two moves. -/
def SourcesDisjoint (r : Renumbering) : Prop :=
  r.moves.Pairwise fun a b => ∀ k, ¬ (a.covers k ∧ b.covers k)

/-- No key is where two moves land. -/
def TargetsDisjoint (r : Renumbering) : Prop :=
  r.moves.Pairwise fun a b => ∀ k, ¬ (a.lands k ∧ b.lands k)

/-- What an update means by a renumbering: all moves at once. -/
def image (r : Renumbering) (k : Nat) : Nat :=
  match r.moves.find? (·.covers k) with
  | some m => m.target k
  | none => k

/-- The three sets of a renumbering ascend side by side. -/
theorem pairwise_triples (r : Renumbering) :
    r.triples.Pairwise fun a b => a.1 < b.1 ∧ a.2.1 < b.2.1 ∧ a.2.2 < b.2.2 := by
  rw [List.pairwise_iff_getElem]
  intro i j hi hj hij
  have hstarts := List.pairwise_iff_getElem.mp (r.starts.take (min r.starts.size
    (min r.lasts.size r.dests.size))).ascending
  have hlasts := List.pairwise_iff_getElem.mp (r.lasts.take (min r.starts.size
    (min r.lasts.size r.dests.size))).ascending
  have hdests := List.pairwise_iff_getElem.mp (r.dests.take (min r.starts.size
    (min r.lasts.size r.dests.size))).ascending
  simp only [triples, List.length_zip, Nat.lt_min] at hi hj
  simp only [triples, List.getElem_zip]
  exact ⟨hstarts i j hi.1 hj.1 hij, hlasts i j hi.2.1 hj.2.1 hij, hdests i j hi.2.2 hj.2.2 hij⟩

/-- The moves ascend in their starts and in their destinations. -/
theorem pairwise_moves (r : Renumbering) :
    r.moves.Pairwise fun a b => a.start < b.start ∧ a.dest < b.dest := by
  rw [moves, List.pairwise_map]
  exact r.pairwise_triples.imp fun h => ⟨h.1, h.2.2⟩

/-- No move of a valid renumbering is without a source. -/
theorem start_lt_stop (h : r.validate = .ok ()) (hm : m ∈ r.moves) : m.start < m.stop := by
  obtain ⟨t, ht, rfl⟩ := List.mem_map.mp hm
  rw [validate] at h
  split at h
  · cases h
  · split at h
    · cases h
    · rename_i hnone
      have hle := List.find?_eq_none.mp hnone t ht
      simp only [decide_eq_true_eq, Nat.not_lt] at hle
      exact Nat.lt_succ_of_le hle

/-- A schedule exists for a valid renumbering, and has its moves down and then its moves up. -/
theorem schedule_eq_ok_iff : r.schedule = .ok ms ↔
    r.validate = .ok () ∧ ms = r.moves.filter (fun m => m.dest < m.start) ++
      r.moves.reverse.filter (fun m => m.start < m.dest) := by
  rw [schedule, bind_eq_ok]
  refine ⟨?_, ?_⟩
  · rintro ⟨⟨⟩, hv, hms⟩
    exact ⟨hv, (pure_eq_ok.mp hms).symm⟩
  · rintro ⟨hv, rfl⟩
    exact ⟨(), hv, rfl⟩

/-- The schedule has the moves that go somewhere. -/
theorem mem_schedule (h : r.schedule = .ok ms) : m ∈ ms ↔ m ∈ r.moves ∧ (m.Down ∨ m.Up) := by
  obtain ⟨-, rfl⟩ := schedule_eq_ok_iff.mp h
  simp only [List.mem_append, List.mem_filter, List.mem_reverse, decide_eq_true_eq]
  exact and_or_left.symm

/-- Of two moves with disjoint sources the one that starts further down stops before the other. -/
theorem stop_le_start (h : r.validate = .ok ()) (hsrc : r.SourcesDisjoint) :
    r.moves.Pairwise fun a b => a.stop ≤ b.start := by
  refine (hsrc.and r.pairwise_moves).imp_of_mem fun {a b} ha hb hab => ?_
  obtain ⟨hdisjoint, hstart, -⟩ := hab
  have hb' := start_lt_stop h hb
  -- otherwise the start of the upper move is a key in both sources
  by_contra hlt
  exact hdisjoint b.start ⟨⟨by omega, by omega⟩, ⟨Nat.le_refl _, hb'⟩⟩

/-- The schedule is in the order that the theory of paths asks for. -/
theorem pairwise_schedule (h : r.schedule = .ok ms) (hsrc : r.SourcesDisjoint) :
    ms.Pairwise Precedes := by
  obtain ⟨hv, rfl⟩ := schedule_eq_ok_iff.mp h
  have horder := stop_le_start hv hsrc
  have hapart : r.moves.Pairwise Apart := horder.imp .inl
  refine List.pairwise_append.mpr ⟨?_, ?_, ?_⟩
  · refine (horder.filter _).imp_of_mem fun ha hb hab => .inl ⟨?_, ?_, hab⟩
    · exact of_decide_eq_true (List.mem_filter.mp ha).2
    · exact of_decide_eq_true (List.mem_filter.mp hb).2
  · refine ((List.pairwise_reverse.mpr horder).filter _).imp_of_mem
      fun ha hb hab => .inr (.inr ⟨?_, ?_, hab⟩)
    · exact of_decide_eq_true (List.mem_filter.mp ha).2
    · exact of_decide_eq_true (List.mem_filter.mp hb).2
  · intro a ha b hb
    obtain ⟨ha, hda⟩ := List.mem_filter.mp ha
    obtain ⟨hb, hub⟩ := List.mem_filter.mp hb
    rw [decide_eq_true_eq] at hda hub
    refine .inr (.inl ⟨hda, hub, hapart.forall ha (List.mem_reverse.mp hb) ?_⟩)
    rintro rfl
    omega

/-! ### The meaning and the moves -/

/-- A key in the source of a move is meant to go where this move puts it. -/
theorem image_of_covers (hsrc : r.SourcesDisjoint) (hm : m ∈ r.moves) (hk : m.covers k) :
    r.image k = m.target k := by
  rw [image]
  split
  · rename_i m' hfind
    have hk' : m'.covers k := by simpa using List.find?_some hfind
    have hm' := List.mem_of_find?_eq_some hfind
    by_contra hne
    have hmm : m' ≠ m := fun heq => hne (by rw [heq])
    have hsymm : Std.Symm fun a b : Move => ∀ k, ¬ (a.covers k ∧ b.covers k) :=
      ⟨fun _ _ h k hab => h k hab.symm⟩
    exact hsrc.forall hm' hm hmm k ⟨hk', hk⟩
  · rename_i hnone
    exact absurd (decide_eq_true hk) (List.find?_eq_none.mp hnone m hm)

/-- A key in no source is meant to stay. -/
theorem image_of_uncovered (h : ∀ m ∈ r.moves, ¬ m.covers k) : r.image k = k := by
  rw [image]
  split
  · rename_i m hfind
    have hk : m.covers k := by simpa using List.find?_some hfind
    exact absurd hk (h m (List.mem_of_find?_eq_some hfind))
  · rfl

/-- A key that no move of the schedule has in its source is meant to stay. -/
theorem image_of_schedule_uncovered (h : r.schedule = .ok ms) (hsrc : r.SourcesDisjoint)
    (hk : ∀ m ∈ ms, ¬ m.covers k) : r.image k = k := by
  by_cases hcov : ∃ m ∈ r.moves, m.covers k
  · obtain ⟨m, hm, hc⟩ := hcov
    have hstill : ¬ (m.Down ∨ m.Up) := fun hgo => hk m ((mem_schedule h).mpr ⟨hm, hgo⟩) hc
    rw [image_of_covers hsrc hm hc, target]
    rw [Down, Up] at hstill
    rw [covers] at hc
    omega
  · exact image_of_uncovered fun m hm hc => hcov ⟨m, hm, hc⟩

/-- A key is relayed in the schedule if it is in the renumbering: moves that go nowhere do not
relay. -/
theorem relayed_schedule_iff (h : r.schedule = .ok ms) : Relayed ms k ↔ Relayed r.moves k := by
  refine ⟨?_, ?_⟩
  · rintro ⟨a, ha, b, hb, hrest⟩
    exact ⟨a, ((mem_schedule h).mp ha).1, b, ((mem_schedule h).mp hb).1, hrest⟩
  · rintro ⟨a, ha, b, hb, hda, hub, hrest⟩
    exact ⟨a, (mem_schedule h).mpr ⟨ha, .inl hda⟩, b, (mem_schedule h).mpr ⟨hb, .inr hub⟩, hda, hub,
      hrest⟩

/-- A key that is not relayed goes where it is meant to go, in one move at most. -/
theorem path_eq_image (h : r.schedule = .ok ms) (hsrc : r.SourcesDisjoint)
    (hk : ¬ Relayed r.moves k) : path ms k = r.image k ∧ (trail ms k).length ≤ 1 := by
  rw [← relayed_schedule_iff h] at hk
  by_cases hcov : ∃ m ∈ ms, m.covers k
  · obtain ⟨m, hm, hc⟩ := hcov
    obtain ⟨hpath, htrail⟩ := path_of_not_relayed (pairwise_schedule h hsrc) hk hm hc
    rw [hpath, htrail, image_of_covers hsrc ((mem_schedule h).mp hm).1 hc]
    exact ⟨rfl, Nat.le_refl 1⟩
  · have hout : ∀ m ∈ ms, ¬ m.covers k := fun m hm hc => hcov ⟨m, hm, hc⟩
    obtain ⟨hpath, htrail⟩ := path_of_uncovered hout
    rw [hpath, htrail, image_of_schedule_uncovered h hsrc hout]
    exact ⟨rfl, Nat.zero_le 1⟩

/-- A relayed key goes past where it is meant to go, in two moves. -/
theorem image_lt_path (h : r.schedule = .ok ms) (hsrc : r.SourcesDisjoint)
    (hk : Relayed r.moves k) : r.image k < path ms k ∧ (trail ms k).length = 2 := by
  obtain ⟨a, ha, b, hb, hda, hub, hak, hbk⟩ := (relayed_schedule_iff h).mpr hk
  obtain ⟨hpath, htrail⟩ := path_of_relayed (pairwise_schedule h hsrc) ha hb hda hub hak hbk
  rw [hpath, htrail, image_of_covers hsrc ((mem_schedule h).mp ha).1 hak]
  refine ⟨?_, rfl⟩
  exact hub.lt_target hbk

/-! ### Disjoint places to land -/

/-- Where moves do not land on each other none of them relays: the move up would land where the move
down does, or below. -/
theorem not_relayed (h : r.validate = .ok ()) (hsrc : r.SourcesDisjoint)
    (htgt : r.TargetsDisjoint) : ¬ Relayed r.moves k := by
  rintro ⟨a, ha, b, hb, hda, hub, hak, hbk⟩
  have horder := (htgt.and (stop_le_start h hsrc)).and r.pairwise_moves
  obtain ⟨i, hi, rfl⟩ := List.getElem_of_mem ha
  obtain ⟨j, hj, rfl⟩ := List.getElem_of_mem hb
  have hdown := hda.target_lt hak
  rw [covers] at hak hbk
  -- what goes down cannot come to a move further up
  rcases Nat.lt_trichotomy i j with hij | rfl | hij
  · obtain ⟨⟨-, hstop⟩, -⟩ := List.pairwise_iff_getElem.mp horder i j hi hj hij
    omega
  · exact Nat.lt_asymm hda hub
  · -- `b` is the lower one, so it lands below the place where `a` does, and at or above its source
    obtain ⟨⟨hland, -⟩, -, hdest⟩ := List.pairwise_iff_getElem.mp horder j i hj hi hij
    refine hland (r.moves[i].dest) ⟨⟨Nat.le_of_lt hdest, ?_⟩, ⟨Nat.le_refl _, ?_⟩⟩
    · rw [Up] at hub
      simp only [target] at hbk ⊢
      omega
    · rw [target]
      omega

end Renumbering

/-! ## Making a renumbering -/

namespace KeySpace

open Move Renumbering

variable {s t : KeySpace} {r : Renumbering} {ms : List Move}

theorem renumber_eq_ok_iff :
    s.renumber r = .ok t ↔ ∃ ms, r.schedule = .ok ms ∧ ms.foldlM shift s = .ok t := by
  rw [renumber, bind_eq_ok]

/-- There are as many keys after a renumbering as before. -/
theorem size_renumber (h : s.renumber r = .ok t) : t.size = s.size := by
  obtain ⟨ms, -, hfold⟩ := renumber_eq_ok_iff.mp h
  rw [← length_toList, toList_foldlM_shift hfold, List.length_map, length_toList]

/-- If moves are made and no more keys are there than the images of keys, no key was relayed. The
relayed key that went furthest would be the image of a key that went even further. -/
theorem not_relayed_of_mem_image (h : r.schedule = .ok ms) (hsrc : r.SourcesDisjoint)
    (hmono : StrictMonoOn (path ms) {k | k ∈ s.toList})
    (himage : ∀ k ∈ s.toList, ∃ j ∈ s.toList, r.image j = path ms k) :
    ∀ k ∈ s.toList, ¬ Relayed r.moves k := by
  by_contra! hrelayed
  -- of the relayed keys take the one that goes furthest, and the key that it is the image of
  have hfinite : {k | k ∈ s.toList ∧ Relayed r.moves k}.Finite :=
    s.toList.finite_toSet.subset fun k hk => hk.1
  obtain ⟨k, ⟨hk, hkr⟩, hmax⟩ := Set.exists_max_image _ (path ms) hfinite hrelayed
  obtain ⟨j, hj, hjk⟩ := himage k hk
  by_cases hjr : Relayed r.moves j
  · have hfurther := (image_lt_path h hsrc hjr).1
    have hle := hmax j ⟨hj, hjr⟩
    omega
  · rw [← (path_eq_image h hsrc hjr).1] at hjk
    exact hjr (hmono.injOn hj hk hjk ▸ hkr)

/-- A renumbering that succeeds makes of the present keys what it means just if it relays none of
them, and the keys that it moves twice are those it relays. -/
theorem renumber_eq_image_iff (hsrc : r.SourcesDisjoint) (h : s.renumber r = .ok t) :
    ((∀ k, t.contains k ↔ ∃ j, s.contains j ∧ r.image j = k) ↔
      ∀ k, s.contains k → ¬ Relayed r.moves k) ∧
    ∀ ms, r.schedule = .ok ms →
      ∀ k, s.contains k → ((trail ms k).length ≤ 1 ↔ ¬ Relayed r.moves k) := by
  obtain ⟨ms, hms, hfold⟩ := renumber_eq_ok_iff.mp h
  have hkeys := toList_foldlM_shift hfold
  have hmono : StrictMonoOn (path ms) {k | k ∈ s.toList} := by
    rw [← pairwise_map_iff s.ascending, ← hkeys]
    exact t.ascending
  simp only [contains_iff, hkeys, List.mem_map]
  refine ⟨⟨?_, ?_⟩, ?_⟩
  · intro heq
    exact not_relayed_of_mem_image hms hsrc hmono fun k hk => (heq _).mp ⟨k, hk, rfl⟩
  · intro hnone k
    refine ⟨?_, ?_⟩
    · rintro ⟨j, hj, rfl⟩
      exact ⟨j, hj, (path_eq_image hms hsrc (hnone j hj)).1.symm⟩
    · rintro ⟨j, hj, rfl⟩
      exact ⟨j, hj, (path_eq_image hms hsrc (hnone j hj)).1⟩
  · intro ms' hms' k _
    refine ⟨?_, ?_⟩
    · intro hle hrelayed
      have htwo := (image_lt_path hms' hsrc hrelayed).2
      omega
    · intro hnone
      exact (path_eq_image hms' hsrc hnone).2

/-- A move down and a move up that keep clear of each other do what they mean. -/
theorem renumber_eq_image_of_clear : ∃ (r : Renumbering) (s t : KeySpace),
    r.triples = [(2, 3, 0), (20, 20, 25)] ∧ s.toList = [2, 3, 10, 20] ∧ r.SourcesDisjoint ∧
    s.renumber r = .ok t ∧ ∀ k, t.contains k ↔ ∃ j, s.contains j ∧ r.image j = k := by
  let r : Renumbering :=
    ⟨⟨[⟨2, 3⟩, ⟨20, 21⟩], by simp [Spaced, maxKey]⟩,
      ⟨[⟨3, 4⟩, ⟨20, 21⟩], by simp [Spaced, maxKey]⟩,
      ⟨[⟨0, 1⟩, ⟨25, 26⟩], by simp [Spaced, maxKey]⟩⟩
  let s : KeySpace := ⟨[⟨2, 4⟩, ⟨10, 11⟩, ⟨20, 21⟩], by simp [Spaced, maxKey]⟩
  let t : KeySpace := ⟨[⟨0, 2⟩, ⟨10, 11⟩, ⟨25, 26⟩], by simp [Spaced, maxKey]⟩
  have hmoves : r.moves = [⟨2, 4, 0⟩, ⟨20, 21, 25⟩] := by decide +kernel
  have hsrc : r.SourcesDisjoint := by
    rw [SourcesDisjoint, hmoves]
    simp [covers]
    omega
  have hst : s.renumber r = .ok t := by decide +kernel
  have hnone : ∀ k, s.contains k → ¬ Relayed r.moves k := by
    intro k _
    rw [hmoves]
    simp [Relayed, Down, Up, covers, target]
    omega
  exact ⟨r, s, t, by decide +kernel, by decide +kernel, hsrc, hst,
    (renumber_eq_image_iff hsrc hst).1.mpr hnone⟩

/-- Key 20 is meant to become 8 here. The move down makes it 8, and the move up then makes it 13. -/
theorem renumber_relays : ∃ (r : Renumbering) (s t : KeySpace),
    r.triples = [(0, 10, 5), (20, 24, 8)] ∧ s.toList = [20] ∧ r.validate = .ok () ∧
    r.SourcesDisjoint ∧ s.renumber r = .ok t ∧
    (∃ ms, r.schedule = .ok ms ∧ (trail ms 20).length = 2) ∧
    ¬ ∀ k, t.contains k ↔ ∃ j, s.contains j ∧ r.image j = k := by
  let r : Renumbering :=
    ⟨⟨[⟨0, 1⟩, ⟨20, 21⟩], by simp [Spaced, maxKey]⟩,
      ⟨[⟨10, 11⟩, ⟨24, 25⟩], by simp [Spaced, maxKey]⟩,
      ⟨[⟨5, 6⟩, ⟨8, 9⟩], by simp [Spaced, maxKey]⟩⟩
  let s : KeySpace := ⟨[⟨20, 21⟩], by simp [Spaced, maxKey]⟩
  let t : KeySpace := ⟨[⟨13, 14⟩], by simp [Spaced, maxKey]⟩
  have hmoves : r.moves = [⟨0, 11, 5⟩, ⟨20, 25, 8⟩] := by decide +kernel
  have hsrc : r.SourcesDisjoint := by
    rw [SourcesDisjoint, hmoves]
    simp [covers]
    omega
  refine ⟨r, s, t, by decide +kernel, by decide +kernel, by decide +kernel, hsrc,
    by decide +kernel, ⟨[⟨20, 25, 8⟩, ⟨0, 11, 5⟩], by decide +kernel, rfl⟩, fun h => ?_⟩
  have h8 : t.contains 8 = true := (h 8).mpr ⟨20, by decide +kernel, by decide +kernel⟩
  exact absurd h8 (by decide +kernel)

/-- If neither the sources of moves nor the places where they land meet, a renumbering succeeds just
if all its moves at once would keep the keys in the key space and in order. Then every key is where
it is meant to be, with the index it had. -/
theorem exists_renumber_iff (hv : r.validate = .ok ()) (hsrc : r.SourcesDisjoint)
    (htgt : r.TargetsDisjoint) :
    ((∃ t, s.renumber r = .ok t) ↔
      (∀ k, s.contains k → r.image k ≤ maxKey) ∧ StrictMonoOn r.image {k | s.contains k}) ∧
    ∀ t, s.renumber r = .ok t →
      ∀ k i, s.indexOf? k = some i → t.indexOf? (r.image k) = some i := by
  obtain ⟨ms, hms⟩ : ∃ ms, r.schedule = .ok ms := ⟨_, schedule_eq_ok_iff.mpr ⟨hv, rfl⟩⟩
  have hpath : path ms = r.image :=
    funext fun k => (path_eq_image hms hsrc (not_relayed hv hsrc htgt)).1
  have hkeys : ∀ {t}, s.renumber r = .ok t → t.toList = s.toList.map r.image := by
    intro t ht
    obtain ⟨ms', hms', hfold⟩ := renumber_eq_ok_iff.mp ht
    obtain rfl : ms = ms' := Except.ok.inj (hms.symm.trans hms')
    rw [toList_foldlM_shift hfold, hpath]
  simp only [contains_iff]
  refine ⟨⟨?_, ?_⟩, ?_⟩
  · rintro ⟨t, ht⟩
    refine ⟨fun k hk => ?_, ?_⟩
    · exact t.le_maxKey (by rw [hkeys ht]; exact List.mem_map_of_mem hk)
    · rw [← pairwise_map_iff s.ascending, ← hkeys ht]
      exact t.ascending
  · rintro ⟨hbound, hmono⟩
    have hfold : ∃ t, ms.foldlM shift s = .ok t := by
      refine exists_foldlM_shift (fun m hm => ?_) ?_
      · exact Nat.le_of_lt (start_lt_stop hv ((mem_schedule hms).mp hm).1)
      · rintro front back rfl
        have hprecedes := pairwise_schedule hms hsrc
        have hnone : ∀ k, ¬ Relayed (front ++ back) k := fun k hk =>
          not_relayed hv hsrc htgt ((relayed_schedule_iff hms).mp hk)
        rw [← hpath] at hbound hmono
        exact ⟨fun k hk => path_front_le hprecedes (hnone k) (s.le_maxKey hk) (hbound k hk),
          strictMonoOn_path_front hprecedes (fun k _ => hnone k) hmono⟩
    obtain ⟨t, ht⟩ := hfold
    exact ⟨t, renumber_eq_ok_iff.mpr ⟨ms, hms, ht⟩⟩
  · intro t ht k i hk
    rw [indexOf?_eq_some_iff] at hk ⊢
    rw [hkeys ht, List.getElem?_map, hk]
    rfl

/-- The keys move out of each other's way, down from the bottom and up from the top. -/
theorem exists_renumber_of_adjacent : ∃ (r : Renumbering) (s t : KeySpace),
    r.triples = [(2, 3, 0), (4, 5, 2), (20, 21, 22), (22, 23, 24)] ∧
    s.toList = [2, 3, 4, 5, 20, 21, 22, 23] ∧ r.validate = .ok () ∧ r.SourcesDisjoint ∧
    r.TargetsDisjoint ∧ s.renumber r = .ok t ∧ t.indexOf? (r.image 20) = some 4 := by
  let r : Renumbering :=
    ⟨⟨[⟨2, 3⟩, ⟨4, 5⟩, ⟨20, 21⟩, ⟨22, 23⟩], by simp [Spaced, maxKey]⟩,
      ⟨[⟨3, 4⟩, ⟨5, 6⟩, ⟨21, 22⟩, ⟨23, 24⟩], by simp [Spaced, maxKey]⟩,
      ⟨[⟨0, 1⟩, ⟨2, 3⟩, ⟨22, 23⟩, ⟨24, 25⟩], by simp [Spaced, maxKey]⟩⟩
  let s : KeySpace := ⟨[⟨2, 6⟩, ⟨20, 24⟩], by simp [Spaced, maxKey]⟩
  let t : KeySpace := ⟨[⟨0, 4⟩, ⟨22, 26⟩], by simp [Spaced, maxKey]⟩
  have hmoves : r.moves = [⟨2, 4, 0⟩, ⟨4, 6, 2⟩, ⟨20, 22, 22⟩, ⟨22, 24, 24⟩] := by decide +kernel
  have hvalid : r.validate = .ok () := by decide +kernel
  have hsrc : r.SourcesDisjoint := by
    rw [SourcesDisjoint, hmoves]
    simp [covers]
    grind
  have htgt : r.TargetsDisjoint := by
    rw [TargetsDisjoint, hmoves]
    simp [lands, target]
    grind
  have hst : s.renumber r = .ok t := by decide +kernel
  have hindex : s.indexOf? 20 = some 4 := by decide +kernel
  exact ⟨r, s, t, by decide +kernel, by decide +kernel, hvalid, hsrc, htgt, hst,
    (exists_renumber_iff hvalid hsrc htgt).2 t hst 20 4 hindex⟩

end KeySpace

end LiveTables
