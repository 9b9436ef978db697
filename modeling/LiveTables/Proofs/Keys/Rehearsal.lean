import LiveTables.LiveTable
import LiveTables.Proofs.Keys.Space
import Mathlib.Order.Bounds.Basic

/-!
# Whole sets of keys

An update names whole sets of keys: keys to remove, keys to add, keys whose rows change. A key space
takes such a set run by run, and stops at the first run that does not go through. Since runs ascend
and a step changes no key above its run, the key that a failure names is the least bad key of the
whole set (`Spaced.foldlM_spec`), and not only the least one of its run.

For the three walks of an update a bad key is a present key (`KeySpace.addAll_spec`) or an absent
one (`KeySpace.eraseAll_spec`, `KeySpace.positions_spec`). Positions of rows always fit into a set,
as the rank of a key is never greater than the key (`KeySpace.rank_le`).

What an update leaves before it adds keys is `KeySpace.Leaves`.
-/

namespace LiveTables

/-! ## Walks over runs -/

section Walk

variable {σ : Type} {limit low k : Nat} {r : Run} {rs : List Run} {P : Nat → Prop}

/-- The least key of a kind in the first run is the least one of all: the other runs lie above. -/
theorem Spaced.isLeast_head (h : Spaced limit low (r :: rs))
    (hk : IsLeast {k | k ∈ r.keys ∧ P k} k) :
    IsLeast {k | k ∈ Runs.toList (r :: rs) ∧ P k} k := by
  obtain ⟨⟨hmem, hP⟩, hleast⟩ := hk
  refine ⟨⟨List.mem_append_left _ hmem, hP⟩, ?_⟩
  rintro j ⟨hj, hPj⟩
  rcases List.mem_append.mp hj with hj | hj
  · exact hleast ⟨hj, hPj⟩
  · have hlow := (h.2.2.2.bounds hj).1
    rw [Run.mem_keys] at hmem
    omega

/-- A run without keys of a kind is passed over in the search for the least one. -/
theorem Runs.isLeast_tail (hr : ∀ k ∈ r.keys, ¬ P k)
    (hk : IsLeast {k | k ∈ Runs.toList rs ∧ P k} k) :
    IsLeast {k | k ∈ Runs.toList (r :: rs) ∧ P k} k := by
  obtain ⟨⟨hmem, hP⟩, hleast⟩ := hk
  refine ⟨⟨List.mem_append_right _ hmem, hP⟩, ?_⟩
  rintro j ⟨hj, hPj⟩
  rcases List.mem_append.mp hj with hj | hj
  · exact absurd hPj (hr j hj)
  · exact hleast ⟨hj, hPj⟩

/-- A walk over ascending runs, of which each step goes through or names the least bad key of its
run, goes through or names the least bad key of all. `Inv low s` is what the walk keeps: what it has
come to know of the state `s` as far as keys from `low` on are concerned. -/
theorem Spaced.foldlM_spec (step : σ → Run → Except Error σ) (fail : Nat → Error)
    (Inv : Nat → σ → Prop)
    (hstep : ∀ {low s r}, Inv low s → low ≤ r.start → r.start < r.stop → r.stop ≤ limit →
      ((∀ k ∈ r.keys, ¬ P k) ∧ ∃ s', step s r = .ok s' ∧ Inv (r.stop + 1) s') ∨
        ∃ k, IsLeast {k | k ∈ r.keys ∧ P k} k ∧ step s r = .error (fail k))
    (hrs : Spaced limit low rs) {s : σ} (hs : Inv low s) :
    ((∀ k ∈ Runs.toList rs, ¬ P k) ∧ ∃ s', rs.foldlM step s = .ok s') ∨
      ∃ k, IsLeast {k | k ∈ Runs.toList rs ∧ P k} k ∧ rs.foldlM step s = .error (fail k) := by
  induction rs generalizing low s with
  | nil => exact .inl ⟨fun k hk => absurd hk List.not_mem_nil, s, rfl⟩
  | cons r rs ih =>
    obtain ⟨hlow, hpos, hstop, hrest⟩ := hrs
    rw [List.foldlM_cons]
    rcases hstep hs hlow hpos hstop with ⟨hgood, s', hs', hinv⟩ | ⟨k, hk, herror⟩
    · rw [hs', ok_bind]
      rcases ih hrest hinv with ⟨hall, hok⟩ | ⟨k, hk, herror⟩
      · refine .inl ⟨fun k hk => ?_, hok⟩
        rcases List.mem_append.mp hk with hk | hk
        · exact hgood k hk
        · exact hall k hk
      · exact .inr ⟨k, Runs.isLeast_tail hgood hk, herror⟩
    · rw [herror]
      have hall : Spaced limit low (r :: rs) := ⟨hlow, hpos, hstop, hrest⟩
      exact .inr ⟨k, hall.isLeast_head hk, rfl⟩

end Walk

namespace KeySpace

variable {s t : KeySpace} {keys : KeySet} {r : Run} {rs : List Run} {b e i low limit k : Nat}

/-- Key spaces with the same keys are the same. -/
theorem ext_of_mem (h : ∀ k, k ∈ s.toList ↔ k ∈ t.toList) : s = t := by
  have hlist : s.toList = t.toList := s.ascending.eq_of_mem_iff t.ascending h
  have hruns := s.spaced.eq_of_toList_eq t.spaced hlist
  cases s
  cases t
  cases hruns
  rfl

/-! ## One range -/

/-- The check for a range succeeds, or names the least absent key of it. -/
theorem requirePresent_spec (s : KeySpace) (b e : Nat) :
    ((∀ k, b ≤ k → k < e → k ∈ s.toList) ∧ s.requirePresent b e = .ok ()) ∨
      ∃ k, IsLeast {k | (b ≤ k ∧ k < e) ∧ k ∉ s.toList} k ∧
        s.requirePresent b e = .error (.keyNotFound k) := by
  obtain ⟨hle, hgap, hfull⟩ := s.spaced.firstGap_spec b
  rw [requirePresent]
  split
  · rename_i hend
    exact .inl ⟨fun k hbk hke => hfull k hbk (Nat.lt_of_lt_of_le hke hend), rfl⟩
  · rename_i hend
    refine .inr ⟨_, ⟨⟨⟨hle, Nat.lt_of_not_le hend⟩, hgap⟩, ?_⟩, rfl⟩
    rintro j ⟨⟨hbj, -⟩, hout⟩
    by_contra hlt
    exact hout (hfull j hbj (Nat.lt_of_not_le hlt))

/-- A range that was erased is gone, and nothing else is. -/
theorem mem_eraseRange (h : s.eraseRange b e = .ok (i, t)) :
    k ∈ t.toList ↔ k ∈ s.toList ∧ ¬ (b ≤ k ∧ k < e) := by
  rw [eraseRange] at h
  split at h
  · cases h
  · split at h
    · cases h
      have hempty : ¬ (b ≤ k ∧ k < e) := by omega
      rw [and_iff_left hempty]
    · obtain ⟨⟨⟩, -, h⟩ := bind_eq_ok.mp h
      cases h
      exact Runs.mem_erase

/-- A run of keys is erased, or the least absent key of it is named. -/
theorem eraseRange_spec (s : KeySpace) (hr : r.start < r.stop) :
    ((∀ k ∈ r.keys, k ∈ s.toList) ∧ ∃ t, s.eraseRange r.start r.stop = .ok (s.rank r.start, t)) ∨
      ∃ k, IsLeast {k | k ∈ r.keys ∧ k ∉ s.toList} k ∧
        s.eraseRange r.start r.stop = .error (.keyNotFound k) := by
  rw [eraseRange, if_neg (Nat.lt_asymm hr), if_neg (Nat.ne_of_lt hr)]
  simp only [Run.mem_keys]
  rcases s.requirePresent_spec r.start r.stop with ⟨hall, hok⟩ | ⟨k, hk, herror⟩
  · rw [hok]
    exact .inl ⟨fun k hk => hall k hk.1 hk.2, _, rfl⟩
  · rw [herror]
    exact .inr ⟨k, hk, rfl⟩

/-- A range that was added is there with what was there before. -/
theorem mem_addRange (h : s.addRange b e = .ok (i, t)) :
    k ∈ t.toList ↔ (b ≤ k ∧ k < e) ∨ k ∈ s.toList := by
  rw [addRange] at h
  split at h
  · cases h
  · split at h
    · cases h
      have hempty : ¬ (b ≤ k ∧ k < e) := by omega
      rw [or_iff_right hempty]
    · split at h
      · split at h
        · cases h
        · cases h
          exact Runs.mem_insert
      · cases h

/-- A run of keys is added, or the least present key of it is named. -/
theorem addRange_spec (s : KeySpace) (hr : r.start < r.stop) (hstop : r.stop ≤ maxKey + 1) :
    ((∀ k ∈ r.keys, k ∉ s.toList) ∧ ∃ t, s.addRange r.start r.stop = .ok (s.rank r.start, t)) ∨
      ∃ k, IsLeast {k | k ∈ r.keys ∧ k ∈ s.toList} k ∧
        s.addRange r.start r.stop = .error (.duplicateKey k) := by
  rw [addRange, if_neg (Nat.lt_asymm hr), if_neg (Nat.ne_of_lt hr), dif_pos hstop]
  simp only [Run.mem_keys]
  split
  · rename_i k hk
    obtain ⟨hmem, hge, hlt, hleast⟩ := s.spaced.firstIn?_eq_some hk
    exact .inr ⟨k, ⟨⟨⟨hge, hlt⟩, hmem⟩, fun j hj => hleast j hj.2 hj.1.1⟩, rfl⟩
  · rename_i hfree
    rw [s.spaced.firstIn?_eq_none_iff] at hfree
    exact .inl ⟨fun k hk hmem => Nat.not_lt.mpr (hfree k hmem hk.1) hk.2, _, rfl⟩

/-! ## Whole sets -/

/-- Where two kinds of keys are the same in a run they have the same least key there. -/
theorem isLeast_congr {P Q : Nat → Prop} (h : ∀ k ∈ r.keys, (P k ↔ Q k))
    (hk : IsLeast {k | k ∈ r.keys ∧ P k} k) : IsLeast {k | k ∈ r.keys ∧ Q k} k := by
  have hset : {k | k ∈ r.keys ∧ P k} = {k | k ∈ r.keys ∧ Q k} :=
    Set.ext fun k => and_congr_right fun hmem => h k hmem
  rwa [← hset]

/-- What a walk that adds or erases runs keeps: keys that it has yet to come to are as they were. -/
def AsBefore (s : KeySpace) (low : Nat) (t : KeySpace) : Prop :=
  ∀ k, low ≤ k → (k ∈ t.toList ↔ k ∈ s.toList)

/-- All keys of a set are removed, or the least absent one is named. -/
theorem eraseAll_spec (s : KeySpace) (keys : KeySet) :
    ((∀ k ∈ keys.toList, k ∈ s.toList) ∧ ∃ t, s.eraseAll keys = .ok t) ∨
      ∃ k, IsLeast {k | k ∈ keys.toList ∧ k ∉ s.toList} k ∧
        s.eraseAll keys = .error (.keyNotFound k) := by
  have hwalk := keys.spaced.foldlM_spec (P := fun k => k ∉ s.toList) (s := s)
    (fun s r => return (← s.eraseRange r.start r.stop).2) .keyNotFound s.AsBefore ?_
    fun k _ => Iff.rfl
  · simp only [not_not] at hwalk
    exact hwalk
  intro low t r hinv hlow hpos _
  have hbefore : ∀ k ∈ r.keys, (k ∈ t.toList ↔ k ∈ s.toList) := fun k hk =>
    hinv k (Nat.le_trans hlow (Run.mem_keys.mp hk).1)
  rcases t.eraseRange_spec hpos with ⟨hall, t', ht'⟩ | ⟨k, hk, herror⟩
  · refine .inl ⟨fun k hk => not_not.mpr ((hbefore k hk).mp (hall k hk)), t', by rw [ht']; rfl, ?_⟩
    intro k hk
    rw [mem_eraseRange ht', ← hinv k (by omega)]
    exact and_iff_left (by omega)
  · exact .inr ⟨k, isLeast_congr (fun k hk => not_congr (hbefore k hk)) hk, by rw [herror]; rfl⟩

/-- All keys of a set are added, or the least present one is named. -/
theorem addAll_spec (s : KeySpace) (keys : KeySet) :
    ((∀ k ∈ keys.toList, k ∉ s.toList) ∧ ∃ t, s.addAll keys = .ok t) ∨
      ∃ k, IsLeast {k | k ∈ keys.toList ∧ k ∈ s.toList} k ∧
        s.addAll keys = .error (.duplicateKey k) := by
  refine keys.spaced.foldlM_spec (P := fun k => k ∈ s.toList) (s := s)
    (fun s r => return (← s.addRange r.start r.stop).2) .duplicateKey s.AsBefore ?_
    fun k _ => Iff.rfl
  intro low t r hinv hlow hpos hstop
  have hbefore : ∀ k ∈ r.keys, (k ∈ t.toList ↔ k ∈ s.toList) := fun k hk =>
    hinv k (Nat.le_trans hlow (Run.mem_keys.mp hk).1)
  rcases t.addRange_spec hpos (Nat.le_succ_of_le hstop) with ⟨hall, t', ht'⟩ | ⟨k, hk, herror⟩
  · refine .inl ⟨fun k hk => (not_congr (hbefore k hk)).mp (hall k hk), t', by rw [ht']; rfl, ?_⟩
    intro k hk
    rw [mem_addRange ht', ← hinv k (by omega)]
    exact or_iff_right (by omega)
  · exact .inr ⟨k, isLeast_congr hbefore hk, by rw [herror]; rfl⟩

/-- Present keys can be removed. -/
theorem exists_eraseAll (h : ∀ k ∈ keys.toList, k ∈ s.toList) : ∃ t, s.eraseAll keys = .ok t := by
  rcases s.eraseAll_spec keys with ⟨-, hok⟩ | ⟨k, hk, -⟩
  · exact hok
  · exact absurd (h k hk.1.1) hk.1.2

/-- What was added was not there. -/
theorem not_mem_of_addAll (h : s.addAll keys = .ok t) : ∀ k ∈ keys.toList, k ∉ s.toList := by
  rcases s.addAll_spec keys with ⟨hfree, -⟩ | ⟨k, -, herror⟩
  · exact hfree
  · rw [h] at herror
    cases herror

/-- After runs were removed their keys are gone, and the other ones are there. -/
theorem eraseRuns_eq_ok (hrs : Spaced limit low rs)
    (h : rs.foldlM (fun s r => return (← s.eraseRange r.start r.stop).2) s = .ok t) :
    (∀ k, k ∈ t.toList ↔ k ∈ s.toList ∧ k ∉ Runs.toList rs) ∧ Runs.size rs + t.size = s.size := by
  induction rs generalizing low s with
  | nil =>
    cases h
    exact ⟨fun k => (and_iff_left List.not_mem_nil).symm, Nat.zero_add _⟩
  | cons r rs ih =>
    obtain ⟨-, hpos, -, hrest⟩ := hrs
    obtain ⟨i, s', herase, h⟩ := foldlM_snd_cons_eq_ok.mp h
    obtain ⟨hmem, hsize⟩ := ih hrest h
    refine ⟨fun k => ?_, ?_⟩
    · rw [hmem, mem_eraseRange herase, Runs.toList_cons, List.mem_append, Run.mem_keys, not_or,
        and_assoc]
    · obtain ⟨front, back, hs, hs', -⟩ := toList_eraseRange hpos herase
      have hcount : s.size = r.width + s'.size := by
        rw [← length_toList, ← length_toList, hs, hs']
        simp only [List.length_append, Run.length_keys]
        omega
      rw [hcount, ← hsize, Runs.size, Nat.add_assoc]

/-- After a set was removed its keys are gone, and the other ones are there. -/
theorem eraseAll_eq_ok (h : s.eraseAll keys = .ok t) :
    (∀ k, k ∈ t.toList ↔ k ∈ s.toList ∧ k ∉ keys.toList) ∧ keys.size + t.size = s.size :=
  keys.size_eq ▸ eraseRuns_eq_ok keys.spaced h

/-- After runs were added their keys are there along with those from before. -/
theorem addRuns_eq_ok (hrs : Spaced limit low rs)
    (h : rs.foldlM (fun s r => return (← s.addRange r.start r.stop).2) s = .ok t) :
    (∀ k, k ∈ t.toList ↔ k ∈ s.toList ∨ k ∈ Runs.toList rs) ∧ s.size + Runs.size rs = t.size := by
  induction rs generalizing low s with
  | nil =>
    cases h
    exact ⟨fun k => (or_iff_left List.not_mem_nil).symm, Nat.add_zero _⟩
  | cons r rs ih =>
    obtain ⟨-, hpos, -, hrest⟩ := hrs
    obtain ⟨i, s', hadd, h⟩ := foldlM_snd_cons_eq_ok.mp h
    obtain ⟨hmem, hsize⟩ := ih hrest h
    refine ⟨fun k => ?_, ?_⟩
    · rw [hmem, mem_addRange hadd, Runs.toList_cons, List.mem_append, Run.mem_keys, or_assoc,
        or_left_comm]
    · obtain ⟨front, back, hs, hs', -⟩ := toList_addRange hpos hadd
      have hcount : s'.size = s.size + r.width := by
        rw [← length_toList, ← length_toList, hs, hs']
        simp only [List.length_append, Run.length_keys]
        omega
      rw [← hsize, hcount, Runs.size, Nat.add_assoc]

/-- After a set was added its keys are there along with those from before. -/
theorem addAll_eq_ok (h : s.addAll keys = .ok t) :
    (∀ k, k ∈ t.toList ↔ k ∈ s.toList ∨ k ∈ keys.toList) ∧ s.size + keys.size = t.size :=
  keys.size_eq ▸ addRuns_eq_ok keys.spaced h

/-- The positions of a set of keys are found, or the least absent key is named. -/
theorem positions_spec (s : KeySpace) (keys : KeySet) :
    ((∀ k ∈ keys.toList, k ∈ s.toList) ∧ ∃ rows, s.positions keys = .ok rows) ∨
      ∃ k, IsLeast {k | k ∈ keys.toList ∧ k ∉ s.toList} k ∧
        s.positions keys = .error (.keyNotFound k) := by
  have hwalk := keys.spaced.foldlM_spec (P := fun k => k ∉ s.toList) (s := KeySet.empty)
    (fun found r => do
      s.requirePresent r.start r.stop
      found.addRange (s.rank r.start) (s.rank r.start + r.width))
    .keyNotFound (fun low found => ∀ p ∈ found.toList, p < s.rank low) ?_
    fun p hp => absurd hp List.not_mem_nil
  · simp only [not_not] at hwalk
    exact hwalk
  intro low found r hfound hlow hpos hstop
  simp only [Run.mem_keys, not_not]
  rcases s.requirePresent_spec r.start r.stop with ⟨hall, hok⟩ | ⟨k, hk, herror⟩
  · -- the positions found so far lie below those of the run, and all of them are small enough
    have hrank := rank_stop hpos hall
    have hwidth : 0 < r.width := Nat.sub_pos_of_lt hpos
    have hfree : ∀ p ∈ found.toList, ¬ (s.rank r.start ≤ p ∧ p < s.rank r.start + r.width) := by
      intro p hp
      have := hfound p hp
      have := s.rank_mono hlow
      omega
    have hbound : s.rank r.start + r.width ≤ maxKey := by
      rw [← hrank]
      exact Nat.le_trans (s.rank_le _) hstop
    obtain ⟨found', hadd⟩ : ∃ found',
        found.addRange (s.rank r.start) (s.rank r.start + r.width) = .ok found' := by
      have hgrows : s.rank r.start < s.rank r.start + r.width := by omega
      rcases found.addRange_spec hgrows hbound with ⟨-, found', hadd, -⟩ | ⟨⟨p, hp, hin⟩, -⟩
      · exact ⟨found', hadd⟩
      · exact absurd hin (hfree p hp)
    refine .inl ⟨fun k hk => hall k hk.1 hk.2, found', by rw [hok, ok_bind, hadd], ?_⟩
    intro p hp
    have hmono : s.rank r.stop ≤ s.rank (r.stop + 1) := s.rank_mono (Nat.le_succ _)
    rcases (KeySet.mem_addRange hadd).mp hp with hp | hp
    · omega
    · have := hfound p hp
      have := s.rank_mono hlow
      omega
  · exact .inr ⟨k, hk, by rw [herror]; rfl⟩

/-- Present keys have positions. -/
theorem exists_positions (h : ∀ k ∈ keys.toList, k ∈ s.toList) :
    ∃ rows, s.positions keys = .ok rows := by
  rcases s.positions_spec keys with ⟨-, hok⟩ | ⟨k, hk, -⟩
  · exact hok
  · exact absurd (h k hk.1.1) hk.1.2

/-- The positions of a set are those of its keys. -/
theorem mem_positions_iff {rows : KeySet} (h : s.positions keys = .ok rows)
    (hi : s.toList[i]? = some k) : i ∈ rows.toList ↔ k ∈ keys.toList := by
  obtain ⟨hrows, hall⟩ := toList_positions h
  rw [hrows, List.mem_map]
  refine ⟨?_, ?_⟩
  · rintro ⟨j, hj, rfl⟩
    rw [getElem?_rank (hall j hj)] at hi
    exact Option.some.inj hi ▸ hj
  · exact fun hk => ⟨k, hk, rank_eq_of_getElem? hi⟩

/-! ## Before keys are added -/

/-- What is left of a key space by removing keys and renumbering the others. -/
def Leaves (s : KeySpace) (removed : KeySet) (shifts : Renumbering) (t : KeySpace) : Prop :=
  ∃ erased : KeySpace, (∀ k, k ∈ erased.toList ↔ k ∈ s.toList ∧ k ∉ removed.toList) ∧
    erased.renumber shifts = .ok t

/-- There is only one key space that can be left. -/
theorem Leaves.unique {removed : KeySet} {shifts : Renumbering} {t' : KeySpace}
    (h : s.Leaves removed shifts t) (h' : s.Leaves removed shifts t') : t = t' := by
  obtain ⟨erased, hmem, ht⟩ := h
  obtain ⟨erased', hmem', ht'⟩ := h'
  obtain rfl : erased = erased' := ext_of_mem fun k => (hmem k).trans (hmem' k).symm
  exact Except.ok.inj (ht.symm.trans ht')

/-- The keys of a set may as well be removed one run after another. -/
theorem leaves_iff {removed : KeySet} {shifts : Renumbering} {erased : KeySpace}
    (herase : s.eraseAll removed = .ok erased) :
    s.Leaves removed shifts t ↔ erased.renumber shifts = .ok t := by
  have hmem := (eraseAll_eq_ok herase).1
  refine ⟨?_, fun ht => ⟨erased, hmem, ht⟩⟩
  rintro ⟨erased', hmem', ht⟩
  rwa [ext_of_mem (s := erased) (t := erased') fun k => (hmem k).trans (hmem' k).symm]

end KeySpace

end LiveTables
