import LiveTables.Proofs.Keys.Renumbering
import LiveTables.Proofs.Keys.Sets
import Mathlib.Data.List.Nodup
import Mathlib.Order.Basic

/-!
# Renumberings from triples

A renumbering is asked for as a list of triples, and is kept as three sets. What belongs to what is
not in the sets: `Renumbering.triples` pairs the members again, by their ranks.

The sets know of the triples just the list of their starts, of their last keys and of their
destinations, each up to order (`Renumbering.ofTriples_eq_ok_iff`). Since no triple ends before it
starts there are at any bound at least as many starts below it as last keys, so after the pairing by
rank no move ends before it starts either (`getElem_le_of_countP_le`). A triple can come out with
the last key and the destination of another one, though. The triples come back as they were just if
they ascend side by side (`Renumbering.triples_eq_byStart_iff`).
-/

namespace LiveTables

/-! ## Ranks -/

section Ascending

variable {l m : List Nat}

/-- If at any bound the list `l` has at least as many members below it as `m` then the member of `l`
at a position is by the member of `m` there. -/
theorem getElem_le_of_countP_le (hl : l.Pairwise (· < ·)) (hm : m.Pairwise (· < ·))
    (h : ∀ k, m.countP (· < k) ≤ l.countP (· < k)) {i a b : Nat} (ha : l[i]? = some a)
    (hb : m[i]? = some b) : a ≤ b := by
  -- otherwise the members of `m` up to `b` are below `a`, and `l` has fewer than that below `a`
  by_contra hlt
  have hbelow : m.countP (· < b + 1) = i + 1 := by
    rw [countP_lt_succ hm (List.mem_of_getElem? hb), countP_lt_of_getElem? hm hb]
  have hmono : m.countP (· < b + 1) ≤ m.countP (· < a) :=
    List.countP_mono_left fun x _ hx => by
      simp only [decide_eq_true_eq] at hx ⊢
      omega
  have hrank := countP_lt_of_getElem? hl ha
  have := h a
  omega

end Ascending

/-! ## Sets of single keys -/

namespace KeySet

variable {s t : KeySet} {k : Nat} {ks : List Nat}

/-- A key is added just if it can be kept and is not there. -/
theorem exists_add_iff : (∃ t, s.add k = .ok t) ↔ k < maxKey ∧ k ∉ s.toList := by
  rw [add]
  by_cases hmax : k < maxKey
  · rw [and_iff_right hmax]
    rcases s.addRange_spec (Nat.lt_succ_self k) hmax with ⟨hfree, t, hadd, -⟩ | ⟨htaken, herror⟩
    · exact iff_of_true ⟨t, hadd⟩ fun hk => hfree k hk ⟨Nat.le_refl k, Nat.lt_succ_self k⟩
    · obtain ⟨j, hj, hin⟩ := htaken
      obtain rfl : j = k := by omega
      refine iff_of_false ?_ (not_not_intro hj)
      rintro ⟨t, hadd⟩
      cases herror.symm.trans hadd
  · refine iff_of_false ?_ fun h => hmax h.1
    rintro ⟨t, hadd⟩
    have hk : k ∈ t.toList := (mem_addRange hadd).mpr (.inl ⟨Nat.le_refl k, Nat.lt_succ_self k⟩)
    exact hmax (lt_maxKey hk)

/-- Adding a key makes the set that lists it besides. -/
theorem add_eq_ok_iff : s.add k = .ok t ↔ t.toList.Perm (k :: s.toList) := by
  have hmem : ∀ {u : KeySet}, s.add k = .ok u → ∀ j, j ∈ u.toList ↔ j ∈ k :: s.toList := by
    intro u hu j
    have hrange : (k ≤ j ∧ j < k + 1) ↔ j = k := by omega
    rw [mem_addRange hu, hrange, List.mem_cons]
  refine ⟨fun h => ?_, fun h => ?_⟩
  · have hfree := (exists_add_iff.mp ⟨t, h⟩).2
    exact (List.perm_ext_iff_of_nodup t.nodup (List.nodup_cons.mpr ⟨hfree, s.nodup⟩)).mpr (hmem h)
  · have hfree := (List.nodup_cons.mp (h.nodup t.nodup)).1
    have hmax := lt_maxKey (h.mem_iff.mpr (List.mem_cons_self ..))
    obtain ⟨u, hu⟩ := exists_add_iff.mpr ⟨hmax, hfree⟩
    rw [hu, ext_mem fun j => (hmem hu j).trans (h.mem_iff (a := j)).symm]

theorem foldlM_add_eq_ok_iff : ks.foldlM add s = .ok t ↔ t.toList.Perm (s.toList ++ ks) := by
  induction ks generalizing s with
  | nil =>
    rw [List.append_nil, List.foldlM_nil, pure_eq_ok]
    refine ⟨?_, fun h => ext_mem fun j => (h.mem_iff (a := j)).symm⟩
    rintro rfl
    exact .refl _
  | cons k ks ih =>
    rw [List.foldlM_cons, bind_eq_ok]
    simp only [add_eq_ok_iff, ih]
    refine ⟨?_, fun h => ?_⟩
    · rintro ⟨u, hu, ht⟩
      exact ht.trans ((hu.append_right ks).trans List.perm_middle.symm)
    · have hsplit := h.trans List.perm_middle
      have hmax := lt_maxKey (hsplit.mem_iff.mpr (List.mem_cons_self ..))
      have hfree := (List.nodup_cons.mp (hsplit.nodup t.nodup)).1
      obtain ⟨u, hu⟩ :=
        exists_add_iff.mpr ⟨hmax, fun hk => hfree (List.mem_append_left _ hk)⟩
      have hu := add_eq_ok_iff.mp hu
      exact ⟨u, hu, hsplit.trans (hu.append_right ks).symm⟩

/-- Keys make the set that lists them. -/
theorem ofKeys_eq_ok_iff : ofKeys ks = .ok t ↔ t.toList.Perm ks :=
  foldlM_add_eq_ok_iff

/-- Keys make a set just if they are distinct and can be kept. -/
theorem exists_perm_iff : (∃ t : KeySet, t.toList.Perm ks) ↔ ks.Nodup ∧ ∀ k ∈ ks, k < maxKey := by
  refine ⟨?_, ?_⟩
  · rintro ⟨t, ht⟩
    exact ⟨ht.nodup t.nodup, fun k hk => lt_maxKey (ht.mem_iff.mpr hk)⟩
  · rintro ⟨hnodup, hmax⟩
    induction ks with
    | nil => exact ⟨empty, .nil⟩
    | cons k ks ih =>
      obtain ⟨hk, hks⟩ := List.nodup_cons.mp hnodup
      obtain ⟨hkmax, hksmax⟩ := List.forall_mem_cons.mp hmax
      obtain ⟨t, ht⟩ := ih hks hksmax
      obtain ⟨u, hu⟩ := exists_add_iff.mpr ⟨hkmax, mt ht.mem_iff.mp hk⟩
      exact ⟨u, (add_eq_ok_iff.mp hu).trans (ht.cons k)⟩

end KeySet

/-! ## Renumberings -/

namespace Renumbering

variable {r : Renumbering} {ts : List (Nat × Nat × Nat)}

/-- A triple is added just if it does not end before it starts, and each of the three sets takes its
part. -/
theorem add_eq_ok_iff {r' : Renumbering} {start last dest : Nat} :
    r.add start last dest = .ok r' ↔ start ≤ last ∧ r.starts.add start = .ok r'.starts ∧
      r.lasts.add last = .ok r'.lasts ∧ r.dests.add dest = .ok r'.dests := by
  rw [add]
  split
  · rename_i hlt
    exact iff_of_false nofun fun h => absurd h.1 (Nat.not_le_of_lt hlt)
  · rename_i hle
    rw [and_iff_right (Nat.le_of_not_lt hle)]
    simp only [bind_eq_ok, pure_eq_ok]
    refine ⟨?_, ?_⟩
    · rintro ⟨starts, hstarts, lasts, hlasts, dests, hdests, rfl⟩
      exact ⟨hstarts, hlasts, hdests⟩
    · rintro ⟨hstarts, hlasts, hdests⟩
      exact ⟨_, hstarts, _, hlasts, _, hdests, rfl⟩

theorem foldlM_add_eq_ok_iff {r' : Renumbering} :
    ts.foldlM (fun r t => r.add t.1 t.2.1 t.2.2) r = .ok r' ↔
      (∀ t ∈ ts, t.1 ≤ t.2.1) ∧ (ts.map (·.1)).foldlM KeySet.add r.starts = .ok r'.starts ∧
      (ts.map (·.2.1)).foldlM KeySet.add r.lasts = .ok r'.lasts ∧
      (ts.map (·.2.2)).foldlM KeySet.add r.dests = .ok r'.dests := by
  induction ts generalizing r with
  | nil =>
    obtain ⟨starts, lasts, dests⟩ := r
    obtain ⟨starts', lasts', dests'⟩ := r'
    simp
  | cons t ts ih =>
    simp only [List.foldlM_cons, List.map_cons, bind_eq_ok, List.forall_mem_cons, ih,
      add_eq_ok_iff]
    refine ⟨?_, ?_⟩
    · rintro ⟨u, ⟨hle, hstart, hlast, hdest⟩, hall, hstarts, hlasts, hdests⟩
      exact ⟨⟨hle, hall⟩, ⟨_, hstart, hstarts⟩, ⟨_, hlast, hlasts⟩, ⟨_, hdest, hdests⟩⟩
    · rintro ⟨⟨hle, hall⟩, ⟨s, hstart, hstarts⟩, ⟨l, hlast, hlasts⟩, ⟨d, hdest, hdests⟩⟩
      exact ⟨⟨s, l, d⟩, ⟨hle, hstart, hlast, hdest⟩, hall, hstarts, hlasts, hdests⟩

/-- Triples make a renumbering just if none of them ends before it starts, and its sets list their
starts, their lasts and their destinations. -/
theorem ofTriples_eq_ok_iff : ofTriples ts = .ok r ↔
    (∀ t ∈ ts, t.1 ≤ t.2.1) ∧ r.starts.toList.Perm (ts.map (·.1)) ∧
      r.lasts.toList.Perm (ts.map (·.2.1)) ∧ r.dests.toList.Perm (ts.map (·.2.2)) := by
  rw [ofTriples, foldlM_add_eq_ok_iff, ← KeySet.ofKeys_eq_ok_iff, ← KeySet.ofKeys_eq_ok_iff,
    ← KeySet.ofKeys_eq_ok_iff]
  rfl

/-- Triples make a renumbering just if none of them ends before it starts, no two of them agree in
one of their three numbers, and all numbers can be kept. -/
theorem exists_ofTriples_iff : (∃ r, ofTriples ts = .ok r) ↔
    (∀ t ∈ ts, t.1 ≤ t.2.1) ∧
      (ts.map (·.1)).Nodup ∧ (ts.map (·.2.1)).Nodup ∧ (ts.map (·.2.2)).Nodup ∧
      ∀ t ∈ ts, t.1 < maxKey ∧ t.2.1 < maxKey ∧ t.2.2 < maxKey := by
  simp only [ofTriples_eq_ok_iff]
  refine ⟨?_, ?_⟩
  · rintro ⟨r, hle, hstarts, hlasts, hdests⟩
    obtain ⟨hs, hsmax⟩ := KeySet.exists_perm_iff.mp ⟨_, hstarts⟩
    obtain ⟨hl, hlmax⟩ := KeySet.exists_perm_iff.mp ⟨_, hlasts⟩
    obtain ⟨hd, hdmax⟩ := KeySet.exists_perm_iff.mp ⟨_, hdests⟩
    rw [List.forall_mem_map] at hsmax hlmax hdmax
    exact ⟨hle, hs, hl, hd, fun t ht => ⟨hsmax t ht, hlmax t ht, hdmax t ht⟩⟩
  · rintro ⟨hle, hs, hl, hd, hmax⟩
    obtain ⟨starts, hstarts⟩ := KeySet.exists_perm_iff.mpr
      ⟨hs, List.forall_mem_map.mpr fun t ht => (hmax t ht).1⟩
    obtain ⟨lasts, hlasts⟩ := KeySet.exists_perm_iff.mpr
      ⟨hl, List.forall_mem_map.mpr fun t ht => (hmax t ht).2.1⟩
    obtain ⟨dests, hdests⟩ := KeySet.exists_perm_iff.mpr
      ⟨hd, List.forall_mem_map.mpr fun t ht => (hmax t ht).2.2⟩
    exact ⟨⟨starts, lasts, dests⟩, hle, hstarts, hlasts, hdests⟩

/-- The same triples in another order make the same renumbering. -/
theorem ofTriples_perm {ts' : List (Nat × Nat × Nat)} (h : ofTriples ts = .ok r)
    (hperm : ts'.Perm ts) : ofTriples ts' = .ok r := by
  obtain ⟨hle, hstarts, hlasts, hdests⟩ := ofTriples_eq_ok_iff.mp h
  exact ofTriples_eq_ok_iff.mpr ⟨fun t ht => hle t (hperm.mem_iff.mp ht),
    hstarts.trans (hperm.map _).symm, hlasts.trans (hperm.map _).symm,
    hdests.trans (hperm.map _).symm⟩

/-- The three sets are of one size. -/
theorem size_ofTriples (h : ofTriples ts = .ok r) :
    r.starts.size = ts.length ∧ r.lasts.size = ts.length ∧ r.dests.size = ts.length := by
  obtain ⟨-, hstarts, hlasts, hdests⟩ := ofTriples_eq_ok_iff.mp h
  simp only [← KeySet.length_toList, hstarts.length_eq, hlasts.length_eq, hdests.length_eq,
    List.length_map, and_self]

/-- The `i`-th least start is by the `i`-th least last key. -/
theorem start_le_last (h : ofTriples ts = .ok r) {i start last : Nat}
    (hstart : r.starts.toList[i]? = some start) (hlast : r.lasts.toList[i]? = some last) :
    start ≤ last := by
  obtain ⟨hle, hstarts, hlasts, -⟩ := ofTriples_eq_ok_iff.mp h
  refine getElem_le_of_countP_le r.starts.ascending r.lasts.ascending (fun k => ?_) hstart hlast
  rw [hstarts.countP_eq, hlasts.countP_eq, List.countP_map, List.countP_map]
  refine List.countP_mono_left fun t ht hk => ?_
  have := hle t ht
  simp only [Function.comp_apply, decide_eq_true_eq] at hk ⊢
  omega

/-! ### The pairing -/

/-- Sets of one size are paired throughout. -/
theorem triples_eq_zip (h : ofTriples ts = .ok r) :
    r.triples = r.starts.toList.zip (r.lasts.toList.zip r.dests.toList) := by
  obtain ⟨hstarts, hlasts, hdests⟩ := size_ofTriples h
  have hall : ∀ s : KeySet, s.size = ts.length → (s.take ts.length).toList = s.toList :=
    fun s hs => by
      rw [KeySet.toList_take, List.take_of_length_le (by rw [KeySet.length_toList, hs])]
  rw [triples, hlasts, hdests, Nat.min_self, hstarts, Nat.min_self, hall _ hstarts, hall _ hlasts,
    hall _ hdests]

/-- A renumbering from triples is valid. -/
theorem validate_ofTriples (h : ofTriples ts = .ok r) : r.validate = .ok () := by
  obtain ⟨hstarts, hlasts, hdests⟩ := size_ofTriples h
  have hnone : (r.triples.find? fun t => t.2.1 < t.1) = none := by
    rw [List.find?_eq_none, triples_eq_zip h]
    intro t ht
    obtain ⟨i, hi⟩ := List.getElem?_of_mem ht
    obtain ⟨hstart, hrest⟩ := List.getElem?_zip_eq_some.mp hi
    have hle := start_le_last h hstart (List.getElem?_zip_eq_some.mp hrest).1
    simpa using hle
  rw [validate, if_neg (by omega), hnone]

/-- Triples sorted by their starts. -/
def byStart (ts : List (Nat × Nat × Nat)) : List (Nat × Nat × Nat) :=
  ts.mergeSort fun a b => a.1 ≤ b.1

theorem byStart_perm (ts : List (Nat × Nat × Nat)) : (byStart ts).Perm ts :=
  List.mergeSort_perm ts _

theorem pairwise_byStart (ts : List (Nat × Nat × Nat)) :
    (byStart ts).Pairwise fun a b => a.1 ≤ b.1 := by
  have hsorted : (byStart ts).Pairwise fun a b => decide (a.1 ≤ b.1) = true := by
    refine List.pairwise_mergeSort (fun a b c hab hbc => ?_) (fun a b => ?_) ts
    · simp only [decide_eq_true_eq] at hab hbc ⊢
      exact Nat.le_trans hab hbc
    · simp only [Bool.or_eq_true, decide_eq_true_eq]
      exact Nat.le_total a.1 b.1
  exact hsorted.imp of_decide_eq_true

/-- Do the triples, in the order of their starts, ascend in their last keys and their destinations
too? -/
def InStep (ts : List (Nat × Nat × Nat)) : Prop :=
  (byStart ts).Pairwise fun a b => a.2.1 < b.2.1 ∧ a.2.2 < b.2.2

/-- No two triples start at one key, so there is one way to sort them. -/
theorem eq_byStart (h : ofTriples ts = .ok r) {us : List (Nat × Nat × Nat)} (hperm : us.Perm ts)
    (hsorted : us.Pairwise fun a b => a.1 ≤ b.1) : us = byStart ts := by
  obtain ⟨-, hnodup, -⟩ := exists_ofTriples_iff.mp ⟨r, h⟩
  have hus := hperm.trans (byStart_perm ts).symm
  refine hus.eq_of_pairwise (fun a b ha hb hab hba => ?_) hsorted (pairwise_byStart ts)
  exact List.inj_on_of_nodup_map hnodup (hperm.mem_iff.mp ha) ((byStart_perm ts).mem_iff.mp hb)
    (Nat.le_antisymm hab hba)

/-- The triples come back, sorted, just if they ascend side by side. -/
theorem triples_eq_byStart_iff (h : ofTriples ts = .ok r) : r.triples = byStart ts ↔ InStep ts := by
  refine ⟨fun heq => ?_, fun hstep => ?_⟩
  · rw [InStep, ← heq]
    exact r.pairwise_triples.imp And.right
  · obtain ⟨-, hstarts, hlasts, hdests⟩ := ofTriples_eq_ok_iff.mp h
    obtain ⟨-, hnodup, -⟩ := exists_ofTriples_iff.mp ⟨r, h⟩
    -- an ascending list of the members of a set is the list of the set
    have hlist : ∀ {s : KeySet} {f : Nat × Nat × Nat → Nat}, s.toList.Perm (ts.map f) →
        ((byStart ts).map f).Pairwise (· < ·) → s.toList = (byStart ts).map f :=
      fun {s f} hperm hasc => s.ascending.eq_of_mem_iff hasc fun k =>
        (hperm.trans ((byStart_perm ts).map f).symm).mem_iff
    have hasc : ((byStart ts).map (·.1)).Pairwise (· < ·) := by
      have hne : ((byStart ts).map (·.1)).Nodup :=
        (((byStart_perm ts).map (·.1)).nodup_iff).mpr hnodup
      rw [List.Nodup, List.pairwise_map] at hne
      rw [List.pairwise_map]
      exact ((pairwise_byStart ts).and hne).imp fun hab => Nat.lt_of_le_of_ne hab.1 hab.2
    rw [triples_eq_zip h, hlist hstarts hasc,
      hlist hlasts (List.pairwise_map.mpr (hstep.imp And.left)),
      hlist hdests (List.pairwise_map.mpr (hstep.imp And.right)), List.zip_map', List.zip_map']
    exact List.map_id _

/-- Triples make a renumbering just if none of them ends before it starts, no two of them agree in
one of their three numbers, and all numbers can be kept. Their order does not matter, and what they
make is valid. Its moves are the triples sorted by start just if these ascend side by side, and else
they are other triples. -/
theorem ofTriples_spec (ts : List (Nat × Nat × Nat)) :
    ((∃ r, ofTriples ts = .ok r) ↔
      (∀ t ∈ ts, t.1 ≤ t.2.1) ∧
      (ts.map (·.1)).Nodup ∧ (ts.map (·.2.1)).Nodup ∧ (ts.map (·.2.2)).Nodup ∧
      ∀ t ∈ ts, t.1 < maxKey ∧ t.2.1 < maxKey ∧ t.2.2 < maxKey) ∧
    ∀ r, ofTriples ts = .ok r →
      (∀ us, us.Perm ts → ofTriples us = .ok r) ∧
      r.validate = .ok () ∧
      (∀ (i start last : Nat), r.starts.toList[i]? = some start → r.lasts.toList[i]? = some last →
        start ≤ last) ∧
      (r.triples = byStart ts ↔ InStep ts) ∧
      (r.triples.Perm ts ↔ InStep ts) := by
  refine ⟨exists_ofTriples_iff, fun r h => ⟨fun us => ofTriples_perm h, validate_ofTriples h,
    fun i start last => start_le_last h, triples_eq_byStart_iff h, fun hperm => ?_,
    fun hstep => ?_⟩⟩
  · rw [← triples_eq_byStart_iff h]
    exact eq_byStart h hperm (r.pairwise_triples.imp fun hab => Nat.le_of_lt hab.1)
  · rw [(triples_eq_byStart_iff h).mpr hstep]
    exact byStart_perm ts

/-- A triple within another one: they end in the other order, so each comes out with the last key of
the other. -/
theorem ofTriples_spec_of_nested : ∃ r, ofTriples [(4, 6, 40), (0, 9, 30)] = .ok r ∧
    ofTriples [(0, 9, 30), (4, 6, 40)] = .ok r ∧ r.validate = .ok () ∧
    r.triples = [(0, 6, 30), (4, 9, 40)] ∧ ¬ r.triples.Perm [(4, 6, 40), (0, 9, 30)] := by
  obtain ⟨hexists, hspec⟩ := ofTriples_spec [(4, 6, 40), (0, 9, 30)]
  obtain ⟨r, hr⟩ := hexists.mpr (by decide +kernel)
  obtain ⟨hperm, hvalid, -, -, hpair⟩ := hspec r hr
  have hsorted : [(0, 9, 30), (4, 6, 40)] = byStart [(4, 6, 40), (0, 9, 30)] :=
    eq_byStart hr (List.Perm.swap ..) (by decide)
  have hcrossed : ¬ InStep [(4, 6, 40), (0, 9, 30)] := by
    rw [InStep, ← hsorted]
    decide
  refine ⟨r, hr, hperm _ (List.Perm.swap ..), hvalid, ?_, mt hpair.mp hcrossed⟩
  have htriples : Renumbering.triples <$> ofTriples [(4, 6, 40), (0, 9, 30)] =
      .ok [(0, 6, 30), (4, 9, 40)] := by decide +kernel
  rw [hr] at htriples
  exact Except.ok.inj htriples

end Renumbering

end LiveTables
