import LiveTables.Proofs.Table.Acceptance
import LiveTables.Proofs.Table.Export

/-!
# Rows that no update can name

An update names keys by sets, and no set holds `maxKey`. Keys are added by sets, so none is added at
`maxKey`; but a move may carry a key there, as `KeySpace.shift` allows every landing place in the
key space. An update that does this strands a row (`LiveTable.Strands`). From then on the row can
neither be removed nor modified, nor can its key be moved: it stays as it is whatever updates follow
(`LiveTable.Settled.stranded_apply`).

No other row is out of reach. Any key below `maxKey` is the only member of some set, and the update
that removes this set is accepted (`LiveTable.Settled.removable_iff`). So the rows of a table can
each be removed by themselves just if no update of its past has stranded one
(`LiveTable.removable_applyAll_iff`).
-/

namespace LiveTables

/-! ## The keys that sets can hold -/

/-- Below `maxKey` every key is the only member of a set. -/
theorem KeySet.toList_ofRange_self {k : Nat} (hk : k < maxKey) :
    (KeySet.ofRange k (k + 1)).toList = [k] := by
  refine List.Pairwise.eq_of_mem_iff (r := (· < ·)) (ascending _) (List.pairwise_singleton _ k)
    fun j => ?_
  rw [KeySet.toList, KeySet.ofRange, Runs.mem_insert, Nat.min_eq_left hk, Nat.lt_succ_iff,
    Runs.toList_nil, or_iff_left List.not_mem_nil, List.mem_singleton, ← Nat.le_antisymm_iff]
  exact eq_comm

/-- A key is in some set just if it is not the largest one of all. -/
theorem KeySet.exists_mem_iff {k : Nat} : (∃ s : KeySet, k ∈ s.toList) ↔ k < maxKey := by
  refine ⟨?_, ?_⟩
  · rintro ⟨s, hs⟩
    exact KeySet.lt_maxKey hs
  · intro hk
    refine ⟨KeySet.ofRange k (k + 1), ?_⟩
    rw [KeySet.toList_ofRange_self hk]
    exact List.mem_singleton_self k

/-- The last source key of a move is in a set, so `maxKey` is in no source. -/
theorem Renumbering.not_covers_maxKey {r : Renumbering} {m : Move} (hm : m ∈ r.moves) :
    ¬ m.covers maxKey := by
  obtain ⟨⟨start, last, dest⟩, ht, rfl⟩ := List.mem_map.mp hm
  obtain ⟨i, hi⟩ := List.getElem?_of_mem ht
  obtain ⟨-, hlast, -⟩ := getElem?_triples.mp hi
  have hlt : last < maxKey := KeySet.lt_maxKey (List.mem_of_getElem? hlast)
  intro hc
  exact Nat.not_lt.mpr hlt hc.2

/-- The moves of an update leave `maxKey` where it is. -/
theorem Renumbering.path_maxKey {r : Renumbering} {ms : List Move} (h : r.schedule = .ok ms) :
    Move.path ms maxKey = maxKey :=
  (Move.path_of_uncovered fun _ hm => not_covers_maxKey ((mem_schedule h).mp hm).1).1

namespace LiveTable

variable {t t' : LiveTable} {u : Update} {change : Change} {k : Nat} {row : Row}

/-! ## What an update strands -/

/-- The keys after an update are those that it adds, and what its moves make of the keys that it
does not remove. -/
theorem Settled.mem_keys_of_apply (h : t.Settled) (hu : t.apply u = (.ok change, t')) :
    ∃ moves, u.shifts.schedule = .ok moves ∧ ∀ k, k ∈ t'.keys.toList ↔
      (∃ j ∈ t.keys.toList, j ∉ u.removed.toList ∧ Move.path moves j = k) ∨
        k ∈ u.added.toList := by
  obtain ⟨p, erased, shifted, final, _, _, _, columns, hr, -, rfl, -⟩ := h.apply_eq_ok hu
  obtain ⟨moves, hmoves, hfold⟩ := KeySpace.renumber_eq_ok_iff.mp hr.renumber
  refine ⟨moves, hmoves, fun k => ?_⟩
  have hfinal : ((t.replace final columns).enter .idle).keys = final := rfl
  rw [hfinal, (KeySpace.addAll_eq_ok hr.addAll).1, KeySpace.toList_foldlM_shift hfold, List.mem_map]
  refine or_congr_left (exists_congr fun j => ?_)
  rw [(KeySpace.eraseAll_eq_ok hr.eraseAll).1, and_assoc]

/-- An update strands a row if it is accepted, and its moves carry the key of a row that it does not
remove to `maxKey` from elsewhere. -/
def Strands (t : LiveTable) (u : Update) : Prop :=
  ∃ change t' moves k, t.apply u = (.ok change, t') ∧ u.shifts.schedule = .ok moves ∧
    (k ∈ t.keys.toList ∧ k ∉ u.removed.toList ∧ k ≠ maxKey) ∧ Move.path moves k = maxKey

/-- After an update `maxKey` is present just if it was so before, or the update strands a row. -/
theorem Settled.maxKey_mem_apply_iff (h : t.Settled) :
    maxKey ∈ (t.apply u).2.keys.toList ↔ maxKey ∈ t.keys.toList ∨ t.Strands u := by
  rcases h.refused_or_accepted u with ⟨e, happly⟩ | ⟨change, t', happly⟩
  · rw [happly]
    refine (or_iff_left ?_).symm
    rintro ⟨change, t', _, _, haccepted, -⟩
    cases happly.symm.trans haccepted
  · obtain ⟨moves, hmoves, hmem⟩ := h.mem_keys_of_apply happly
    have hadded : maxKey ∉ u.added.toList := fun hk => Nat.lt_irrefl _ (KeySet.lt_maxKey hk)
    rw [happly, hmem, or_iff_left hadded]
    refine ⟨?_, ?_⟩
    · rintro ⟨j, hj, hout, hpath⟩
      by_cases hmax : j = maxKey
      · exact .inl (hmax ▸ hj)
      · exact .inr ⟨change, t', moves, j, happly, hmoves, ⟨hj, hout, hmax⟩, hpath⟩
    · rintro (hmax | ⟨_, _, moves', j, -, hmoves', ⟨hj, hout, -⟩, hpath⟩)
      · refine ⟨maxKey, hmax, fun hk => Nat.lt_irrefl _ (KeySet.lt_maxKey hk), ?_⟩
        exact Renumbering.path_maxKey hmoves
      · obtain rfl : moves = moves' := Except.ok.inj (hmoves.symm.trans hmoves')
        exact ⟨j, hj, hout, hpath⟩

/-- After updates `maxKey` is present just if it was so before, or one of them stranded a row. -/
theorem Reachable.maxKey_mem_applyAll_iff (h : Reachable t) (us : List Update) :
    maxKey ∈ (t.applyAll us).keys.toList ↔ maxKey ∈ t.keys.toList ∨
      ∃ front u back, us = front ++ u :: back ∧ (t.applyAll front).Strands u := by
  induction us generalizing t with
  | nil => simp
  | cons u us ih =>
    rw [applyAll_cons, ih (h.apply u), h.settled.maxKey_mem_apply_iff, or_assoc]
    refine or_congr_right ⟨?_, ?_⟩
    · rintro (hfirst | ⟨front, u', back, rfl, hlater⟩)
      · exact ⟨[], u, us, rfl, hfirst⟩
      · exact ⟨u :: front, u', back, rfl, hlater⟩
    · rintro ⟨front, u', back, hus, hstrands⟩
      cases front with
      | nil =>
        obtain ⟨rfl, rfl⟩ := List.cons.inj hus
        exact .inl hstrands
      | cons first front =>
        obtain ⟨rfl, rfl⟩ := List.cons.inj hus
        exact .inr ⟨front, u', back, rfl, hstrands⟩

/-! ## Rows within reach and out of reach -/

/-- A row can be removed by itself if there is a set that holds its key and no other one, and the
update that removes this set is accepted. -/
def Removable (t : LiveTable) (k : Nat) : Prop :=
  ∃ keys : KeySet, keys.toList = [k] ∧
    ∃ change t', t.apply { removed := keys } = (.ok change, t')

/-- An update that only removes keys has the right form for any table. -/
theorem admits_removal (s : Schema) (keys : KeySet) : s.Admits { removed := keys } where
  exclusive := .inl rfl
  shifts := Renumbering.validate_eq_ok_iff.mp rfl
  added := ⟨by simp, by simp, fun _ _ => rfl⟩
  modified := .inl ⟨rfl, by simp⟩

/-- An update that only removes keys is accepted just if all of them are present. -/
theorem Settled.accepts_removal_iff (h : t.Settled) (keys : KeySet) :
    (∃ change t', t.apply { removed := keys } = (.ok change, t')) ↔
      ∀ k ∈ keys.toList, k ∈ t.keys.toList := by
  rw [h.accepts_iff, exists_prepare_iff, and_iff_right (admits_removal t.schema keys)]
  refine ⟨?_, ?_⟩
  · rintro ⟨shifted, hsuits⟩
    exact hsuits.removed
  · intro hall
    obtain ⟨erased, herase⟩ := t.keys.exists_eraseAll hall
    refine ⟨erased, hall, (KeySpace.leaves_iff herase).mpr rfl, ?_, ?_⟩
    · intro k hk
      exact absurd hk List.not_mem_nil
    · intro keys hkeys
      exact absurd hkeys List.not_mem_nil

/-- A present key can be removed by itself just if it is not the largest key of all. -/
theorem Settled.removable_iff (h : t.Settled) (hk : k ∈ t.keys.toList) :
    t.Removable k ↔ k ≠ maxKey := by
  refine ⟨?_, ?_⟩
  · rintro ⟨keys, hkeys, -⟩ rfl
    have hmem : maxKey ∈ keys.toList := hkeys ▸ List.mem_singleton_self maxKey
    exact Nat.lt_irrefl _ (KeySet.lt_maxKey hmem)
  · intro hne
    have hkeys := KeySet.toList_ofRange_self (Nat.lt_of_le_of_ne (t.keys.le_maxKey hk) hne)
    refine ⟨_, hkeys, (h.accepts_removal_iff _).mpr fun j hj => ?_⟩
    rw [hkeys, List.mem_singleton] at hj
    exact hj ▸ hk

/-- The row of `maxKey` is as it was after any update. -/
theorem Settled.stranded_apply (h : t.Settled) (u : Update) (hrow : (maxKey, row) ∈ t.content) :
    (maxKey, row) ∈ (t.apply u).2.content := by
  have hnone : ∀ keys : KeySet, maxKey ∉ keys.toList := fun _ hk =>
    Nat.lt_irrefl _ (KeySet.lt_maxKey hk)
  rcases h.refused_or_accepted u with ⟨e, happly⟩ | ⟨change, t', happly⟩
  · rwa [happly]
  · obtain ⟨p, erased, shifted, final, moves, _, columns₂, columns₃, -, hc, rfl, -⟩ :=
      h.apply_eq_ok happly
    rw [happly]
    change _ ∈ (t.replace final columns₃).content
    rw [hc.modify, hc.add, hc.renumber, hc.remove]
    -- one phase after another passes the row by
    have hkept : (maxKey, row) ∈ t.content.remove u.removed := by
      refine List.mem_filter.mpr ⟨hrow, ?_⟩
      rw [Bool.not_eq_true', ← Bool.not_eq_true, KeySet.contains_iff]
      exact hnone u.removed
    have hmoved : (maxKey, row) ∈ (t.content.remove u.removed).renumber moves := by
      refine List.mem_map.mpr ⟨_, hkept, ?_⟩
      rw [Renumbering.path_maxKey hc.schedule]
    refine List.mem_map.mpr ⟨(maxKey, row), List.mem_merge.mpr (.inl hmoved), ?_⟩
    have hedit : Content.edit maxKey u.modified (p.modifiedData.map Chunk.cells) row = row :=
      List.ext_getElem? fun j => Content.getElem?_edit_of_not_mem fun keys _ => hnone keys
    rw [hedit]

/-- The row of `maxKey` is as it was after any updates. -/
theorem Reachable.stranded_applyAll (h : Reachable t) (us : List Update)
    (hrow : (maxKey, row) ∈ t.content) : (maxKey, row) ∈ (t.applyAll us).content := by
  induction us generalizing t with
  | nil => exact hrow
  | cons u us ih => exact ih (h.apply u) (h.settled.stranded_apply u hrow)

/-- Whatever updates a table without rows has been through, each of its rows can be removed by
itself just if none of the updates has stranded one. A single row can be removed just if some set
holds its key, which is so for all keys but `maxKey`; and the row of `maxKey` is there for good. -/
theorem removable_applyAll_iff (schema : Schema) (config : TableConfig) (us : List Update)
    (ht : t = (new schema config).applyAll us) :
    ((∀ k ∈ t.keys.toList, t.Removable k) ↔ ∀ front u back, us = front ++ u :: back →
      ¬ ((new schema config).applyAll front).Strands u) ∧
    (∀ k ∈ t.keys.toList, (t.Removable k ↔ ∃ keys : KeySet, k ∈ keys.toList) ∧
      (t.Removable k ↔ k ≠ maxKey)) ∧
    ∀ row, (maxKey, row) ∈ t.content → ∀ later, (maxKey, row) ∈ (t.applyAll later).content := by
  have hreachable : Reachable t := ht ▸ ((Reachable.new schema config).applyAll us).1
  have hsettled := hreachable.settled
  have hmax : maxKey ∈ t.keys.toList ↔
      ∃ front u back, us = front ++ u :: back ∧
        ((new schema config).applyAll front).Strands u := by
    have hempty : maxKey ∉ (new schema config).keys.toList := List.not_mem_nil
    rw [ht, (Reachable.new schema config).maxKey_mem_applyAll_iff us, or_iff_right hempty]
  refine ⟨⟨?_, ?_⟩, fun k hk => ⟨?_, hsettled.removable_iff hk⟩, fun row hrow later => ?_⟩
  · intro hall front u back hus hstrands
    have hk := hmax.mpr ⟨front, u, back, hus, hstrands⟩
    exact (hsettled.removable_iff hk).mp (hall maxKey hk) rfl
  · intro hnone k hk
    refine (hsettled.removable_iff hk).mpr ?_
    rintro rfl
    obtain ⟨front, u, back, hus, hstrands⟩ := hmax.mp hk
    exact hnone front u back hus hstrands
  · rw [hsettled.removable_iff hk, KeySet.exists_mem_iff, Nat.lt_iff_le_and_ne]
    exact (and_iff_right (t.keys.le_maxKey hk)).symm
  · exact hreachable.stranded_applyAll later hrow

/-- Key 7 is moved as far up as it goes without being stranded. -/
theorem removable_applyAll_iff_of_raised : ∃ (u : Update) (t : LiveTable),
    t = (new Quotes.schema {}).applyAll [Quotes.start, u] ∧ t.keys.toList = [5, maxKey - 1] ∧
    (∀ k ∈ t.keys.toList, t.Removable k) ∧ ¬ Quotes.table.Strands u := by
  let raise : Update := {
    shifts := ⟨.ofRange 7 8, .ofRange 7 8, .ofRange (maxKey - 1) maxKey⟩ }
  have hkeys : ((new Quotes.schema {}).applyAll [Quotes.start, raise]).keys.toList =
      [5, maxKey - 1] := by decide +kernel
  obtain ⟨hall, hone, -⟩ := removable_applyAll_iff Quotes.schema {} [Quotes.start, raise] rfl
  have hremovable : ∀ k ∈ ((new Quotes.schema {}).applyAll [Quotes.start, raise]).keys.toList,
      ((new Quotes.schema {}).applyAll [Quotes.start, raise]).Removable k := by
    intro k hk
    refine (hone k hk).2.mpr ?_
    rw [hkeys] at hk
    rcases List.mem_pair.mp hk with rfl | rfl <;> decide
  exact ⟨raise, _, rfl, hkeys, hremovable, hall.mp hremovable [Quotes.start] raise [] rfl⟩

/-- The move of keys 6 and 7 up by `maxKey - 7` strands the row of key 7. Its key is in no set, so
no update can remove it. -/
theorem exists_stranded : ∃ (u : Update) (t : LiveTable),
    u.shifts.triples = [(6, 7, maxKey - 1)] ∧ Reachable t ∧
    t = (Quotes.table.apply u).2 ∧ t.keys.toList = [5, maxKey] ∧
    (¬ ∃ keys : KeySet, maxKey ∈ keys.toList) ∧ ¬ ∀ k ∈ t.keys.toList, t.Removable k := by
  let raise : Update := {
    shifts := ⟨.ofRange 6 7, .ofRange 7 8, .ofRange (maxKey - 1) maxKey⟩ }
  have hkeys : (Quotes.table.apply raise).2.keys.toList = [5, maxKey] := by decide +kernel
  have hreachable : Reachable (Quotes.table.apply raise).2 := Quotes.reachable_table.apply raise
  refine ⟨raise, _, by decide +kernel, hreachable, rfl, hkeys, ?_, fun hall => ?_⟩
  · rw [KeySet.exists_mem_iff]
    exact Nat.lt_irrefl maxKey
  · have hmem : maxKey ∈ (Quotes.table.apply raise).2.keys.toList := by
      rw [hkeys]
      exact List.mem_cons_of_mem _ (List.mem_singleton_self _)
    exact (hreachable.settled.removable_iff hmem).mp (hall maxKey hmem) rfl

end LiveTable

end LiveTables
