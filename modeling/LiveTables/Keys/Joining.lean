import LiveTables.Keys.Run

/-!
# Joining a range with its neighbours

Runs that ascend are an ordered map from the first key of a run to the first key past it. A range
that is to be added goes between two neighbours, the last run that starts at or before its first key
and the first run that starts past it. `Runs.join?` looks at these two only: if neither overlaps the
range, no run does, and the range becomes one with a neighbour that it touches.

In normal form two neighbours are enough (`Spaced.join?_cases`): the runs before and after them are
further away.
-/

namespace LiveTables

/-- Normal form, said of single runs and of any two of them. -/
theorem spaced_iff {limit low : Nat} {rs : List Run} : Spaced limit low rs ↔
    (∀ r ∈ rs, low ≤ r.start ∧ r.start < r.stop ∧ r.stop ≤ limit) ∧
      rs.Pairwise (fun r s => r.stop < s.start) := by
  induction rs generalizing low with
  | nil => simp [Spaced]
  | cons r rs ih =>
    rw [Spaced, ih, List.forall_mem_cons, List.pairwise_cons]
    refine ⟨?_, ?_⟩
    · rintro ⟨hlow, hpos, hstop, hall, hpair⟩
      refine ⟨⟨⟨hlow, hpos, hstop⟩, fun s hs => ?_⟩, fun s hs => ?_, hpair⟩
      · obtain ⟨hrs, hrest⟩ := hall s hs
        exact ⟨by omega, hrest⟩
      · exact (hall s hs).1
    · rintro ⟨⟨⟨hlow, hpos, hstop⟩, hall⟩, hbehind, hpair⟩
      exact ⟨hlow, hpos, hstop, fun s hs => ⟨hbehind s hs, (hall s hs).2⟩, hpair⟩

namespace Runs

/-- The last run that starts at or before `k`. -/
def upTo? (rs : List Run) (k : Nat) : Option Run := (rs.filter (·.start ≤ k)).getLast?

/-- The first run that starts past `k`. -/
def past? (rs : List Run) (k : Nat) : Option Run := rs.find? (k < ·.start)

/-- All runs but the one that starts at `k`. -/
def remove (k : Nat) (rs : List Run) : List Run := rs.filter (·.start ≠ k)

/-- Put a run in its place by its first key, instead of the run that has the same first key. -/
def put (r : Run) : List Run → List Run
  | [] => [r]
  | s :: rs =>
    if s.start < r.start then s :: put r rs
    else if s.start = r.start then r :: rs
    else r :: s :: rs

/-- The first key of a run that is to start at `b`, once it has become one with the run to its left
if that one ends there. -/
def joinLeft (left : Option Run) (b : Nat) : Nat :=
  match left with
  | some l => if l.stop = b then l.start else b
  | none => b

/-- The end of a run that is to end at `e`, once it has become one with the run to its right if that
one starts there, beside the runs that are left then. -/
def joinRight (right : Option Run) (e : Nat) (rs : List Run) : Nat × List Run :=
  match right with
  | some r => if r.start = e then (r.stop, remove r.start rs) else (e, rs)
  | none => (e, rs)

/-- Add the non-empty range `[b, e)`, unless one of its neighbours overlaps it. -/
def join? (b e : Nat) (rs : List Run) : Option (List Run) :=
  let left := upTo? rs b
  let right := past? rs b
  if left.any (b < ·.stop) || right.any (·.start < e) then none
  else
    let (stop, rest) := joinRight right e rs
    some (put ⟨joinLeft left b, stop⟩ rest)

variable {front back : List Run} {r s : Run} {k : Nat}

theorem upTo?_append (hfront : ∀ r ∈ front, r.start ≤ k) (hback : ∀ r ∈ back, k < r.start) :
    upTo? (front ++ back) k = front.getLast? := by
  have hnone : back.filter (·.start ≤ k) = [] := by
    rw [List.filter_eq_nil_iff]
    intro r hr
    simpa using hback r hr
  rw [upTo?, List.filter_append, hnone, List.append_nil, List.filter_eq_self.mpr]
  exact fun r hr => by simpa using hfront r hr

theorem past?_append (hfront : ∀ r ∈ front, r.start ≤ k) (hback : ∀ r ∈ back, k < r.start) :
    past? (front ++ back) k = back.head? := by
  have hnone : front.find? (k < ·.start) = none := by
    rw [List.find?_eq_none]
    intro r hr
    simpa using hfront r hr
  rw [past?, List.find?_append, hnone, Option.none_or]
  cases back with
  | nil => rfl
  | cons r back => simp [hback r (List.mem_cons_self ..)]

theorem put_append (hfront : ∀ s ∈ front, s.start < r.start) :
    put r (front ++ back) = front ++ put r back := by
  induction front with
  | nil => rfl
  | cons s front ih =>
    rw [List.cons_append, put, if_pos (hfront s (List.mem_cons_self ..)),
      ih fun t ht => hfront t (List.mem_cons_of_mem _ ht), List.cons_append]

/-- A run is put in front of the runs that start past it. -/
theorem put_of_lt (hback : ∀ s ∈ back, r.start < s.start) : put r back = r :: back := by
  cases back with
  | nil => rfl
  | cons s back =>
    have hlt := hback s (List.mem_cons_self ..)
    rw [put, if_neg (by omega), if_neg (by omega)]

theorem remove_append (hfront : ∀ s ∈ front, s.start < r.start)
    (hback : ∀ s ∈ back, r.start < s.start) :
    remove r.start (front ++ r :: back) = front ++ back := by
  rw [remove, List.filter_append, List.filter_cons_of_neg (by simp), List.filter_eq_self.mpr,
    List.filter_eq_self.mpr]
  · intro s hs
    simpa using Nat.ne_of_gt (hback s hs)
  · intro s hs
    simpa using Nat.ne_of_lt (hfront s hs)

/-- `rs'` is `rs` with the range `[b, e)`, in one run with the neighbours that touch it. -/
def Joins (b e : Nat) (rs rs' : List Run) : Prop :=
  ∃ front back start stop, start ≤ b ∧ e ≤ stop ∧
    rs = front ++ insert start b [] ++ (insert e stop [] ++ back) ∧
    rs' = front ++ ⟨start, stop⟩ :: back ∧
    (∀ r ∈ front, r.stop < start) ∧ ∀ r ∈ back, stop < r.start

theorem size_append (rs qs : List Run) : size (rs ++ qs) = size rs + size qs := by
  induction rs with
  | nil => exact (Nat.zero_add _).symm
  | cons r rs ih => rw [List.cons_append, size, size, ih, Nat.add_assoc]

theorem size_insert_nil (b e : Nat) : size (insert b e []) = e - b := by
  rw [insert]
  split
  · rfl
  · rw [size]
    omega

/-- Joined runs hold the keys of the range besides. -/
theorem Joins.size_eq {b e : Nat} {rs rs' : List Run} (h : Joins b e rs rs') (hbe : b < e) :
    size rs' = size rs + (e - b) := by
  obtain ⟨front, back, start, stop, hstart, hstop, rfl, rfl, -, -⟩ := h
  simp only [size_append, size_insert_nil, size, Run.width]
  omega

end Runs

namespace Spaced

variable {limit low b e : Nat} {rs : List Run}

/-- Ascending runs fall into those that start by a key and those that start past it. -/
theorem exists_split (h : Spaced limit low rs) (k : Nat) : ∃ front back, rs = front ++ back ∧
    (∀ r ∈ front, r.start ≤ k) ∧ ∀ r ∈ back, k < r.start := by
  induction rs generalizing low with
  | nil => exact ⟨[], [], rfl, by simp, by simp⟩
  | cons r rs ih =>
    obtain ⟨hall, hpair⟩ := spaced_iff.mp h
    obtain ⟨-, -, -, hrest⟩ := h
    by_cases hr : r.start ≤ k
    · obtain ⟨front, back, rfl, hfront, hback⟩ := ih hrest
      exact ⟨r :: front, back, rfl, List.forall_mem_cons.mpr ⟨hr, hfront⟩, hback⟩
    · refine ⟨[], r :: rs, rfl, by simp, List.forall_mem_cons.mpr ⟨by omega, fun s hs => ?_⟩⟩
      have hpos := (hall r (List.mem_cons_self ..)).2.1
      have hbehind := (List.pairwise_cons.mp hpair).1 s hs
      omega

/-- Runs that start by `b`, of which the last one ends by it. A run that goes on from there is put
behind them, or over the last one if that one ends just there. -/
theorem exists_left {front : List Run} {start : Nat} (h : Spaced limit low front)
    (hlast : ∀ l, front.getLast? = some l → l.stop ≤ b)
    (hstart : Runs.joinLeft front.getLast? b = start) :
    ∃ first, front = first ++ Runs.insert start b [] ∧ start ≤ b ∧ (∀ r ∈ first, r.stop < start) ∧
      ∀ stop back, (∀ r ∈ back, b < r.start) →
        Runs.put ⟨start, stop⟩ (front ++ back) = first ++ ⟨start, stop⟩ :: back := by
  obtain ⟨hall, hpair⟩ := spaced_iff.mp h
  have hempty : Runs.insert b b [] = [] := if_neg (Nat.lt_irrefl b)
  rcases List.eq_nil_or_concat front with rfl | ⟨first, l, rfl⟩
  · obtain rfl : b = start := hstart
    exact ⟨[], hempty.symm, Nat.le_refl _, by simp, fun stop back hback => Runs.put_of_lt hback⟩
  · rw [List.concat_eq_append] at hall hpair hlast hstart ⊢
    rw [List.getLast?_concat, Runs.joinLeft] at hstart
    obtain ⟨-, -, hfl⟩ := List.pairwise_append.mp hpair
    have hpos : l.start < l.stop := (hall l (by simp)).2.1
    have hle : l.stop ≤ b := hlast l List.getLast?_concat
    have hbefore : ∀ r ∈ first, r.stop < l.start := fun r hr =>
      hfl r hr l (List.mem_singleton_self l)
    have hstarts : ∀ r ∈ first, r.start < l.start := by
      intro r hr
      have := (hall r (List.mem_append_left _ hr)).2.1
      have := hbefore r hr
      omega
    split at hstart
    · rename_i htouch
      obtain rfl : l.start = start := hstart
      have hpart : Runs.insert l.start b [] = [l] := by
        rw [Runs.insert, if_pos (by omega), Runs.merge, ← htouch]
      refine ⟨first, by rw [hpart], by omega, hbefore, fun stop back _ => ?_⟩
      rw [List.append_assoc, Runs.put_append (r := ⟨l.start, stop⟩) hstarts, List.singleton_append,
        Runs.put, if_neg (Nat.lt_irrefl _), if_pos rfl]
    · obtain rfl : b = start := hstart
      refine ⟨first ++ [l], by rw [hempty, List.append_nil], Nat.le_refl _, ?_,
        fun stop back hback => ?_⟩
      · simp only [List.mem_append, List.mem_singleton]
        rintro r (hr | rfl)
        · have := hbefore r hr
          omega
        · omega
      · rw [Runs.put_append, Runs.put_of_lt hback]
        simp only [List.mem_append, List.mem_singleton]
        rintro r (hr | rfl)
        · have := hstarts r hr
          omega
        · omega

/-- Runs that start past `b`, of which the first one starts at `e` or later. It is taken out if it
starts just there. -/
theorem exists_right {front back : List Run} (h : Spaced limit low back) (hbe : b < e)
    (hfront : ∀ r ∈ front, r.start ≤ b) (hhead : ∀ r, back.head? = some r → e ≤ r.start) :
    ∃ last stop, back = Runs.insert e stop [] ++ last ∧ e ≤ stop ∧ (∀ r ∈ last, stop < r.start) ∧
      Runs.joinRight back.head? e (front ++ back) = (stop, front ++ last) := by
  obtain ⟨hall, hpair⟩ := spaced_iff.mp h
  have hempty : Runs.insert e e [] = [] := if_neg (Nat.lt_irrefl e)
  cases back with
  | nil => exact ⟨[], e, by rw [hempty]; rfl, Nat.le_refl _, by simp, rfl⟩
  | cons r back =>
    have hpos : r.start < r.stop := (hall r (List.mem_cons_self ..)).2.1
    have hle : e ≤ r.start := hhead r rfl
    have hbehind : ∀ s ∈ back, r.stop < s.start := (List.pairwise_cons.mp hpair).1
    rw [List.head?_cons, Runs.joinRight]
    split
    · rename_i htouch
      have hpart : Runs.insert e r.stop [] = [r] := by
        rw [Runs.insert, if_pos (by omega), Runs.merge, ← htouch]
      refine ⟨back, r.stop, by rw [hpart]; rfl, by omega, hbehind, ?_⟩
      rw [Runs.remove_append]
      · intro s hs
        have := hfront s hs
        omega
      · intro s hs
        have := hbehind s hs
        omega
    · refine ⟨r :: back, e, by rw [hempty]; rfl, Nat.le_refl _, ?_, rfl⟩
      refine List.forall_mem_cons.mpr ⟨by omega, fun s hs => ?_⟩
      have := hbehind s hs
      omega

/-- A range is joined with its neighbours, or one of them overlaps it. -/
theorem join?_cases (h : Spaced limit low rs) (hbe : b < e) :
    (∃ rs', Runs.join? b e rs = some rs' ∧ Runs.Joins b e rs rs') ∨
      Runs.join? b e rs = none ∧ ∃ r ∈ rs, r.start < e ∧ b < r.stop := by
  obtain ⟨front, back, rfl, hfront, hback⟩ := h.exists_split b
  obtain ⟨hall, hpair⟩ := spaced_iff.mp h
  obtain ⟨hfpair, hbpair, -⟩ := List.pairwise_append.mp hpair
  have hf : Spaced limit low front :=
    spaced_iff.mpr ⟨fun r hr => hall r (List.mem_append_left _ hr), hfpair⟩
  have hb : Spaced limit low back :=
    spaced_iff.mpr ⟨fun r hr => hall r (List.mem_append_right _ hr), hbpair⟩
  rw [Runs.join?, Runs.upTo?_append hfront hback, Runs.past?_append hfront hback]
  simp only
  split
  · rename_i hover
    refine .inr ⟨rfl, ?_⟩
    rcases Bool.or_eq_true_iff.mp hover with hleft | hright
    · obtain ⟨l, hl, hlt⟩ := (Option.any_eq_true ..).mp hleft
      have hmem := List.mem_of_getLast? hl
      have := hfront l hmem
      exact ⟨l, List.mem_append_left _ hmem, by omega, by simpa using hlt⟩
    · obtain ⟨r, hr, hlt⟩ := (Option.any_eq_true ..).mp hright
      have hmem := List.mem_of_head? hr
      have := hback r hmem
      have := (hall r (List.mem_append_right _ hmem)).2.1
      exact ⟨r, List.mem_append_right _ hmem, by simpa using hlt, by omega⟩
  · rename_i hclear
    rw [Bool.or_eq_true, not_or, Option.any_eq_true, Option.any_eq_true] at hclear
    obtain ⟨hnoleft, hnoright⟩ := hclear
    have hlast : ∀ l, front.getLast? = some l → l.stop ≤ b := fun l hl =>
      Nat.le_of_not_lt fun hlt => hnoleft ⟨l, hl, by simpa using hlt⟩
    have hhead : ∀ r, back.head? = some r → e ≤ r.start := fun r hr =>
      Nat.le_of_not_lt fun hlt => hnoright ⟨r, hr, by simpa using hlt⟩
    obtain ⟨last, stop, hbacks, hstop, hpast, hjoin⟩ := hb.exists_right hbe hfront hhead
    obtain ⟨first, hfronts, hstart, hbefore, hput⟩ := hf.exists_left hlast rfl
    have hlate : ∀ r ∈ last, b < r.start := fun r hr =>
      hback r (hbacks ▸ List.mem_append_right _ hr)
    rw [hjoin]
    exact .inl ⟨_, rfl, first, last, _, stop, hstart, hstop, by rw [← hfronts, ← hbacks],
      hput stop last hlate, hbefore, hpast⟩

variable {rs' : List Run}

/-- Joined runs are in normal form. -/
theorem joins (h : Spaced limit low rs) (hlow : low ≤ b) (hbe : b < e)
    (he : e ≤ limit) (hjoin : Runs.Joins b e rs rs') : Spaced limit low rs' := by
  obtain ⟨front, back, start, stop, hstart, hstop, rfl, rfl, hfront, hback⟩ := hjoin
  obtain ⟨hall, hpair⟩ := spaced_iff.mp h
  obtain ⟨hleft, hright, hbetween⟩ := List.pairwise_append.mp hpair
  obtain ⟨hf, -, -⟩ := List.pairwise_append.mp hleft
  obtain ⟨-, hb, -⟩ := List.pairwise_append.mp hright
  -- a neighbour that became one with the range was there before
  have hfirst : low ≤ start := by
    by_cases hlt : start < b
    · exact (hall ⟨start, b⟩ (by simp [Runs.insert, Runs.merge, hlt])).1
    · omega
  have hend : stop ≤ limit := by
    by_cases hlt : e < stop
    · exact (hall ⟨e, stop⟩ (by simp [Runs.insert, Runs.merge, hlt])).2.2
    · omega
  refine spaced_iff.mpr ⟨?_, List.pairwise_append.mpr ⟨hf, List.pairwise_cons.mpr ⟨hback, hb⟩, ?_⟩⟩
  · simp only [List.mem_append, List.mem_cons]
    rintro r (hr | rfl | hr)
    · exact hall r (by simp [hr])
    · exact ⟨hfirst, Nat.lt_of_le_of_lt hstart (Nat.lt_of_lt_of_le hbe hstop), hend⟩
    · exact hall r (by simp [hr])
  · intro r hr
    refine List.forall_mem_cons.mpr ⟨hfront r hr, fun s hs => ?_⟩
    exact hbetween r (by simp [hr]) s (by simp [hs])

/-- What is joined is in normal form. -/
theorem join? (h : Spaced limit low rs) (hlow : low ≤ b) (hbe : b < e) (he : e ≤ limit)
    (hjoin : Runs.join? b e rs = some rs') : Spaced limit low rs' := by
  rcases h.join?_cases hbe with ⟨rs'', hsome, hjoins⟩ | ⟨hnone, -⟩
  · obtain rfl := Option.some.inj (hjoin.symm.trans hsome)
    exact h.joins hlow hbe he hjoins
  · cases hjoin.symm.trans hnone

/-- What is joined has the keys of the range besides. -/
theorem size_join? (h : Spaced limit low rs) (hbe : b < e)
    (hjoin : Runs.join? b e rs = some rs') : Runs.size rs' = Runs.size rs + (e - b) := by
  rcases h.join?_cases hbe with ⟨rs'', hsome, hjoins⟩ | ⟨hnone, -⟩
  · obtain rfl := Option.some.inj (hjoin.symm.trans hsome)
    exact hjoins.size_eq hbe
  · cases hjoin.symm.trans hnone

end Spaced

end LiveTables
