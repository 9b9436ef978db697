import LiveTables.Keys.Joining
import Mathlib.Data.List.Sort
import Mathlib.Order.Monotone.Defs

/-!
# The keys of a list of runs

The functions of `Runs` compute on runs and never list the keys. Here each of them is read as an
operation on the list of all keys, `Runs.toList`. In normal form this list is strictly ascending
(`Spaced.ascending`), so it is settled by its members, and the number of keys below one of them is
its position (`countP_lt_of_getElem?`). That is all the later modules know about runs.
-/

namespace LiveTables

/-! ## Ascending lists

The part of an ascending list below a bound is a beginning of it, and its length is the number of
members below the bound. -/

section Ascending

variable {l : List Nat}

/-- An ascending list falls into the members below a bound and the others. -/
theorem exists_split_at (h : l.Pairwise (· < ·)) (k : Nat) :
    ∃ front back, l = front ++ back ∧ (∀ a ∈ front, a < k) ∧ (∀ c ∈ back, k ≤ c) ∧
      front.length = l.countP (· < k) := by
  induction l with
  | nil => exact ⟨[], [], rfl, by simp, by simp, rfl⟩
  | cons a l ih =>
    obtain ⟨ha, hl⟩ := List.pairwise_cons.mp h
    by_cases hak : a < k
    · obtain ⟨front, back, rfl, hfront, hback, hlen⟩ := ih hl
      refine ⟨a :: front, back, rfl, ?_, hback, ?_⟩
      · intro x hx
        rcases List.mem_cons.mp hx with rfl | hx
        · exact hak
        · exact hfront x hx
      · rw [List.countP_cons_of_pos (by simpa using hak), List.length_cons, hlen]
    · have hall : ∀ x ∈ a :: l, k ≤ x := by
        intro x hx
        rcases List.mem_cons.mp hx with rfl | hx
        · omega
        · have := ha x hx
          omega
      refine ⟨[], a :: l, rfl, by simp, hall, ?_⟩
      rw [List.length_nil, eq_comm, List.countP_eq_zero]
      intro x hx
      have := hall x hx
      simpa using this

/-- The member at position `i` has `i` members below it. -/
theorem countP_lt_of_getElem? (h : l.Pairwise (· < ·)) {i k : Nat} (hi : l[i]? = some k) :
    l.countP (· < k) = i := by
  induction l generalizing i with
  | nil => cases hi
  | cons a l ih =>
    obtain ⟨ha, hl⟩ := List.pairwise_cons.mp h
    cases i with
    | zero =>
      obtain rfl := Option.some.inj hi
      rw [List.countP_eq_zero]
      intro x hx
      rcases List.mem_cons.mp hx with rfl | hx
      · simp
      · have := ha x hx
        simp only [decide_eq_true_eq]
        omega
    | succ i =>
      rw [List.getElem?_cons_succ] at hi
      have hak : a < k := ha k (List.mem_of_getElem? hi)
      rw [List.countP_cons_of_pos (by simpa using hak), ih hl hi]

/-- Past a member there is one more below. -/
theorem countP_lt_succ (h : l.Pairwise (· < ·)) {k : Nat} (hk : k ∈ l) :
    l.countP (· < k + 1) = l.countP (· < k) + 1 := by
  have hcount : ∀ l : List Nat, l.countP (· < k + 1) = l.countP (· < k) + l.count k := by
    intro l
    induction l with
    | nil => rfl
    | cons a l ih =>
      rw [List.countP_cons, List.countP_cons, List.count_cons, ih]
      simp only [decide_eq_true_eq, beq_iff_eq]
      split <;> split <;> split <;> omega
  rw [hcount l, List.count_eq_one_of_mem h.nodup hk]

theorem le_of_head? (h : l.Pairwise (· < ·)) {a k : Nat} (hk : l.head? = some k) (ha : a ∈ l) :
    k ≤ a := by
  obtain ⟨back, rfl⟩ := List.head?_eq_some_iff.mp hk
  rcases List.mem_cons.mp ha with rfl | ha
  · exact Nat.le_refl a
  · exact Nat.le_of_lt ((List.pairwise_cons.mp h).1 a ha)

theorem le_of_getLast? (h : l.Pairwise (· < ·)) {a k : Nat} (hk : l.getLast? = some k)
    (ha : a ∈ l) : a ≤ k := by
  obtain ⟨front, rfl⟩ := List.getLast?_eq_some_iff.mp hk
  rcases List.mem_append.mp ha with ha | ha
  · exact Nat.le_of_lt ((List.pairwise_append.mp h).2.2 a ha k (List.mem_singleton_self k))
  · exact Nat.le_of_eq (List.mem_singleton.mp ha)

/-- The images of an ascending list ascend just if the function keeps the order of its members. -/
theorem pairwise_map_iff (h : l.Pairwise (· < ·)) {f : Nat → Nat} :
    (l.map f).Pairwise (· < ·) ↔ StrictMonoOn f {k | k ∈ l} := by
  rw [List.pairwise_map]
  refine ⟨?_, ?_⟩
  · intro hf a ha b hb hab
    obtain ⟨i, hi, rfl⟩ := List.mem_iff_getElem.mp ha
    obtain ⟨j, hj, rfl⟩ := List.mem_iff_getElem.mp hb
    rw [List.pairwise_iff_getElem] at h hf
    rcases Nat.lt_trichotomy i j with hij | rfl | hji
    · exact hf i j hi hj hij
    · exact absurd hab (Nat.lt_irrefl _)
    · exact absurd (h j i hj hi hji) (Nat.lt_asymm hab)
  · exact fun hf => h.imp_of_mem fun ha hb hab => hf ha hb hab

end Ascending

/-! ## The keys of runs -/

@[simp] theorem Run.mem_keys {r : Run} {k : Nat} : k ∈ r.keys ↔ r.start ≤ k ∧ k < r.stop := by
  rw [Run.keys, List.mem_range'_1, Run.width]
  omega

@[simp] theorem Run.length_keys (r : Run) : r.keys.length = r.width := by
  rw [Run.keys, List.length_range']

/-- A run whose keys lie below a bound ends by it. -/
theorem Run.stop_le {r : Run} {n : Nat} (hr : r.start < r.stop) (h : ∀ k ∈ r.keys, k < n) :
    r.stop ≤ n := by
  have hlast := h (r.stop - 1) (Run.mem_keys.mpr ⟨by omega, by omega⟩)
  omega

/-- The keys of a run below a bound. -/
theorem Run.countP_keys (r : Run) (k : Nat) : r.keys.countP (· < k) = min r.stop k - r.start := by
  obtain ⟨start, stop⟩ := r
  rw [keys, width]
  simp only
  induction hw : stop - start generalizing start with
  | zero =>
    rw [List.range'_zero, List.countP_nil]
    omega
  | succ w ih =>
    rw [List.range'_succ, List.countP_cons, ih (start + 1) (by omega)]
    simp only [decide_eq_true_eq]
    split <;> omega

namespace Runs

variable {rs : List Run} {b e k : Nat}

@[simp] theorem toList_nil : toList [] = [] := rfl

@[simp] theorem toList_cons (r : Run) (rs : List Run) : toList (r :: rs) = r.keys ++ toList rs :=
  rfl

theorem mem_toList : k ∈ toList rs ↔ ∃ r ∈ rs, r.start ≤ k ∧ k < r.stop := by
  simp [toList]

@[simp] theorem contains_iff : contains rs k = true ↔ k ∈ toList rs := by
  simp [contains, mem_toList, Run.contains]

@[simp] theorem length_toList (rs : List Run) : (toList rs).length = size rs := by
  induction rs with
  | nil => rfl
  | cons r rs ih =>
    rw [toList_cons, List.length_append, Run.length_keys, ih]
    simp [size]

/-- The rank of a key is the number of keys below it. -/
theorem rank_eq_countP (rs : List Run) (k : Nat) : rank rs k = (toList rs).countP (· < k) := by
  induction rs with
  | nil => rfl
  | cons r rs ih =>
    rw [toList_cons, List.countP_append, Run.countP_keys, ← ih]
    simp [rank]

theorem select?_eq_getElem? (rs : List Run) (i : Nat) : select? rs i = (toList rs)[i]? := by
  induction rs generalizing i with
  | nil => rfl
  | cons r rs ih =>
    rw [select?, toList_cons]
    split
    · rw [List.getElem?_append_left (by rwa [Run.length_keys]), Run.keys,
        List.getElem?_range' ‹_›, Nat.one_mul]
    · rw [List.getElem?_append_right (by rw [Run.length_keys]; omega), Run.length_keys, ih]

/-- The least keys of runs are a beginning of all of them. -/
theorem toList_take (n : Nat) (rs : List Run) : toList (take n rs) = (toList rs).take n := by
  induction rs generalizing n with
  | nil => rw [take, toList_nil, List.take_nil]
  | cons r rs ih =>
    rw [take, toList_cons, List.take_append, Run.length_keys]
    split
    · rename_i hn
      simp [hn]
    · split
      · rename_i hlt
        obtain ⟨w, hw⟩ := Nat.exists_eq_add_of_lt hlt
        have hkeys : r.keys = List.range' r.start n ++ List.range' (r.start + n) (w + 1) := by
          rw [Run.keys, hw, Nat.add_assoc, ← List.range'_append_1]
        rw [hkeys, List.take_left' (List.length_range' ..), Nat.sub_eq_zero_of_le (by omega)]
        simp [Run.keys, Run.width]
      · rename_i hge
        have hall : r.keys.take n = r.keys :=
          List.take_of_length_le (by rwa [Run.length_keys, ← Nat.not_lt])
        rw [toList_cons, ih, hall]

/-- Without its least keys a list of runs goes on with the others. -/
theorem toList_drop (n : Nat) (rs : List Run) : toList (drop n rs) = (toList rs).drop n := by
  induction rs generalizing n with
  | nil => rw [drop, toList_nil, List.drop_nil]
  | cons r rs ih =>
    rw [drop, toList_cons, List.drop_append, Run.length_keys]
    split
    · rename_i hle
      have hall : r.keys.drop n = [] := List.drop_of_length_le (by rwa [Run.length_keys])
      rw [ih, hall, List.nil_append]
    · rename_i hlt
      have hkeys : r.keys.drop n = Run.keys ⟨r.start + n, r.stop⟩ := by
        simp only [Run.keys, Run.width, List.drop_range', Nat.mul_one]
        rw [Nat.sub_add_eq]
      rw [toList_cons, hkeys, Nat.sub_eq_zero_of_le (by omega), List.drop_zero]

/-! ### Members after an operation -/

theorem mem_merge (hbe : b < e) :
    k ∈ toList (merge b e rs) ↔ (b ≤ k ∧ k < e) ∨ k ∈ toList rs := by
  induction rs generalizing b e with
  | nil => simp [merge]
  | cons r rs ih =>
    rw [merge]
    split
    · rw [toList_cons, toList_cons, List.mem_append, List.mem_append, ih hbe]
      exact or_left_comm
    · split
      · rw [toList_cons, List.mem_append, Run.mem_keys]
      · -- the range and the run meet or touch, so what lies in one of them lies in their hull
        rw [ih (by omega), toList_cons, List.mem_append, Run.mem_keys, ← or_assoc]
        refine or_congr_left ?_
        omega

@[simp] theorem mem_insert :
    k ∈ toList (insert b e rs) ↔ (b ≤ k ∧ k < e) ∨ k ∈ toList rs := by
  rw [insert]
  split
  · exact mem_merge ‹_›
  · have hempty : ¬ (b ≤ k ∧ k < e) := by omega
    simp [hempty]

@[simp] theorem mem_insertAll {moved : List Run} :
    k ∈ toList (insertAll moved rs) ↔ k ∈ toList moved ∨ k ∈ toList rs := by
  induction moved generalizing rs with
  | nil => simp [insertAll]
  | cons r moved ih =>
    rw [insertAll, List.foldl_cons, ← insertAll, ih, mem_insert, toList_cons, List.mem_append,
      Run.mem_keys, or_assoc, or_left_comm]

@[simp] theorem toList_append (rs qs : List Run) : toList (rs ++ qs) = toList rs ++ toList qs :=
  List.flatMap_append

theorem mem_cut (hbe : b < e) {r : Run} :
    k ∈ toList (cut b e r) ↔ (r.start ≤ k ∧ k < r.stop) ∧ ¬ (b ≤ k ∧ k < e) := by
  rw [cut]
  split <;> split <;> simp <;> omega

@[simp] theorem mem_erase :
    k ∈ toList (erase b e rs) ↔ k ∈ toList rs ∧ ¬ (b ≤ k ∧ k < e) := by
  rw [erase]
  split
  · rename_i hbe
    induction rs with
    | nil => simp
    | cons r rs ih =>
      rw [List.flatMap_cons, toList_append, List.mem_append, mem_cut hbe, ih, toList_cons,
        List.mem_append, Run.mem_keys, or_and_right]
  · have hempty : ¬ (b ≤ k ∧ k < e) := by omega
    simp [hempty]

@[simp] theorem mem_within :
    k ∈ toList (within b e rs) ↔ k ∈ toList rs ∧ b ≤ k ∧ k < e := by
  induction rs with
  | nil => simp [within]
  | cons r rs ih =>
    rw [within, List.filterMap_cons, ← within]
    split
    · rename_i hnone
      split at hnone
      · cases hnone
      · have hout : ¬ ((r.start ≤ k ∧ k < r.stop) ∧ b ≤ k ∧ k < e) := by omega
        rw [ih, toList_cons, List.mem_append, Run.mem_keys, or_and_right, or_iff_right hout]
    · rename_i part hpart
      split at hpart
      · obtain rfl := Option.some.inj hpart
        have hin : (max r.start b ≤ k ∧ k < min r.stop e) ↔
            (r.start ≤ k ∧ k < r.stop) ∧ b ≤ k ∧ k < e := by omega
        rw [toList_cons, List.mem_append, ih, toList_cons, List.mem_append, Run.mem_keys,
          Run.mem_keys, or_and_right, hin]
      · cases hpart

/-- Joined runs hold the keys of the range, and those from before. -/
theorem Joins.mem_iff {rs' : List Run} (h : Joins b e rs rs') (hbe : b < e) :
    k ∈ toList rs' ↔ (b ≤ k ∧ k < e) ∨ k ∈ toList rs := by
  obtain ⟨front, back, start, stop, hstart, hstop, rfl, rfl, -, -⟩ := h
  have hparts : start ≤ k ∧ k < stop ↔
      (start ≤ k ∧ k < b) ∨ (b ≤ k ∧ k < e) ∨ (e ≤ k ∧ k < stop) := by omega
  simp only [toList_append, toList_cons, toList_nil, List.mem_append, Run.mem_keys, mem_insert,
    List.not_mem_nil, or_false, hparts]
  grind

/-- A range that was joined was free. -/
theorem Joins.free {rs' : List Run} (h : Joins b e rs rs') (hk : k ∈ toList rs) :
    ¬ (b ≤ k ∧ k < e) := by
  obtain ⟨front, back, start, stop, hstart, hstop, rfl, rfl, hfront, hback⟩ := h
  simp only [toList_append, toList_nil, List.mem_append, mem_insert, List.not_mem_nil,
    or_false] at hk
  rcases hk with (hk | hk) | hk | hk
  · obtain ⟨r, hr, hin⟩ := mem_toList.mp hk
    have := hfront r hr
    omega
  · omega
  · omega
  · obtain ⟨r, hr, hin⟩ := mem_toList.mp hk
    have := hback r hr
    omega

end Runs

/-! ## The normal form -/

namespace Spaced

variable {limit low : Nat} {rs : List Run} {b e k : Nat}

/-- Every key lies between the bounds of the normal form. -/
theorem bounds (h : Spaced limit low rs) (hk : k ∈ Runs.toList rs) : low ≤ k ∧ k < limit := by
  induction rs generalizing low with
  | nil => cases hk
  | cons r rs ih =>
    obtain ⟨h₁, h₂, h₃, h₄⟩ := h
    rw [Runs.toList_cons, List.mem_append, Run.mem_keys] at hk
    rcases hk with hk | hk
    · omega
    · have := ih h₄ hk
      omega

/-- Where all keys lie below a bound, the first run ends by it. -/
theorem stop_le_of_keys {r : Run} {n : Nat} (h : Spaced limit low (r :: rs))
    (hkeys : ∀ k ∈ Runs.toList (r :: rs), k < n) : r.stop ≤ n :=
  Run.stop_le h.2.1 fun k hk => hkeys k (List.mem_append_left _ hk)

/-- The keys of runs in normal form ascend. -/
theorem ascending (h : Spaced limit low rs) : (Runs.toList rs).Pairwise (· < ·) := by
  induction rs generalizing low with
  | nil => exact List.Pairwise.nil
  | cons r rs ih =>
    obtain ⟨-, -, -, h₄⟩ := h
    rw [Runs.toList_cons, List.pairwise_append]
    refine ⟨List.pairwise_lt_range', ih h₄, ?_⟩
    intro a ha c hc
    rw [Run.mem_keys] at ha
    have := (h₄.bounds hc).1
    omega

/-- The parts of runs in normal form that lie in a range are in normal form. -/
theorem within (h : Spaced limit low rs) : Spaced limit low (Runs.within b e rs) := by
  induction rs generalizing low with
  | nil => trivial
  | cons r rs ih =>
    obtain ⟨h₁, h₂, h₃, h₄⟩ := h
    rw [Runs.within, List.filterMap_cons, ← Runs.within]
    split
    · exact (ih h₄).mono (by omega)
    · rename_i part hpart
      split at hpart
      · obtain rfl := Option.some.inj hpart
        exact cons (by omega) ‹_› (by omega) ((ih h₄).mono (by omega))
      · cases hpart

/-- The first run begins with the least key. -/
theorem head?_toList (h : Spaced limit low rs) :
    (Runs.toList rs).head? = rs.head?.map Run.start := by
  cases rs with
  | nil => rfl
  | cons r rs =>
    obtain ⟨-, h₂, -, -⟩ := h
    obtain ⟨w, hw⟩ : ∃ w, r.width = w + 1 := ⟨r.width - 1, by rw [Run.width]; omega⟩
    rw [Runs.toList_cons, Run.keys, hw]
    rfl

/-- The last run ends with the greatest key. -/
theorem getLast?_toList (h : Spaced limit low rs) :
    (Runs.toList rs).getLast? = rs.getLast?.map Run.last := by
  induction rs generalizing low with
  | nil => rfl
  | cons r rs ih =>
    obtain ⟨-, h₂, -, h₄⟩ := h
    rw [Runs.toList_cons, List.getLast?_append, ih h₄, List.getLast?_cons]
    cases hlast : rs.getLast? with
    | some s => simp
    | none =>
      obtain ⟨w, hw⟩ : ∃ w, r.width = w + 1 := ⟨r.width - 1, by rw [Run.width]; omega⟩
      have hkey : r.start + w = r.last := by
        rw [Run.width] at hw
        rw [Run.last]
        omega
      rw [Run.keys, hw, List.range'_1_concat, List.getLast?_concat, hkey]
      rfl

/-- Every run is non-empty and lies between the bounds of the normal form. -/
theorem of_mem (h : Spaced limit low rs) {r : Run} (hr : r ∈ rs) :
    low ≤ r.start ∧ r.start < r.stop ∧ r.stop ≤ limit :=
  (spaced_iff.mp h).1 r hr

/-- Every run ends before the runs behind it start, with a gap between them. -/
theorem pairwise (h : Spaced limit low rs) : rs.Pairwise fun r s => r.stop < s.start :=
  (spaced_iff.mp h).2

/-- The first key past a run is in no run, since no two runs touch. -/
theorem stop_not_mem (h : Spaced limit low rs) {r : Run} (hr : r ∈ rs) :
    r.stop ∉ Runs.toList rs := by
  induction rs generalizing low with
  | nil => cases hr
  | cons s rs ih =>
    obtain ⟨h₁, h₂, h₃, h₄⟩ := h
    rw [Runs.toList_cons, List.mem_append, Run.mem_keys, not_or]
    rcases List.mem_cons.mp hr with rfl | hr
    · refine ⟨by omega, fun hmem => ?_⟩
      have := (h₄.bounds hmem).1
      omega
    · obtain ⟨hlow, hpos, -⟩ := h₄.of_mem hr
      exact ⟨by omega, ih h₄ hr⟩

/-- Runs in normal form are settled by their keys. -/
theorem eq_of_toList_eq {limit' low' : Nat} {rs' : List Run} (h : Spaced limit low rs)
    (h' : Spaced limit' low' rs') (heq : Runs.toList rs = Runs.toList rs') : rs = rs' := by
  induction rs generalizing low low' rs' with
  | nil =>
    have hhead := h'.head?_toList
    rw [← heq, Runs.toList_nil, List.head?_nil, eq_comm, Option.map_eq_none_iff] at hhead
    exact (List.head?_eq_none_iff.mp hhead).symm
  | cons r rs ih =>
    cases rs' with
    | nil =>
      have hhead := h.head?_toList
      rw [heq] at hhead
      cases hhead
    | cons r' rs' =>
      have hstart : r.start = r'.start := by
        have hhead := h.head?_toList
        rw [heq, h'.head?_toList] at hhead
        exact (Option.some.inj hhead).symm
      -- a run goes on until its first key past it is missing
      have hstop : r.stop = r'.stop := by
        have hout := h.stop_not_mem (List.mem_cons_self ..)
        have hout' := h'.stop_not_mem (List.mem_cons_self ..)
        rw [heq] at hout
        rw [← heq] at hout'
        rw [Runs.toList_cons, List.mem_append, Run.mem_keys, not_or] at hout hout'
        obtain ⟨-, hpos, -, -⟩ := h
        obtain ⟨-, hpos', -, -⟩ := h'
        omega
      obtain rfl : r = r' := Run.mk.injEq .. ▸ ⟨hstart, hstop⟩
      rw [Runs.toList_cons, Runs.toList_cons, List.append_cancel_left_eq] at heq
      rw [ih h.2.2.2 h'.2.2.2 heq]

/-- A range is joined with its neighbours just if none of its keys is there already. -/
theorem join?_spec (h : Spaced limit low rs) (hbe : b < e) :
    ((∀ k ∈ Runs.toList rs, ¬ (b ≤ k ∧ k < e)) ∧ ∃ rs', Runs.join? b e rs = some rs' ∧
        ∀ k, k ∈ Runs.toList rs' ↔ (b ≤ k ∧ k < e) ∨ k ∈ Runs.toList rs) ∨
      (∃ k ∈ Runs.toList rs, b ≤ k ∧ k < e) ∧ Runs.join? b e rs = none := by
  rcases h.join?_cases hbe with ⟨rs', hjoin, hjoins⟩ | ⟨hnone, r, hr, hlow, hhigh⟩
  · exact .inl ⟨fun k hk => hjoins.free hk, rs', hjoin, fun k => hjoins.mem_iff hbe⟩
  · -- the later one of the two starts lies in both
    have hpos := (h.of_mem hr).2.1
    exact .inr ⟨⟨max r.start b, Runs.mem_toList.mpr ⟨r, hr, by omega⟩, by omega⟩, hnone⟩

/-- Of the runs that start by a key only the last one can hold it. -/
theorem any_getLast?_takeWhile (h : Spaced limit low rs) (k : Nat) :
    (rs.takeWhile (·.start ≤ k)).getLast?.any (k < ·.stop) = true ↔ k ∈ Runs.toList rs := by
  obtain ⟨front, back, rfl, hfront, hback⟩ := h.exists_split k
  have hnone : back.takeWhile (·.start ≤ k) = [] := by
    cases back with
    | nil => rfl
    | cons r back =>
      exact List.takeWhile_cons_of_neg (by simpa using hback r (List.mem_cons_self ..))
  rw [List.takeWhile_append_of_pos fun r hr => by simpa using hfront r hr, hnone, List.append_nil,
    Option.any_eq_true, Runs.mem_toList]
  refine ⟨?_, ?_⟩
  · rintro ⟨l, hl, hlt⟩
    have hmem := List.mem_of_getLast? hl
    exact ⟨l, List.mem_append_left _ hmem, hfront l hmem, by simpa using hlt⟩
  · rintro ⟨r, hr, hle, hlt⟩
    rcases List.mem_append.mp hr with hr | hr
    · obtain ⟨l, hl⟩ := Option.ne_none_iff_exists'.mp
        (mt List.getLast?_eq_none_iff.mp (List.ne_nil_of_mem hr))
      obtain ⟨first, rfl⟩ := List.getLast?_eq_some_iff.mp hl
      rcases List.mem_append.mp hr with hr | hr
      · have hpair := (List.pairwise_append.mp h.pairwise).1
        have hbefore := (List.pairwise_append.mp hpair).2.2 r hr l (List.mem_singleton_self l)
        have := hfront l (by simp)
        omega
      · obtain rfl := List.mem_singleton.mp hr
        exact ⟨r, hl, by simpa using hlt⟩
    · have := hback r hr
      omega

/-- The search for the least key at or after `b` goes over runs, and could go over keys. -/
theorem firstFrom?_eq_find? (h : Spaced limit low rs) (b : Nat) :
    Runs.firstFrom? rs b = (Runs.toList rs).find? (b ≤ ·) := by
  induction rs generalizing low with
  | nil => rfl
  | cons r rs ih =>
    obtain ⟨-, h₂, -, h₄⟩ := h
    rw [Runs.toList_cons, List.find?_append, ← ih h₄, Runs.firstFrom?, List.find?_cons]
    by_cases hb : b < r.stop
    · have hfirst : r.keys.find? (b ≤ ·) = some (max r.start b) := by
        rw [Run.keys, List.find?_range'_eq_some, List.mem_range'_1, Run.width]
        refine ⟨by simp, by omega, fun j hj hlt => ?_⟩
        simp only [Bool.not_eq_true', decide_eq_false_iff_not]
        omega
      rw [hfirst, decide_eq_true hb]
      rfl
    · have hnone : r.keys.find? (b ≤ ·) = none := by
        rw [List.find?_eq_none]
        intro j hj
        rw [Run.mem_keys] at hj
        simp only [decide_eq_true_eq]
        omega
      rw [hnone, decide_eq_false hb, Option.none_or, Runs.firstFrom?]

/-- What is found at or after `b` is the least key there. -/
theorem firstFrom?_eq_some (h : Spaced limit low rs) (hk : Runs.firstFrom? rs b = some k) :
    k ∈ Runs.toList rs ∧ b ≤ k ∧ ∀ j ∈ Runs.toList rs, b ≤ j → k ≤ j := by
  rw [h.firstFrom?_eq_find?, List.find?_eq_some_iff_append] at hk
  obtain ⟨hbk, front, back, hsplit, hfront⟩ := hk
  have hasc := h.ascending
  rw [hsplit] at hasc ⊢
  refine ⟨by simp, by simpa using hbk, fun j hj hbj => ?_⟩
  rcases List.mem_append.mp hj with hj | hj
  · have := hfront j hj
    simp only [Bool.not_eq_true', decide_eq_false_iff_not] at this
    omega
  · rcases List.mem_cons.mp hj with rfl | hj
    · exact Nat.le_refl j
    · have hback := (List.pairwise_append.mp hasc).2.1
      exact Nat.le_of_lt ((List.pairwise_cons.mp hback).1 j hj)

/-- What is found in a range is the least key there. -/
theorem firstIn?_eq_some (h : Spaced limit low rs) (hk : Runs.firstIn? rs b e = some k) :
    k ∈ Runs.toList rs ∧ b ≤ k ∧ k < e ∧ ∀ j ∈ Runs.toList rs, b ≤ j → k ≤ j := by
  obtain ⟨hfrom, hke⟩ := Option.filter_eq_some_iff.mp hk
  obtain ⟨hmem, hbk, hleast⟩ := h.firstFrom?_eq_some hfrom
  exact ⟨hmem, hbk, by simpa using hke, hleast⟩

/-- Nothing is found in a range just if no key lies in it. -/
theorem firstIn?_eq_none_iff (h : Spaced limit low rs) :
    Runs.firstIn? rs b e = none ↔ ∀ k ∈ Runs.toList rs, b ≤ k → e ≤ k := by
  refine ⟨?_, ?_⟩
  · intro hnone k hk hbk
    rw [Runs.firstIn?, Option.filter_eq_none_iff] at hnone
    cases hfrom : Runs.firstFrom? rs b with
    | none =>
      rw [h.firstFrom?_eq_find?, List.find?_eq_none] at hfrom
      exact absurd (decide_eq_true hbk) (hfrom k hk)
    | some j =>
      have hej := hnone j hfrom
      simp only [decide_eq_true_eq] at hej
      have := (h.firstFrom?_eq_some hfrom).2.2 k hk hbk
      omega
  · intro hall
    cases hin : Runs.firstIn? rs b e with
    | none => rfl
    | some k =>
      obtain ⟨hmem, hbk, hke, -⟩ := h.firstIn?_eq_some hin
      have := hall k hmem hbk
      omega

/-- The gap after `b` is where the keys that follow one another from `b` on come to an end. -/
theorem firstGap_spec (h : Spaced limit low rs) (b : Nat) :
    b ≤ Runs.firstGap rs b ∧ Runs.firstGap rs b ∉ Runs.toList rs ∧
      ∀ k, b ≤ k → k < Runs.firstGap rs b → k ∈ Runs.toList rs := by
  rw [Runs.firstGap]
  split
  · rename_i r hr
    have hb : r.start ≤ b ∧ b < r.stop := by simpa [Run.contains] using List.find?_some hr
    have hmem := List.mem_of_find?_eq_some hr
    refine ⟨by omega, h.stop_not_mem hmem, fun k hbk hk => ?_⟩
    exact Runs.mem_toList.mpr ⟨r, hmem, by omega, hk⟩
  · rename_i hnone
    refine ⟨Nat.le_refl b, fun hmem => ?_, fun k hbk hk => by omega⟩
    obtain ⟨r, hr, hb⟩ := Runs.mem_toList.mp hmem
    exact List.find?_eq_none.mp hnone r hr (by simpa [Run.contains] using hb)

end Spaced

end LiveTables
