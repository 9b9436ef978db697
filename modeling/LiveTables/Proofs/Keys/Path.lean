import LiveTables.Proofs.Keys.Move

/-!
# Moves one after another

The moves of an update are made one after another, on a key space that changes under them. What a
key goes through is its `Move.trail`, and where it ends up is its `Move.path`.

The order of the schedule (`Move.Precedes`) keeps most keys from being moved twice. No move down
brings a key into the source of a later move down, nor a move up into that of a later move up. But a
move down may bring a key into the source of a move up, which takes it along a second time: such a
key is *relayed* (`Move.Relayed`).

If no key is relayed there is an invariant on key spaces between two moves: whatever moves are made
already, all keys are in their old order (`Move.strictMonoOn_path_front`).
-/

namespace LiveTables

namespace Move

variable {a b m : Move} {ms : List Move} {k : Nat}

/-- Where a key ends up if the moves of a list are made one after another. -/
def path (ms : List Move) (k : Nat) : Nat := ms.foldl (fun k m => m.apply k) k

/-- Is `k` a place where the source of the move lands, if all of its keys are present? -/
def lands (m : Move) (k : Nat) : Prop := m.dest ≤ k ∧ k < m.target m.stop

/-- The moves of a list that take a key along, if all are made one after another. -/
def trail : List Move → Nat → List Move
  | [], _ => []
  | m :: ms, k => if m.covers k then m :: trail ms (m.target k) else trail ms k

@[simp] theorem path_nil (k : Nat) : path [] k = k := rfl

@[simp] theorem path_cons (m : Move) (ms : List Move) (k : Nat) :
    path (m :: ms) k = path ms (m.apply k) := rfl

/-- A key in no source stays where it is. -/
theorem path_of_uncovered (h : ∀ m ∈ ms, ¬ m.covers k) : path ms k = k ∧ trail ms k = [] := by
  induction ms with
  | nil => exact ⟨rfl, rfl⟩
  | cons m ms ih =>
    obtain ⟨hm, hms⟩ := List.forall_mem_cons.mp h
    obtain ⟨hpath, htrail⟩ := ih hms
    rw [path_cons, apply_of_not_covers hm, trail, if_neg hm]
    exact ⟨hpath, htrail⟩

/-! ## The order of the schedule -/

/-- The move `a` goes to smaller keys. -/
def Down (a : Move) : Prop := a.dest < a.start

instance (a : Move) : Decidable a.Down := inferInstanceAs (Decidable (a.dest < a.start))

/-- The move `a` goes to greater keys. -/
def Up (a : Move) : Prop := a.start < a.dest

instance (a : Move) : Decidable a.Up := inferInstanceAs (Decidable (a.start < a.dest))

theorem Down.target_lt (h : a.Down) (hk : a.covers k) : a.target k < k := by
  rw [Down] at h
  rw [covers] at hk
  rw [target]
  omega

theorem Up.lt_target (h : a.Up) (hk : a.covers k) : k < a.target k := by
  rw [Up] at h
  rw [covers] at hk
  rw [target]
  omega

/-- The source of one of the moves stops before that of the other starts. -/
def Apart (a b : Move) : Prop := a.stop ≤ b.start ∨ b.stop ≤ a.start

instance : Std.Symm Apart := ⟨fun _ _ => Or.symm⟩

/-- What the schedule ensures of a move `a` and a later one `b`. Moves down come first and from the
bottom, moves up follow and from the top, and no two sources meet. -/
def Precedes (a b : Move) : Prop :=
  (a.Down ∧ b.Down ∧ a.stop ≤ b.start) ∨
    (a.Down ∧ b.Up ∧ a.Apart b) ∨
    (a.Up ∧ b.Up ∧ b.stop ≤ a.start)

namespace Precedes

/-- A key is in one source at most. -/
theorem disjoint (h : a.Precedes b) (hk : a.covers k) : ¬ b.covers k := by
  rw [covers] at hk ⊢
  rcases h with ⟨-, -, h⟩ | ⟨-, -, h | h⟩ | ⟨-, -, h⟩ <;> omega

/-- A move brings a key into the source of a later one only if the first goes down and the second
up. -/
theorem down_up (h : a.Precedes b) (hk : a.covers k) (hb : b.covers (a.target k)) :
    a.Down ∧ b.Up := by
  rcases h with ⟨hda, -, h⟩ | ⟨hda, hub, -⟩ | ⟨hua, -, h⟩
  · have := hda.target_lt hk
    rw [covers] at hk hb
    omega
  · exact ⟨hda, hub⟩
  · have := hua.lt_target hk
    rw [covers] at hk hb
    omega

end Precedes

/-- A key that no second move takes along ends up where the move of its source puts it. -/
theorem path_of_covers (hms : ms.Pairwise Precedes) (ha : a ∈ ms) (hk : a.covers k)
    (honce : a.Down → ∀ b ∈ ms, b.Up → ¬ b.covers (a.target k)) :
    path ms k = a.target k ∧ trail ms k = [a] := by
  induction ms with
  | nil => cases ha
  | cons m ms ih =>
    obtain ⟨hm, hms'⟩ := List.pairwise_cons.mp hms
    obtain ⟨-, honce'⟩ : (a.Down → m.Up → ¬ m.covers (a.target k)) ∧
        (a.Down → ∀ b ∈ ms, b.Up → ¬ b.covers (a.target k)) :=
      ⟨fun hd => (List.forall_mem_cons.mp (honce hd)).1,
        fun hd => (List.forall_mem_cons.mp (honce hd)).2⟩
    rcases List.mem_cons.mp ha with rfl | ha
    · -- the move is made now, and no later one has the key in its source
      have hrest : ∀ b ∈ ms, ¬ b.covers (a.target k) := fun b hb hcov =>
        honce' ((hm b hb).down_up hk hcov).1 b hb ((hm b hb).down_up hk hcov).2 hcov
      obtain ⟨hpath, htrail⟩ := path_of_uncovered hrest
      rw [path_cons, apply_of_covers hk, trail, if_pos hk, htrail]
      exact ⟨hpath, rfl⟩
    · have hout : ¬ m.covers k := fun hmk => (hm a ha).disjoint hmk hk
      rw [path_cons, apply_of_not_covers hout, trail, if_neg hout]
      exact ih hms' ha honce'

/-- A relayed key is taken along twice. -/
theorem path_of_relayed (hms : ms.Pairwise Precedes) (ha : a ∈ ms) (hb : b ∈ ms) (hda : a.Down)
    (hub : b.Up) (hk : a.covers k) (hkb : b.covers (a.target k)) :
    path ms k = b.target (a.target k) ∧ trail ms k = [a, b] := by
  induction ms with
  | nil => cases ha
  | cons m ms ih =>
    obtain ⟨hm, hms'⟩ := List.pairwise_cons.mp hms
    have hnot : ∀ {c : Move}, c.Down → ¬ c.Up := fun hd hu => Nat.lt_asymm hd hu
    rcases List.mem_cons.mp ha with rfl | ha'
    · rcases List.mem_cons.mp hb with rfl | hb'
      · exact absurd hub (hnot hda)
      · have hdown : b.Down → ∀ c ∈ ms, c.Up → ¬ c.covers (b.target (a.target k)) :=
          fun hd => absurd hub (hnot hd)
        obtain ⟨hpath, htrail⟩ := path_of_covers hms' hb' hkb hdown
        rw [path_cons, apply_of_covers hk, trail, if_pos hk, htrail]
        exact ⟨hpath, rfl⟩
    · have hout : ¬ m.covers k := fun hmk => (hm a ha').disjoint hmk hk
      rcases List.mem_cons.mp hb with rfl | hb'
      · -- no move up comes before a move down
        rcases hm a ha' with ⟨hdb, -, -⟩ | ⟨hdb, -, -⟩ | ⟨-, hua, -⟩
        · exact absurd hub (hnot hdb)
        · exact absurd hub (hnot hdb)
        · exact absurd hua (hnot hda)
      · rw [path_cons, apply_of_not_covers hout, trail, if_neg hout]
        exact ih hms' ha' hb'

/-- The key `k` is relayed by two of the moves: one down takes it along, and brings it into the
source of one up. -/
def Relayed (ms : List Move) (k : Nat) : Prop :=
  ∃ a ∈ ms, ∃ b ∈ ms, a.Down ∧ b.Up ∧ a.covers k ∧ b.covers (a.target k)

theorem path_of_not_relayed (hms : ms.Pairwise Precedes) (hk : ¬ Relayed ms k) (ha : a ∈ ms)
    (hc : a.covers k) : path ms k = a.target k ∧ trail ms k = [a] :=
  path_of_covers hms ha hc fun hd b hb hu hcov => hk ⟨a, ha, b, hb, hd, hu, hc, hcov⟩

/-! ## Between two moves

Let a schedule be cut in two, and let the moves of the first part be made. A key in one of their
sources is where it belongs, and any other key is still in its old place. -/

section Between

variable {front back : List Move}

/-- Halfway through a schedule a key that is not relayed is where it ends up, or where it began. -/
theorem path_front_cases (hms : (front ++ back).Pairwise Precedes)
    (hk : ¬ Relayed (front ++ back) k) :
    (∃ a ∈ front, a.covers k ∧ path front k = a.target k ∧ path (front ++ back) k = a.target k) ∨
      (path front k = k ∧
        ((∃ a ∈ back, a.covers k ∧ path (front ++ back) k = a.target k) ∨
          path (front ++ back) k = k)) := by
  have hfront : front.Pairwise Precedes := (List.pairwise_append.mp hms).1
  have hkfront : ¬ Relayed front k := by
    rintro ⟨a, ha, b, hb, h⟩
    exact hk ⟨a, List.mem_append_left _ ha, b, List.mem_append_left _ hb, h⟩
  by_cases hcov : ∃ a ∈ front, a.covers k
  · obtain ⟨a, ha, hc⟩ := hcov
    exact .inl ⟨a, ha, hc, (path_of_not_relayed hfront hkfront ha hc).1,
      (path_of_not_relayed hms hk (List.mem_append_left _ ha) hc).1⟩
  · have hout : ∀ a ∈ front, ¬ a.covers k := fun a ha hc => hcov ⟨a, ha, hc⟩
    refine .inr ⟨(path_of_uncovered hout).1, ?_⟩
    by_cases hcov' : ∃ a ∈ back, a.covers k
    · obtain ⟨a, ha, hc⟩ := hcov'
      exact .inl ⟨a, ha, hc, (path_of_not_relayed hms hk (List.mem_append_right _ ha) hc).1⟩
    · refine .inr (path_of_uncovered fun a ha hc => ?_).1
      rcases List.mem_append.mp ha with ha | ha
      · exact hout a ha hc
      · exact hcov' ⟨a, ha, hc⟩

/-- If a whole schedule keeps keys in the key space, so does any part that comes first. -/
theorem path_front_le (hms : (front ++ back).Pairwise Precedes)
    (hk : ¬ Relayed (front ++ back) k) {limit : Nat} (hle : k ≤ limit)
    (hbound : path (front ++ back) k ≤ limit) : path front k ≤ limit := by
  rcases path_front_cases hms hk with ⟨a, -, -, hfront, hall⟩ | ⟨hfront, -⟩
  · rw [hfront, ← hall]
    exact hbound
  · rwa [hfront]

/-- If a whole schedule keeps the order of keys, so does any part that comes first: what is still to
be moved is not overtaken by what is moved already. -/
theorem strictMonoOn_path_front (hms : (front ++ back).Pairwise Precedes) {l : List Nat}
    (hl : ∀ k ∈ l, ¬ Relayed (front ++ back) k)
    (hmono : StrictMonoOn (path (front ++ back)) {k | k ∈ l}) :
    StrictMonoOn (path front) {k | k ∈ l} := by
  intro j hj k hk hjk
  have hjk' := hmono hj hk hjk
  -- a key whose move is made is where it ends up, and any other key is where it began, so the only
  -- doubtful cases are those of one key of each kind
  have hcross : ∀ b ∈ front, ∀ a ∈ back, b.Precedes a := (List.pairwise_append.mp hms).2.2
  rcases path_front_cases hms (hl j hj) with ⟨b, hb, hbj, hj₁, hj₂⟩ | ⟨hj₁, hj₂⟩
  · rcases path_front_cases hms (hl k hk) with ⟨c, -, -, hk₁, hk₂⟩ | ⟨hk₁, hk₂⟩
    · rwa [hj₁, hk₁, ← hj₂, ← hk₂]
    · -- `j` is moved and `k` is not: a move up of `j` would have had to come after one of `k`
      rw [hj₁, hk₁]
      rcases hk₂ with ⟨a, ha, hak, -⟩ | hk₂
      · have horder := hcross b hb a ha
        simp only [Precedes, Down, Up, covers, target] at *
        omega
      · rwa [hj₂, hk₂] at hjk'
  · rcases path_front_cases hms (hl k hk) with ⟨b, hb, hbk, hk₁, hk₂⟩ | ⟨hk₁, hk₂⟩
    · -- `k` is moved and `j` is not: a move down of `k` would have had to come after one of `j`
      rw [hj₁, hk₁]
      rcases hj₂ with ⟨a, ha, haj, hj₂⟩ | hj₂
      · have horder := hcross b hb a ha
        rw [hj₂, hk₂] at hjk'
        simp only [Precedes, Down, Up, covers, target] at *
        omega
      · rwa [hj₂, hk₂] at hjk'
    · rwa [hj₁, hk₁]

end Between

end Move

/-! ## Making a schedule -/

namespace KeySpace

open Move

variable {s t : KeySpace} {ms : List Move} {k : Nat}

/-- Making moves one after another renumbers the keys, each at its position. -/
theorem toList_foldlM_shift (h : ms.foldlM shift s = .ok t) :
    t.toList = s.toList.map (path ms) := by
  induction ms generalizing s with
  | nil =>
    cases h
    exact (List.map_id' _).symm
  | cons m ms ih =>
    rw [List.foldlM_cons, bind_eq_ok] at h
    obtain ⟨s', hs', h⟩ := h
    rw [ih h, toList_shift hs', List.map_map]
    rfl

/-- Moves can be made one after another if after any number of them no key has left the key space
and all keys are in their old order. -/
theorem exists_foldlM_shift (hforward : ∀ m ∈ ms, m.start ≤ m.stop)
    (h : ∀ front back, ms = front ++ back →
      (∀ k ∈ s.toList, path front k ≤ maxKey) ∧ StrictMonoOn (path front) {k | k ∈ s.toList}) :
    ∃ t, ms.foldlM shift s = .ok t := by
  induction ms generalizing s with
  | nil => exact ⟨s, rfl⟩
  | cons m ms ih =>
    obtain ⟨hm, hms⟩ := List.forall_mem_cons.mp hforward
    obtain ⟨hbound, hmono⟩ := h [m] ms rfl
    obtain ⟨s', hs'⟩ := exists_shift_iff.mpr ⟨hm, hbound, hmono⟩
    have hkeys := toList_shift hs'
    -- the other moves find the keys that `m` leaves, in the order of those before
    obtain ⟨t, ht⟩ := ih (s := s') hms fun front back hsplit => by
      obtain ⟨hbound', hmono'⟩ := h (m :: front) back (by rw [hsplit]; rfl)
      rw [hkeys]
      refine ⟨?_, ?_⟩
      · intro k hk
        obtain ⟨j, hj, rfl⟩ := List.mem_map.mp hk
        exact hbound' j hj
      · intro j hj k hk hjk
        obtain ⟨j₀, hj₀, rfl⟩ := List.mem_map.mp hj
        obtain ⟨k₀, hk₀, rfl⟩ := List.mem_map.mp hk
        exact hmono' hj₀ hk₀ ((hmono.lt_iff_lt hj₀ hk₀).mp hjk)
    exact ⟨t, by rw [List.foldlM_cons, hs']; exact ht⟩

end KeySpace

end LiveTables
