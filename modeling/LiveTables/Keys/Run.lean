/-!
# Runs of keys

A set of keys is stored as the list of its maximal runs. `Run` is a half-open range of keys;
the functions in `Runs` compute on lists of runs without ever listing the keys, which may be
as many as `2 ^ 64`.

`Spaced limit low rs` is the normal form: the runs of `rs` are non-empty, ascend from `low`, stay
below `limit`, and leave at least one key free between any two. `Spaced.insert`, `Spaced.erase`,
`Spaced.take` and `Spaced.drop` say that the operations keep it.
-/

namespace LiveTables

/-- The keys from `start` up to, but not including, `stop`. -/
structure Run where
  /-- the first key -/
  start : Nat
  /-- the first key past the run -/
  stop : Nat
  deriving DecidableEq, Repr

namespace Run

/-- The number of keys. -/
def width (r : Run) : Nat := r.stop - r.start

/-- Does `k` lie in the run? -/
def contains (r : Run) (k : Nat) : Bool := r.start ≤ k && k < r.stop

/-- The last key, which is the first one before `stop`. -/
def last (r : Run) : Nat := r.stop - 1

/-- The keys, ascending. -/
def keys (r : Run) : List Nat := List.range' r.start r.width

/-- The run as text: one key alone, or the first and the last. -/
def text (r : Run) : String :=
  if r.width = 1 then s!"[{r.start}]" else s!"[{r.start}..{r.last}]"

end Run

/-- The runs of `rs` are non-empty, ascend from `low`, end by `limit`, and no two of them touch. -/
def Spaced (limit : Nat) : Nat → List Run → Prop
  | _, [] => True
  | low, r :: rs => low ≤ r.start ∧ r.start < r.stop ∧ r.stop ≤ limit ∧
      Spaced limit (r.stop + 1) rs

namespace Spaced

variable {limit low : Nat} {rs : List Run}

/-- Build a list in normal form from its first run. -/
theorem cons {b e : Nat} (h₁ : low ≤ b) (h₂ : b < e) (h₃ : e ≤ limit)
    (h₄ : Spaced limit (e + 1) rs) : Spaced limit low (⟨b, e⟩ :: rs) :=
  ⟨h₁, h₂, h₃, h₄⟩

/-- A list that ascends from `low` ascends from everything below. -/
theorem mono {low' : Nat} (h : Spaced limit low rs) (hl : low' ≤ low) : Spaced limit low' rs := by
  cases rs with
  | nil => trivial
  | cons r rs =>
    obtain ⟨h₁, h₂, h₃, h₄⟩ := h
    exact ⟨Nat.le_trans hl h₁, h₂, h₃, h₄⟩

/-- A list that ends by `limit` ends by any `limit'` that all its runs keep to. -/
theorem narrow {limit' : Nat} (h : Spaced limit low rs) (hs : ∀ r ∈ rs, r.stop ≤ limit') :
    Spaced limit' low rs := by
  induction rs generalizing low with
  | nil => trivial
  | cons r rs ih =>
    obtain ⟨h₁, h₂, -, h₄⟩ := h
    exact ⟨h₁, h₂, hs r (List.mem_cons_self ..),
      ih h₄ fun s hsm => hs s (List.mem_cons_of_mem _ hsm)⟩

/-- Every run ends by the limit. -/
theorem stop_le (h : Spaced limit low rs) : ∀ r ∈ rs, r.stop ≤ limit := by
  induction rs generalizing low with
  | nil => intro r hr; cases hr
  | cons r rs ih =>
    obtain ⟨-, -, h₃, h₄⟩ := h
    intro s hs
    rcases List.mem_cons.mp hs with rfl | hs
    · exact h₃
    · exact ih h₄ s hs

end Spaced

namespace Runs

/-- The number of keys in all runs. -/
def size : List Run → Nat
  | [] => 0
  | r :: rs => r.width + size rs

/-- All keys, run after run. -/
def toList (rs : List Run) : List Nat := rs.flatMap Run.keys

/-- Does some run hold `k`? -/
def contains (rs : List Run) (k : Nat) : Bool := rs.any (·.contains k)

/-- The number of keys below `k`. -/
def rank : List Run → Nat → Nat
  | [], _ => 0
  | r :: rs, k => (min r.stop k - r.start) + rank rs k

/-- The key with `i` keys before it. -/
def select? : List Run → Nat → Option Nat
  | [], _ => none
  | r :: rs, i => if i < r.width then some (r.start + i) else select? rs (i - r.width)

/-- The least key at or after `k`. -/
def firstFrom? (rs : List Run) (k : Nat) : Option Nat :=
  (rs.find? fun r => k < r.stop).map fun r => max r.start k

/-- The least key in `[b, e)`. -/
def firstIn? (rs : List Run) (b e : Nat) : Option Nat :=
  (firstFrom? rs b).filter (· < e)

/-- The least key at or after `k` that no run holds: no two runs touch, so it is `k` itself or the
end of the run around `k`. -/
def firstGap (rs : List Run) (k : Nat) : Nat :=
  match rs.find? (·.contains k) with
  | some r => r.stop
  | none => k

/-! ## Inserting and erasing a range -/

/-- Merge the non-empty range `[b, e)` into a list of runs, with every run that it meets or
touches. -/
def merge (b e : Nat) : List Run → List Run
  | [] => [⟨b, e⟩]
  | r :: rs =>
    if r.stop < b then r :: merge b e rs
    else if e < r.start then ⟨b, e⟩ :: r :: rs
    else merge (min b r.start) (max e r.stop) rs

/-- Add the keys of `[b, e)`. An empty range adds nothing. -/
def insert (b e : Nat) (rs : List Run) : List Run :=
  if b < e then merge b e rs else rs

/-- What is left of a run without the keys of `[b, e)`. -/
def cut (b e : Nat) (r : Run) : List Run :=
  (if r.start < min r.stop b then [⟨r.start, min r.stop b⟩] else []) ++
    (if max r.start e < r.stop then [⟨max r.start e, r.stop⟩] else [])

/-- Remove the keys of `[b, e)`. An empty range removes nothing. -/
def erase (b e : Nat) (rs : List Run) : List Run :=
  if b < e then rs.flatMap (cut b e) else rs

/-- The parts of the runs that lie in `[b, e)`. -/
def within (b e : Nat) (rs : List Run) : List Run :=
  rs.filterMap fun r =>
    if max r.start b < min r.stop e then some ⟨max r.start b, min r.stop e⟩ else none

/-- Add the keys of every run of a list. -/
def insertAll (moved : List Run) (rs : List Run) : List Run :=
  moved.foldl (fun acc r => insert r.start r.stop acc) rs

/-! ## Cutting at a count of keys -/

/-- The `n` least keys. -/
def take : Nat → List Run → List Run
  | _, [] => []
  | n, r :: rs =>
    if n = 0 then []
    else if n < r.width then [⟨r.start, r.start + n⟩]
    else r :: take (n - r.width) rs

/-- All keys but the `n` least. -/
def drop : Nat → List Run → List Run
  | _, [] => []
  | n, r :: rs => if r.width ≤ n then drop (n - r.width) rs else ⟨r.start + n, r.stop⟩ :: rs

/-- The runs as text, with a comma between two. -/
def text (rs : List Run) : String := ",".intercalate (rs.map Run.text)

theorem size_take (n : Nat) (rs : List Run) : size (take n rs) = min n (size rs) := by
  induction rs generalizing n with
  | nil => exact (Nat.min_zero n).symm
  | cons r rs ih =>
    rw [take, size]
    split
    · rename_i hn
      rw [hn, Nat.zero_min]
      rfl
    · split
      · rename_i hlt
        simp only [size, Run.width] at hlt ⊢
        omega
      · rw [size, ih]
        omega

theorem size_drop (n : Nat) (rs : List Run) : size (drop n rs) = size rs - n := by
  induction rs generalizing n with
  | nil => exact (Nat.zero_sub n).symm
  | cons r rs ih =>
    rw [drop, size]
    split
    · rw [ih]
      omega
    · rename_i hle
      simp only [size, Run.width] at hle ⊢
      omega

end Runs

/-! ## The operations keep the normal form -/

namespace Spaced

variable {limit low : Nat} {rs : List Run}

theorem merge {b e : Nat} (h : Spaced limit low rs) (hb : low ≤ b) (hbe : b < e)
    (he : e ≤ limit) : Spaced limit low (Runs.merge b e rs) := by
  induction rs generalizing low b e with
  | nil => exact ⟨hb, hbe, he, trivial⟩
  | cons r rs ih =>
    obtain ⟨h₁, h₂, h₃, h₄⟩ := h
    rw [Runs.merge]
    split
    · exact ⟨h₁, h₂, h₃, ih h₄ (by omega) hbe he⟩
    · split
      · exact cons hb hbe he (cons (by omega) h₂ h₃ h₄)
      · exact ih (h₄.mono (by omega)) (by omega) (by omega) (by omega)

theorem insert {b e : Nat} (h : Spaced limit 0 rs) (he : e ≤ limit) :
    Spaced limit 0 (Runs.insert b e rs) := by
  rw [Runs.insert]
  split
  · exact h.merge (Nat.zero_le _) ‹_› he
  · exact h

theorem insertAll {moved : List Run} (h : Spaced limit 0 rs) (hm : ∀ r ∈ moved, r.stop ≤ limit) :
    Spaced limit 0 (Runs.insertAll moved rs) := by
  induction moved generalizing rs with
  | nil => exact h
  | cons r moved ih =>
    exact ih (h.insert (hm r (List.mem_cons_self ..)))
      fun s hs => hm s (List.mem_cons_of_mem _ hs)

theorem erase {b e : Nat} (h : Spaced limit low rs) : Spaced limit low (Runs.erase b e rs) := by
  rw [Runs.erase]
  split
  · rename_i hbe
    induction rs generalizing low with
    | nil => trivial
    | cons r rs ih =>
      obtain ⟨h₁, h₂, h₃, h₄⟩ := h
      have hrest := ih h₄
      rw [List.flatMap_cons, Runs.cut]
      split <;> split
      · exact cons h₁ ‹_› (by omega) (cons (by omega) ‹_› h₃ hrest)
      · exact cons h₁ ‹_› (by omega) (hrest.mono (by omega))
      · exact cons (by omega) ‹_› h₃ hrest
      · exact hrest.mono (by omega)
  · exact h

theorem take {n : Nat} (h : Spaced limit low rs) : Spaced limit low (Runs.take n rs) := by
  induction rs generalizing low n with
  | nil => trivial
  | cons r rs ih =>
    obtain ⟨h₁, h₂, h₃, h₄⟩ := h
    rw [Runs.take]
    split
    · trivial
    · split
      · rename_i hw
        rw [Run.width] at hw
        exact cons h₁ (by omega) (by omega) trivial
      · exact ⟨h₁, h₂, h₃, ih h₄⟩

theorem drop {n : Nat} (h : Spaced limit low rs) : Spaced limit low (Runs.drop n rs) := by
  induction rs generalizing low n with
  | nil => trivial
  | cons r rs ih =>
    obtain ⟨h₁, h₂, h₃, h₄⟩ := h
    rw [Runs.drop]
    split
    · exact (ih h₄).mono (by omega)
    · rename_i hw
      rw [Run.width] at hw
      exact cons (by omega) (by omega) h₃ h₄

end Spaced

end LiveTables
