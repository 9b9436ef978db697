import LiveTables.Error
import LiveTables.Keys.Joining

/-!
# Key sets

A `KeySet` is a finite set of row keys, stored as its maximal runs. Because two different lists of
runs in normal form never hold the same keys, equality of sets is equality of the stored runs.

Beside its runs a set keeps the number of its keys. It is never counted again: what an operation
makes of the number is right for what it makes of the runs, as `Counted` asks.

A set grows by disjoint ranges only: `KeySet.addRange` joins a range with its neighbours, and
refuses it if one of its keys is there already. A run is written with the first key after it, so
the largest key of all, `maxKey`, is in no set.

The same type holds sets of row positions, which are ranks of keys.
-/

namespace LiveTables

/-- The largest key, `2 ^ 64 - 1`. -/
def maxKey : Nat := 0xFFFFFFFFFFFFFFFF

/-- The number of keys in some runs, kept beside them. -/
class Counted (rs : List Run) where
  /-- the number -/
  size : Nat
  /-- it is the right one -/
  size_eq : size = Runs.size rs

/-- Runs that nothing is known about are counted. -/
instance (priority := low) (rs : List Run) : Counted rs := ⟨Runs.size rs, rfl⟩

instance (rs : List Run) : Subsingleton (Counted rs) where
  allEq := by
    rintro ⟨_, rfl⟩ ⟨_, rfl⟩
    rfl

/-- A finite set of keys below `maxKey`, as its maximal runs. -/
structure KeySet where
  /-- the maximal runs, ascending -/
  runs : List Run
  /-- the runs are non-empty, ascend, do not touch, and end by `maxKey` -/
  spaced : Spaced maxKey 0 runs
  /-- the number of their keys -/
  [counted : Counted runs]

namespace KeySet

/-- The set without keys. -/
def empty : KeySet := ⟨[], trivial⟩

instance : Inhabited KeySet := ⟨empty⟩

/-- The keys of `[b, e)` that a set can hold, which are all of them for `e` up to `maxKey`. -/
def ofRange (b e : Nat) : KeySet where
  runs := Runs.insert b (min e maxKey) []
  spaced := empty.spaced.insert (Nat.min_le_right ..)
  counted := ⟨min e maxKey - b, (Runs.size_insert_nil ..).symm⟩

/-! ## Reading -/

/-- The number of keys. -/
def size (s : KeySet) : Nat := s.counted.size

theorem size_eq (s : KeySet) : s.size = Runs.size s.runs := s.counted.size_eq

/-- Sets with the same runs are the same. -/
theorem ext {s t : KeySet} (h : s.runs = t.runs) : s = t := by
  obtain ⟨rs, _⟩ := s
  obtain ⟨rs', _⟩ := t
  obtain rfl : rs = rs' := h
  congr
  exact Subsingleton.elim ..

/-- Two sets are compared by their sizes and their runs. -/
instance : DecidableEq KeySet := fun s t =>
  if h : s.runs = t.runs ∧ s.size = t.size then .isTrue (ext h.1)
  else .isFalse fun heq => h ⟨heq ▸ rfl, heq ▸ rfl⟩

/-- Does the set hold no key? -/
def isEmpty (s : KeySet) : Bool := s.size == 0

/-- Does the set hold `k`? Of the runs that start by `k`, which come first, only the last one can
hold it. -/
def contains (s : KeySet) (k : Nat) : Bool :=
  (s.runs.takeWhile (·.start ≤ k)).getLast?.any (k < ·.stop)

/-- The keys, ascending. -/
def toList (s : KeySet) : List Nat := Runs.toList s.runs

/-- The least key. -/
def first? (s : KeySet) : Option Nat := s.runs.head?.map Run.start

/-- The greatest key. -/
def last? (s : KeySet) : Option Nat := s.runs.getLast?.map Run.last

/-- Do something with the first and the last key of every run, in ascending order. -/
def forEachRun {m : Type → Type} [Monad m] (s : KeySet) (f : Nat → Nat → m Unit) : m Unit :=
  s.runs.forM fun r => f r.start r.last

/-- The set as text: its runs, ascending. -/
def text (s : KeySet) : String := Runs.text s.runs

/-- The set as text, with its size in front. -/
def summary (s : KeySet) : String := s!"RowKeySet({s.size}; {s.text})"

/-! ## Growing -/

/-- Add the keys of `[first, stop)`, none of which may be in the set. An empty range adds
nothing. -/
def addRange (s : KeySet) (first stop : Nat) : Except Error KeySet :=
  if hreversed : stop < first then .error (.invalidArgument (.reversedRange first stop))
  else if hempty : first = stop then .ok s
  else if hmax : stop ≤ maxKey then
    have hpos : first < stop := by omega
    match hjoin : Runs.join? first stop s.runs with
    | some rs => .ok {
        runs := rs
        spaced := s.spaced.join? (Nat.zero_le _) hpos hmax hjoin
        counted := ⟨s.size + (stop - first), by rw [s.spaced.size_join? hpos hjoin, s.size_eq]⟩ }
    | none => .error (.overlap first stop)
  else .error (.invalidArgument (.unrepresentableKey (stop - 1)))

/-- Add one key, which may not be in the set. -/
def add (s : KeySet) (k : Nat) : Except Error KeySet := s.addRange k (k + 1)

/-- The set of distinct keys, in any order. -/
def ofKeys (ks : List Nat) : Except Error KeySet := ks.foldlM add empty

/-- The set of the keys in pairwise disjoint ranges `[first, stop)`, in any order. -/
def ofRanges (rs : List (Nat × Nat)) : Except Error KeySet :=
  rs.foldlM (fun s r => s.addRange r.1 r.2) empty

/-! ## Cutting -/

/-- The `n` least keys, or all of them if there are no more. -/
def take (s : KeySet) (n : Nat) : KeySet :=
  if hall : s.size ≤ n then s
  else {
    runs := Runs.take n s.runs
    spaced := s.spaced.take
    counted := ⟨n, by rw [Runs.size_take, ← s.size_eq]; omega⟩ }

/-- All keys but the `n` least. -/
def drop (s : KeySet) (n : Nat) : KeySet :=
  if n = 0 then s
  else if s.size ≤ n then empty
  else {
    runs := Runs.drop n s.runs
    spaced := s.spaced.drop
    counted := ⟨s.size - n, by rw [Runs.size_drop, s.size_eq]⟩ }

end KeySet

/-! ## Step by step -/

/-- One call on a set that grows. -/
inductive Addition where
  /-- the keys of `[first, stop)` -/
  | range (first stop : Nat)
  /-- one key -/
  | key (k : Nat)
  deriving DecidableEq, Repr

namespace KeySet

/-- The set that a call makes. -/
def outcome (s : KeySet) : Addition → Except Error KeySet
  | .range first stop => s.addRange first stop
  | .key k => s.add k

/-- Make one call in place. A call that fails leaves the set as it was. -/
def grow (s : KeySet) (a : Addition) : Except Error Unit × KeySet :=
  match s.outcome a with
  | .ok t => (.ok (), t)
  | .error e => (.error e, s)

/-- Make one call after another, and tell the outcome of each. -/
def growAll (s : KeySet) : List Addition → List (Except Error Unit) × KeySet
  | [] => ([], s)
  | a :: as =>
    let (outcome, s) := s.grow a
    let (outcomes, s) := s.growAll as
    (outcome :: outcomes, s)

end KeySet

end LiveTables
