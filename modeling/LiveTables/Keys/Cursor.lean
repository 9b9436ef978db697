import LiveTables.Keys.Set

/-!
# Walking a key set from both ends

A `Cursor` is a walk over the runs of a set that may go on at either end. It keeps a place in the
runs for each end and the number of keys between them. Nothing but this number keeps the two places
apart. At the end of the walk a place is where the last key left it, which may be past the runs.

A step reads runs by their numbers. A step that reads a run which does not exist is `none`; a walk
that has come to its end answers `some none` instead.
-/

namespace LiveTables

/-- A place in a list of runs. -/
structure Place where
  /-- the number of a run -/
  run : Nat
  /-- a key of that run, or the first key past it -/
  key : Nat
  deriving DecidableEq, Repr

namespace Place

/-- The place of the next key after the one at a place in the run `r`. -/
def next (rs : List Run) (r : Run) (p : Place) : Place :=
  if p.key + 1 = r.stop then ⟨p.run + 1, rs[p.run + 1]?.elim 0 Run.start⟩
  else ⟨p.run, p.key + 1⟩

/-- The place one key before a place that follows a key of the run `r`. There is none in front of
the first run; a place that would go there stays. -/
def prev (rs : List Run) (r : Run) (p : Place) : Option Place :=
  if p.key - 1 = r.start then
    if 0 < p.run then rs[p.run - 1]?.map fun l => ⟨p.run - 1, l.stop⟩ else some p
  else some ⟨p.run, p.key - 1⟩

end Place

/-- A walk over some runs. -/
structure Cursor where
  /-- the runs -/
  runs : List Run
  /-- the next key at the front -/
  front : Place
  /-- the first key past the next one at the back -/
  back : Place
  /-- the number of keys to come -/
  remaining : Nat
  deriving DecidableEq, Repr

/-- The walk over all keys of a set. -/
def KeySet.cursor (s : KeySet) : Cursor where
  runs := s.runs
  front := s.runs.head?.elim ⟨0, 0⟩ fun r => ⟨0, r.start⟩
  back := s.runs.getLast?.elim ⟨0, 0⟩ fun r => ⟨s.runs.length - 1, r.stop⟩
  remaining := s.size

namespace Cursor

/-- The least and the greatest number of keys that may be to come, as machine words. -/
def sizeHint (c : Cursor) : Nat × Option Nat :=
  let n := if c.remaining ≤ maxKey then c.remaining else maxKey
  (n, some n)

/-- Give the least key that is left, or nothing at the end of the walk. -/
def next (c : Cursor) : Option (Option Nat × Cursor) :=
  if c.remaining = 0 then some (none, c)
  else do
    let r ← c.runs[c.front.run]?
    return (some c.front.key,
      { c with front := c.front.next c.runs r, remaining := c.remaining - 1 })

/-- Give the greatest key that is left, or nothing at the end of the walk. -/
def nextBack (c : Cursor) : Option (Option Nat × Cursor) :=
  if c.remaining = 0 then some (none, c)
  else do
    let r ← c.runs[c.back.run]?
    let back ← c.back.prev c.runs r
    return (some (c.back.key - 1), { c with back, remaining := c.remaining - 1 })

/-- Skip `n` keys and give the next one. A walk with fewer keys ends. -/
def nth : Nat → Cursor → Option (Option Nat × Cursor)
  | 0, c => c.next
  | n + 1, c =>
    c.next.bind fun
      | (none, c) => some (none, c)
      | (some _, c) => nth n c

/-- One call on a walk. -/
inductive Call where
  /-- the least key that is left -/
  | next
  /-- the greatest key that is left -/
  | nextBack
  /-- the key after the `n` least ones -/
  | nth (n : Nat)
  deriving DecidableEq, Repr

/-- Make one call. -/
def step (c : Cursor) : Call → Option (Option Nat × Cursor)
  | .next => c.next
  | .nextBack => c.nextBack
  | .nth n => c.nth n

/-- Make one call after another. -/
def run (c : Cursor) : List Call → Option (List (Option Nat) × Cursor)
  | [] => some ([], c)
  | a :: as => do
    let (answer, c) ← c.step a
    let (answers, c) ← c.run as
    return (answer :: answers, c)

/-- A walk that gives a key has one key less to come. -/
theorem remaining_next {c c' : Cursor} {k : Nat} (h : c.next = some (some k, c')) :
    c'.remaining < c.remaining := by
  rw [next] at h
  split at h
  · cases h
  · obtain ⟨r, -, h⟩ := Option.bind_eq_some_iff.mp h
    cases h
    exact Nat.sub_one_lt ‹_›

/-- Go on at the front until the walk is at its end, and list the keys. -/
def collect (c : Cursor) : Option (List Nat) :=
  match h : c.next with
  | none => none
  | some (none, _) => some []
  | some (some k, c') =>
    have := remaining_next h
    (collect c').map (k :: ·)
termination_by c.remaining

end Cursor

end LiveTables
