import LiveTables.Keys.Set

/-!
# Renumberings

A `Move` shifts the keys of a range so that its first key becomes `dest`. A `Renumbering` is the
list of moves that an update asks for, written as three sets of one size: the `i`-th least start,
the `i`-th least last source key, and the `i`-th least destination are the `i`-th move.

`Renumbering.schedule` puts the moves into the order in which they are made: first those toward
smaller keys, from the smallest start upward, then those toward greater keys, from the greatest
start downward. So a move finds the place that it goes to already cleared.
-/

namespace LiveTables

/-- Shift the keys in `[start, stop)` so that `start` becomes `dest`. -/
structure Move where
  /-- the first source key -/
  start : Nat
  /-- the first key past the source -/
  stop : Nat
  /-- what becomes of the first source key -/
  dest : Nat
  deriving DecidableEq, Repr

namespace Move

/-- What becomes of a source key. -/
def target (m : Move) (k : Nat) : Nat := k - m.start + m.dest

/-- What becomes of a run of source keys. -/
def moved (m : Move) (r : Run) : Run := ⟨m.target r.start, m.target r.stop⟩

end Move

/-- Moves, as the sets of their starts, of their last source keys, and of their destinations. -/
structure Renumbering where
  /-- first source keys -/
  starts : KeySet
  /-- last source keys -/
  lasts : KeySet
  /-- destinations -/
  dests : KeySet
  deriving DecidableEq

namespace Renumbering

/-- No moves at all. -/
def empty : Renumbering := ⟨.empty, .empty, .empty⟩

instance : Inhabited Renumbering := ⟨empty⟩

/-- Add one move, given by its start, its last source key, and its destination. -/
def add (r : Renumbering) (start last dest : Nat) : Except Error Renumbering :=
  if last < start then .error (.invalidArgument (.shiftEndsBeforeStart start last))
  else do
    let starts ← r.starts.add start
    let lasts ← r.lasts.add last
    let dests ← r.dests.add dest
    return ⟨starts, lasts, dests⟩

/-- The renumbering with the given starts, last source keys and destinations, in any order. -/
def ofTriples (ts : List (Nat × Nat × Nat)) : Except Error Renumbering :=
  ts.foldlM (fun r t => r.add t.1 t.2.1 t.2.2) empty

/-- The number of moves. -/
def size (r : Renumbering) : Nat := r.starts.size

/-- Are all three sets empty? -/
def isEmpty (r : Renumbering) : Bool :=
  r.starts.isEmpty && r.lasts.isEmpty && r.dests.isEmpty

/-- The moves as triples of start, last source key and destination, ascending. Sets of different
sizes are paired as far as the smallest one goes. -/
def triples (r : Renumbering) : List (Nat × Nat × Nat) :=
  let n := min r.starts.size (min r.lasts.size r.dests.size)
  (r.starts.take n).toList.zip ((r.lasts.take n).toList.zip (r.dests.take n).toList)

/-- Do the three sets describe moves? They have one size, and no move ends before it starts. -/
def validate (r : Renumbering) : Except Error Unit :=
  if r.starts.size ≠ r.lasts.size ∨ r.starts.size ≠ r.dests.size then
    .error (.protocol (.shiftSizes r.starts.size r.lasts.size r.dests.size))
  else
    match r.triples.find? fun t => t.2.1 < t.1 with
    | some t => .error (.protocol (.shiftEndsBeforeStart t.1 t.2.1))
    | none => .ok ()

/-- The move described by a start, a last source key and a destination. -/
def moveOf (t : Nat × Nat × Nat) : Move := ⟨t.1, t.2.1 + 1, t.2.2⟩

/-- The moves in the order in which they are made. Moves that go nowhere are left out. -/
def schedule (r : Renumbering) : Except Error (List Move) := do
  r.validate
  let moves := r.triples.map moveOf
  return moves.filter (fun m => m.dest < m.start) ++
    moves.reverse.filter (fun m => m.start < m.dest)

end Renumbering

end LiveTables
