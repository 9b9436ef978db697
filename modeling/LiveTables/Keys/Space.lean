import LiveTables.Keys.Renumbering

/-!
# Key spaces

A `KeySpace` is the set of the keys that a table has at the moment. The rank of a key among them,
its *index*, is the position of its row in every column, so an operation on whole ranges of keys
answers with the index at which the columns have to be cut.

Adding and erasing need a range that is free, or full, to its last key; what fails is named by the
least key in the way. A move is refused if a key outside its source would change its place in the
order. Unlike a `KeySet`, a key space may hold `maxKey`, which a move can reach.

Nothing is changed by an operation that fails. A key space that is changed step by step goes on from
there: `KeySpace.run` answers with the outcome of a step and with the key space after it.
-/

namespace LiveTables

/-- The keys present in a table, as their maximal runs. -/
structure KeySpace where
  /-- the maximal runs of present keys, ascending -/
  runs : List Run
  /-- the runs are non-empty, ascend, do not touch, and hold no key past `maxKey` -/
  spaced : Spaced (maxKey + 1) 0 runs
  deriving DecidableEq

namespace KeySpace

/-- The key space of a table without rows. -/
def empty : KeySpace := ⟨[], trivial⟩

instance : Inhabited KeySpace := ⟨empty⟩

/-! ## Keys and their indices -/

/-- The number of present keys, and so of rows. -/
def size (s : KeySpace) : Nat := Runs.size s.runs

/-- Is no key present? -/
def isEmpty (s : KeySpace) : Bool := s.runs.isEmpty

/-- Is `k` present? -/
def contains (s : KeySpace) (k : Nat) : Bool := Runs.contains s.runs k

/-- The present keys, ascending. -/
def toList (s : KeySpace) : List Nat := Runs.toList s.runs

/-- The number of present keys below `k`. -/
def rank (s : KeySpace) (k : Nat) : Nat := Runs.rank s.runs k

/-- The index of a present key. -/
def indexOf? (s : KeySpace) (k : Nat) : Option Nat :=
  if s.contains k then some (s.rank k) else none

/-- The key of an index below the number of rows. -/
def keyAt? (s : KeySpace) (i : Nat) : Option Nat := Runs.select? s.runs i

/-- Succeed if every key of `[b, e)` is present, and otherwise name the least one that is not. -/
def requirePresent (s : KeySpace) (b e : Nat) : Except Error Unit :=
  if e ≤ Runs.firstGap s.runs b then .ok ()
  else .error (.keyNotFound (Runs.firstGap s.runs b))

/-- The positions of the rows of a set of keys, all of which have to be present. -/
def positions (s : KeySpace) (keys : KeySet) : Except Error KeySet :=
  keys.runs.foldlM (fun found r => do
    s.requirePresent r.start r.stop
    found.addRange (s.rank r.start) (s.rank r.start + r.width)) .empty

/-- The present keys as a set. There is none if `maxKey` is present: the end of its run is no word,
and counting goes on from 0. -/
def rowKeys (s : KeySpace) : Except Error KeySet :=
  if h : ∀ r ∈ s.runs, r.stop ≤ maxKey then .ok ⟨s.runs, s.spaced.narrow h⟩
  else .error (.invalidArgument (.reversedRange (s.runs.getLast?.elim 0 Run.start) 0))

/-! ## Changing the key space -/

/-- Add the keys of `[b, e)`, none of which may be present. Answers with the index of `b`, or 0
for an empty range. -/
def addRange (s : KeySpace) (b e : Nat) : Except Error (Nat × KeySpace) :=
  if e < b then .error (.invalidArgument (.reversedRange b e))
  else if b = e then .ok (0, s)
  else if h : e ≤ maxKey + 1 then
    match Runs.firstIn? s.runs b e with
    | some k => .error (.duplicateKey k)
    | none => .ok (s.rank b, ⟨Runs.insert b e s.runs, s.spaced.insert h⟩)
  else .error (.invalidArgument (.unrepresentableKey (e - 1)))

/-- Remove the keys of `[b, e)`, all of which have to be present. Answers with the index that `b`
had, or 0 for an empty range. -/
def eraseRange (s : KeySpace) (b e : Nat) : Except Error (Nat × KeySpace) :=
  if e < b then .error (.invalidArgument (.reversedRange b e))
  else if b = e then .ok (0, s)
  else do
    s.requirePresent b e
    return (s.rank b, ⟨Runs.erase b e s.runs, s.spaced.erase⟩)

/-- The keys that the source runs of a move cross on their way, as a half-open range: what lies
between the source and the landing place of its outermost key, landing places included. -/
def crossed (m : Move) (first last : Nat) : Nat × Nat :=
  if m.start < m.dest then (last + 1, m.target last + 1) else (m.target first, first)

/-- Make a move. The present keys of its source change, their indices stay. A present key outside
the source may not lie where a moved key lands, nor be passed by one. -/
def shift (s : KeySpace) (m : Move) : Except Error KeySpace :=
  if m.stop < m.start then .error (.invalidArgument (.reversedRange m.start m.stop))
  else if m.start = m.stop ∨ m.start = m.dest then .ok s
  else
    let source := Runs.within m.start m.stop s.runs
    match source.head?, source.getLast? with
    | some low, some high =>
      let landing := source.map m.moved
      if h : ∀ r ∈ landing, r.stop ≤ maxKey + 1 then
        let way := crossed m low.start high.last
        match Runs.firstIn? s.runs way.1 way.2 with
        | some k =>
          if Runs.contains landing k then .error (.duplicateKey k)
          else .error (.protocol (.shiftPassesKey m.start m.stop m.dest k))
        | none =>
          .ok ⟨Runs.insertAll landing (Runs.erase m.start m.stop s.runs),
            s.spaced.erase.insertAll h⟩
      else .error (.protocol (.shiftLeavesKeySpace m.start m.stop m.dest high.last))
    | _, _ => .ok s

/-- Make all moves of a renumbering, in the order of its schedule. -/
def renumber (s : KeySpace) (r : Renumbering) : Except Error KeySpace := do
  (← r.schedule).foldlM shift s

end KeySpace

/-! ## Step by step -/

/-- One change of a key space. -/
inductive KeyStep where
  /-- the keys of `[b, e)` appear -/
  | add (b e : Nat)
  /-- the keys of `[b, e)` vanish -/
  | erase (b e : Nat)
  /-- the source keys of a move become other keys -/
  | shift (m : Move)
  deriving DecidableEq, Repr

namespace KeySpace

/-- What a change makes of a key space, beside the index at which columns are to be cut. A move
leaves the columns alone. -/
def outcome (s : KeySpace) : KeyStep → Except Error (Option Nat × KeySpace)
  | .add b e => (s.addRange b e).map (Prod.map some id)
  | .erase b e => (s.eraseRange b e).map (Prod.map some id)
  | .shift m => (s.shift m).map (Prod.mk none)

/-- Make one change in place. A change that fails leaves the key space as it was. -/
def run (s : KeySpace) (step : KeyStep) : Except Error (Option Nat) × KeySpace :=
  match s.outcome step with
  | .ok (index, t) => (.ok index, t)
  | .error e => (.error e, s)

end KeySpace

end LiveTables
