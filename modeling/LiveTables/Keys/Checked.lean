import LiveTables.Keys.Cursor
import LiveTables.Keys.Space
import LiveTables.Word

/-!
# The key layer in machine words

The operations on keys, written with the sums and differences of machine words that they are made
with. An operation here is `none` if one of these is not a word; what it answers otherwise may still
be an error.

Of a key space only its set of keys is used: how many keys there are up to a given one, which key
has a given index, and whether a key is there. The rest is counted from that. Missing keys are
looked for by bisection, a move takes its keys one by one, and so are the present keys collected. To
find the key of an index takes no arithmetic (`KeySpace.keyAt?`).
-/

namespace LiveTables

namespace KeySpace

/-- The number of present keys up to `k`. -/
def upTo (s : KeySpace) (k : Nat) : Nat := s.rank (k + 1)

/-- The key space with the keys of `[b, e)`, as far as they are keys. -/
def insertRange (b e : Nat) (s : KeySpace) : KeySpace :=
  ⟨Runs.insert b (min e (maxKey + 1)) s.runs, s.spaced.insert (Nat.min_le_right ..)⟩

/-- The key space without the keys of `[b, e)`. -/
def removeRange (b e : Nat) (s : KeySpace) : KeySpace := ⟨Runs.erase b e s.runs, s.spaced.erase⟩

/-- The key space with one key. -/
def insertKey (s : KeySpace) (k : Nat) : KeySpace := s.insertRange k (k + 1)

/-- The key space without one key. -/
def removeKey (s : KeySpace) (k : Nat) : KeySpace := s.removeRange k (k + 1)

end KeySpace

namespace Checked

open Word

/-! ## Counting keys -/

/-- The number of present keys below `k`. -/
def countBelow (s : KeySpace) (k : Nat) : Option Nat :=
  if k = 0 then some 0 else return s.upTo (← sub? k 1)

/-- The number of present keys in `[b, e)`. -/
def countIn (s : KeySpace) (b e : Nat) : Option Nat := do
  sub? (← countBelow s e) (← countBelow s b)

/-- The least present key at or after `k`. -/
def firstFrom? (s : KeySpace) (k : Nat) : Option (Option Nat) :=
  return s.keyAt? (← countBelow s k)

/-- The present keys in `[b, e)`. -/
def keysIn (s : KeySpace) (b e : Nat) : Option (List Nat) := do
  let first ← countBelow s b
  let stop ← add? first (← countIn s b e)
  return (Run.mk first stop).keys.filterMap s.keyAt?

/-- The index of a present key. -/
def indexOf? (s : KeySpace) (k : Nat) : Option (Option Nat) :=
  if s.contains k then some <$> countBelow s k else some none

/-! ## Looking for a missing key -/

/-- The middle of `[lo, hi)`. -/
def middle (lo hi : Nat) : Option Nat := do add? lo ((← sub? hi lo) / 2)

theorem middle_eq_some {lo hi : Nat} (h : lo ≤ hi) (hmax : hi ≤ maxKey) :
    middle lo hi = some (lo + (hi - lo) / 2) := by
  rw [middle, sub?_eq_some h]
  exact add?_eq_some (by omega)

theorem middle_mem {lo hi mid : Nat} (hpos : lo < hi) (h : middle lo hi = some mid) :
    lo ≤ mid ∧ mid < hi := by
  rw [middle, sub?_eq_some (Nat.le_of_lt hpos)] at h
  have hmid := (add?_eq_some_iff.mp h).2
  omega

/-- Is the `mid`-th key after `b`, counted from 0, the one that has `base + mid` keys before it? -/
def followsAt (s : KeySpace) (b base mid : Nat) : Option Bool :=
  return s.keyAt? (← add? base mid) = some (← add? b mid)

/-- The length of the prefix of present keys from `b` on, which is at least `lo` and at most `hi`.
There are `base` keys before `b`. -/
def bisect (s : KeySpace) (b base lo hi : Nat) : Option Nat :=
  if hpos : lo < hi then
    match hmid : middle lo hi with
    | none => none
    | some mid =>
      have := middle_mem hpos hmid
      (followsAt s b base mid).bind fun
        | true =>
          match hnext : add? mid 1 with
          | none => none
          | some next =>
            have := (add?_eq_some_iff.mp hnext).2
            bisect s b base next hi
        | false => bisect s b base lo mid
  else some lo
termination_by hi - lo

/-- Succeed if every key of `[b, e)` is present, and otherwise name the least one that is not. -/
def requirePresent (s : KeySpace) (b e : Nat) : Option (Except Error Unit) := do
  if (← countIn s b e) = (← sub? e b) then return .ok ()
  else
    let found ← bisect s b (← countBelow s b) 0 (← sub? e b)
    return .error (.keyNotFound (← add? b found))

/-! ## Changing a key space -/

/-- Add the keys of `[b, e)`. The index of `b` is counted when they are there. -/
def addRange (s : KeySpace) (b e : Nat) : Option (Except Error (Nat × KeySpace)) :=
  if e < b then return .error (.invalidArgument (.reversedRange b e))
  else if b = e then return .ok (0, s)
  else do
    if (← countIn s b e) ≠ 0 then
      return .error (.duplicateKey ((← firstFrom? s b).getD b))
    else
      return .ok (← countBelow (s.insertRange b e) b, s.insertRange b e)

/-- Remove the keys of `[b, e)`. The index of `b` is counted while they are still there. -/
def eraseRange (s : KeySpace) (b e : Nat) : Option (Except Error (Nat × KeySpace)) :=
  if e < b then return .error (.invalidArgument (.reversedRange b e))
  else if b = e then return .ok (0, s)
  else do
    match ← requirePresent s b e with
    | .error err => return .error err
    | .ok () => return .ok (← countBelow s b, s.removeRange b e)

/-- The first and the last key of the way of the source keys of a move, of which `first` is the
least and `last` the greatest one. -/
def way (m : Move) (first last : Nat) : Option (Except Error (Nat × Nat)) :=
  if m.start < m.dest then do
    let delta ← sub? m.dest m.start
    match add? last delta with
    | none => return .error (.protocol (.shiftLeavesKeySpace m.start m.stop m.dest last))
    | some landing => return .ok (← add? last 1, landing)
  else do
    let delta ← sub? m.start m.dest
    return .ok (← sub? first delta, ← sub? first 1)

/-- The key that would become `k` in a move. -/
def origin? (m : Move) (k : Nat) : Option (Option Nat) :=
  if m.start < m.dest then return sub? k (← sub? m.dest m.start)
  else return add? k (← sub? m.start m.dest)

/-- Replace keys by what becomes of them, one after the other. -/
def relocate (target : Nat → Option Nat) : List Nat → KeySpace → Option KeySpace
  | [], s => some s
  | k :: ks, s => do relocate target ks ((s.removeKey k).insertKey (← target k))

/-- Move the source keys of a move, those first that are moved the farthest. -/
def moveKeys (s : KeySpace) (m : Move) (source : List Nat) : Option KeySpace :=
  if m.start < m.dest then do
    let delta ← sub? m.dest m.start
    relocate (add? · delta) source.reverse s
  else do
    let delta ← sub? m.start m.dest
    relocate (sub? · delta) source s

/-- Make a move of the source keys `source` from `first` to `last`, unless there is another key on
their way. -/
def shiftKeys (s : KeySpace) (m : Move) (source : List Nat) (first last : Nat) :
    Option (Except Error KeySpace) := do
  match ← way m first last with
  | .error err => return .error err
  | .ok (low, high) =>
    match (← firstFrom? s low).filter (· ≤ high) with
    | some k =>
      if (← origin? m k).any fun o => m.start ≤ o && o < m.stop && s.contains o then
        return .error (.duplicateKey k)
      else return .error (.protocol (.shiftPassesKey m.start m.stop m.dest k))
    | none => return .ok (← moveKeys s m source)

/-- Make a move. -/
def shift (s : KeySpace) (m : Move) : Option (Except Error KeySpace) :=
  if m.stop < m.start then return .error (.invalidArgument (.reversedRange m.start m.stop))
  else if m.start = m.stop ∨ m.start = m.dest then return .ok s
  else do
    let source ← keysIn s m.start m.stop
    match source.head?, source.getLast? with
    | some first, some last => shiftKeys s m source first last
    | _, _ => return .ok s

/-! ## Growing a key set -/

/-- A key set that grows, with the number of its keys as a counter. -/
structure Builder where
  /-- the maximal runs, ascending -/
  runs : List Run
  /-- the number of keys that were added -/
  count : Nat
  deriving DecidableEq

/-- A set as it grows. -/
def builder (s : KeySet) : Builder := ⟨s.runs, s.size⟩

namespace Builder

/-- Add the keys of `[first, stop)`, none of which may be there. -/
def addRange (t : Builder) (first stop : Nat) : Option (Except Error Builder) :=
  if stop < first then return .error (.invalidArgument (.reversedRange first stop))
  else if first = stop then return .ok t
  else
    match Runs.join? first stop t.runs with
    | none => return .error (.overlap first stop)
    | some runs => do return .ok ⟨runs, ← add? t.count (← sub? stop first)⟩

/-- Add one key. -/
def add (t : Builder) (k : Nat) : Option (Except Error Builder) :=
  match add? k 1 with
  | none => return .error (.invalidArgument (.unrepresentableKey k))
  | some stop => t.addRange k stop

/-- The set that a call makes. -/
def outcome (t : Builder) : Addition → Option (Except Error Builder)
  | .range first stop => t.addRange first stop
  | .key k => t.add k

/-- Make one call in place. -/
def grow (t : Builder) (a : Addition) : Option (Except Error Unit × Builder) := do
  match ← t.outcome a with
  | .ok t' => return (.ok (), t')
  | .error err => return (.error err, t)

/-- Make one call after another. -/
def growAll (t : Builder) : List Addition → Option (List (Except Error Unit) × Builder)
  | [] => some ([], t)
  | a :: as => do
    let (outcome, t) ← t.grow a
    let (outcomes, t) ← t.growAll as
    return (outcome :: outcomes, t)

end Builder

/-! ## Collecting the present keys -/

/-- Runs, the last of which comes first, with one key more. If the last run ends where the key is,
it becomes longer by this key. -/
def pushKey (rs : List Run) (k : Nat) : Option (List Run) := do
  let stop ← add? k 1
  match rs with
  | r :: rs => return if r.stop = k then ⟨r.start, stop⟩ :: rs else ⟨k, stop⟩ :: r :: rs
  | [] => return [⟨k, stop⟩]

/-- The runs of keys that are joined one by one. -/
def runsOf (ks : List Nat) : Option (List Run) := do return (← ks.foldlM pushKey []).reverse

/-- Add the keys of one run after another. -/
def addRuns : List Run → Builder → Option (Except Error Builder)
  | [], t => some (.ok t)
  | r :: rs, t => do
    match ← t.addRange r.start r.stop with
    | .error err => return .error err
    | .ok t => addRuns rs t

/-- The present keys as a set. -/
def rowKeys (s : KeySpace) : Option (Except Error Builder) := do
  addRuns (← runsOf s.toList) (builder .empty)

/-! ## Positions of keys -/

/-- Add the positions of the rows of runs of keys. Runs are told by their first and last keys. -/
def positionsFrom (s : KeySpace) : List Run → Builder → Option (Except Error Builder)
  | [], t => some (.ok t)
  | r :: rs, t => do
    let last ← sub? r.stop 1
    let stop ← add? last 1
    match ← requirePresent s r.start stop with
    | .error err => return .error err
    | .ok () =>
      let index ← countBelow s r.start
      match ← t.addRange index (← add? index (← sub? stop r.start)) with
      | .error err => return .error err
      | .ok t => positionsFrom s rs t

/-- The positions of the rows of a set of keys, as they are collected. -/
def positions (s : KeySpace) (keys : KeySet) : Option (Except Error Builder) :=
  positionsFrom s keys.runs (builder .empty)

/-! ## Scheduling moves -/

/-- The move described by a start, a last source key and a destination. -/
def moveOf (t : Nat × Nat × Nat) : Option Move := return ⟨t.1, ← add? t.2.1 1, t.2.2⟩

/-- The moves in the order in which they are made. -/
def schedule (r : Renumbering) : Option (Except Error (List Move)) :=
  match r.validate with
  | .error err => return .error err
  | .ok () => do
    let down ← (r.triples.filter fun t => t.2.2 < t.1).mapM moveOf
    let up ← (r.triples.reverse.filter fun t => t.1 < t.2.2).mapM moveOf
    return .ok (down ++ up)

/-! ## Walking a key set -/

/-- Give the least key that is left. -/
def next (c : Cursor) : Option (Option Nat × Cursor) :=
  if c.remaining = 0 then some (none, c)
  else do
    let r ← c.runs[c.front.run]?
    let after ← add? c.front.key 1
    let front : Place :=
      if after = r.stop then ⟨c.front.run + 1, c.runs[c.front.run + 1]?.elim 0 Run.start⟩
      else ⟨c.front.run, after⟩
    return (some c.front.key, { c with front, remaining := ← sub? c.remaining 1 })

/-- The place at the back before the key `key` of the run `r`. -/
def behind (c : Cursor) (r : Run) (key : Nat) : Option Place :=
  if key = r.start then
    if 0 < c.back.run then c.runs[c.back.run - 1]?.map fun l => ⟨c.back.run - 1, l.stop⟩
    else some c.back
  else some ⟨c.back.run, key⟩

/-- Give the greatest key that is left. -/
def nextBack (c : Cursor) : Option (Option Nat × Cursor) :=
  if c.remaining = 0 then some (none, c)
  else do
    let key ← sub? c.back.key 1
    let r ← c.runs[c.back.run]?
    let back ← behind c r key
    return (some key, { c with back, remaining := ← sub? c.remaining 1 })

end Checked

end LiveTables
