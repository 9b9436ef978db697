import LiveTables.Column.Storage

/-!
# Copying rows between what keeps them

How the rows of a set or of a list are found, checked and copied does not depend on what is kept in
a row. A `Copier` is what it takes to copy rows: there is a number of rows, the rows of a run can be
copied from one place to another, and nulls can be added. Gathering and scattering are put together
of these. `Storage` is one thing that keeps rows, and a column that keeps arrays is another.
-/

namespace LiveTables

/-- Copy members of one list to another one, one by one, each from the first to the second position
of a pair. -/
def copyEach {α : Type} (src : List α) : List (Nat × Nat) → List α → List α
  | [], dest => dest
  | p :: places, dest => copyEach src places (src[p.1]?.elim dest fun x => dest.set p.2 x)

/-- Copy the members of a run of one list to position `i` and after of another one, either at once
or one by one. -/
def copyMembers {α : Type} (atOnce : Bool) (src : List α) (r : Run) (i : Nat) (dest : List α) :
    List α :=
  if atOnce then
    let piece := (src.drop r.start).take r.width
    dest.take i ++ piece ++ dest.drop (i + piece.length)
  else copyEach src (r.keys.zipIdx i) dest

/-- What rows are copied with. -/
structure Copier (δ : Type) where
  /-- the number of rows -/
  size : δ → Nat
  /-- copy the rows of a run of `src` to position `i` and after -/
  copyRun (src : δ) (r : Run) (i : Nat) (d : δ) : Worked δ
  /-- add nulls until there are `n` rows -/
  growTo (n : Nat) (d : δ) : δ

namespace Copier

variable {δ : Type} (m : Copier δ)

/-! ## Gathering -/

/-- Copy the rows of runs, one run after the other, to position `i` and after. -/
def gatherRuns (src : δ) : List Run → Nat → δ → Worked δ
  | [], _, d => (.ok (), d)
  | r :: rs, i, d =>
    after (Column.requireRun (m.size src) r)
      (fun _ d => (m.copyRun src r i d).andThen (gatherRuns src rs (i + r.width))) d

/-- Copy rows, one after the other, to position `i` and after. -/
def gatherRows (src : δ) : List Nat → Nat → δ → Worked δ
  | [], _, d => (.ok (), d)
  | row :: rows, i, d =>
    (m.copyRun src ⟨row, row + 1⟩ i d).andThen (gatherRows src rows (i + 1))

/-- Copy the rows of a set, ascending, to the front. -/
def gather (src : δ) (rows : KeySet) (d : δ) : Worked δ :=
  after (do Column.requireRoom rows.size (m.size d); Column.requireSet (m.size src) rows)
    (fun _ => m.gatherRuns src rows.runs 0) d

/-- Copy the rows of a list, in its order, to the front. -/
def gatherEach (src : δ) (rows : List Nat) (d : δ) : Worked δ :=
  after (do
      Column.requireRoom rows.length (m.size d)
      rows.forM (Column.requireRow (m.size src)))
    (fun _ => m.gatherRows src rows 0) d

/-! ## Scattering -/

/-- Copy the rows from position `i` on to the rows of runs, all of which have to lie below
`size`. -/
def scatterRuns (src : δ) (size : Nat) : List Run → Nat → δ → Worked δ
  | [], _, d => (.ok (), d)
  | r :: rs, i, d =>
    after (Column.requireRun size r)
      (fun _ d => (m.copyRun src ⟨i, i + r.width⟩ r.start d).andThen
        (scatterRuns src size rs (i + r.width))) d

/-- Copy the rows from position `i` on to the rows of a list, all of which have to lie below
`size`. -/
def scatterRows (src : δ) (size : Nat) : List Nat → Nat → δ → Worked δ
  | [], _, d => (.ok (), d)
  | row :: rows, i, d =>
    after (Column.requireRow size row)
      (fun _ d => (m.copyRun src ⟨i, i + 1⟩ row d).andThen (scatterRows src size rows (i + 1))) d

/-- Copy the front to the rows of a set, ascending, for which there is room first. -/
def scatter (src : δ) (rows : KeySet) (d : δ) : Worked δ :=
  after (do Column.requireRoom rows.size (m.size src); rows.last?.mapM Storage.sizeFor)
    (fun
      | some size, d => m.scatterRuns src size rows.runs 0 (m.growTo size d)
      | none, d => (.ok (), d)) d

/-- Copy the front to the rows of a list, in its order, for which there is room first. -/
def scatterEach (src : δ) (rows : List Nat) (d : δ) : Worked δ :=
  after (do Column.requireRoom rows.length (m.size src); rows.max?.mapM Storage.sizeFor)
    (fun
      | some size, d => m.scatterRows src size rows 0 (m.growTo size d)
      | none, d => (.ok (), d)) d

end Copier

/-- Storages are what rows are copied between in stores. -/
def Storage.copier : Copier Storage := ⟨Storage.size, Storage.copyRun, Storage.growTo⟩

end LiveTables
