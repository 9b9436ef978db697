import LiveTables.Column.Storage

/-!
# Splicing in place

Rows in the middle of a store are removed and inserted in place. The front part is copied first.
Then the store drops what is in front of the rear part, so that for a while it is nothing but the
rear part, until the front part takes its place and the rear part is appended to it. Where the rear
part starts is a sum of machine words that is not checked.
-/

namespace LiveTables.Store

/-- Remove `width` rows from row `index` on. -/
def spliceOut (s : Store) (index width : Nat) : Worked Store :=
  after (s.take index)
    (fun head s => (s.run (.drop (Word.wrapAdd index width))).andThen fun tail =>
      head.run (.append tail)) s

/-- Insert the rows of a piece in front of row `index`. -/
def spliceIn (s : Store) (index : Nat) (piece : Store) : Worked Store :=
  after (s.take index)
    (fun head s => (s.run (.drop index)).andThen fun tail =>
      (head.run (.append piece)).andThen fun head => head.run (.append tail)) s

end LiveTables.Store
