import LiveTables.Column.Cells

/-!
# Settings

What can be chosen about a table and about its feed, with what is chosen if nothing is said.
-/

namespace LiveTables

/-- Settings of a table. -/
structure TableConfig where
  /-- how every column is stored -/
  backing : Backing := default
  /-- check after every update that each column has one row per key -/
  verify : Bool := false
  deriving DecidableEq, Repr

/-- Settings of a feed. -/
structure FeedConfig where
  /-- how many messages may wait for the worker -/
  capacity : Nat := 64
  /-- the name of the worker -/
  threadName : String := "ticktab-subscription"
  /-- settings of the table -/
  table : TableConfig := {}
  deriving DecidableEq, Repr

end LiveTables
