import LiveTables.Keys.Renumbering
import LiveTables.Column.Encoded

/-!
# Updates

An `Update` says what happens to a table at once: keys vanish, keys are renumbered, keys appear with
rows of data, and cells of keys get new values. What is removed and renumbered is named by the keys
before the update, what is added and modified by the keys after the renumbering.

Data comes in batches. All add batches one after the other have a row for each added key, ascending;
all batches of modifications have, in column `i`, a cell for each key of the `i`-th modified set. An
update has batches of one kind only.
-/

namespace LiveTables

/-- One array per column. -/
abbrev Batch := List EncodedArray

/-- What happens to a table at once. -/
structure Update where
  /-- keys that vanish -/
  removed : KeySet := .empty
  /-- keys that become other keys -/
  shifts : Renumbering := .empty
  /-- keys that appear -/
  added : KeySet := .empty
  /-- the rows of the keys that appear -/
  addBatches : List Batch := []
  /-- for each column the keys whose cells change, or nothing at all -/
  modified : List KeySet := []
  /-- the new cells, column by column -/
  modBatches : List Batch := []

/-- Does the update name no key? Such an update cannot change a table. -/
def Update.isEmpty (u : Update) : Bool :=
  u.removed.isEmpty && u.shifts.isEmpty && u.added.isEmpty && u.modified.all KeySet.isEmpty

end LiveTables
