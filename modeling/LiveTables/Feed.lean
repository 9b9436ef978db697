import LiveTables.LiveTable

/-!
# Feeds

A feed brings messages to a live table and reports to a subscriber what they did. Behind it is a
worker, which owns the table and takes one signal after another: a message, a request to stop, or
the end of the channel. Each applied update is one tick of the subscriber. The first failure, be it
a message that says so or an update that is refused, is reported once, and the worker is finished.
A subscriber that panics takes the worker with it.

`Worker.step` is the worker, and `Worker.run` what it reports over a whole sequence of signals. A
`Feed` is the side of the sender.
-/

namespace LiveTables

/-- What is sent to a feed. -/
inductive Message where
  /-- an update of the table -/
  | update (u : Update)
  /-- the sender failed to get the next update -/
  | failure (e : Error)

/-- What a worker takes in. -/
inductive Signal where
  /-- the next message -/
  | message (m : Message)
  /-- the request to stop -/
  | cancel
  /-- no message will follow -/
  | closed

/-- What a subscriber is told. -/
inductive Report where
  /-- an update was applied -/
  | tick (c : Change)
  /-- the feed has failed -/
  | failure (e : Error)

/-- The one who is told. -/
structure Subscriber where
  /-- the tick, counted from one, in which the subscriber panics -/
  panicsAt : Option Nat := none
  deriving DecidableEq, Repr

/-- The worker of a feed. -/
inductive Worker where
  /-- the worker waits for the next signal, after this many ticks -/
  | running (table : LiveTable) (ticks : Nat)
  /-- the worker has stopped -/
  | finished
  /-- the worker has died in its subscriber -/
  | panicked

namespace Worker

/-- Take one signal. -/
def step (s : Subscriber) : Worker → Signal → Worker × Option Report
  | running table ticks, .message (.update u) =>
    match table.apply u with
    | (.ok c, after) =>
      if s.panicsAt = some (ticks + 1) then (panicked, none)
      else (running after (ticks + 1), some (.tick c))
    | (.error e, _) => (finished, some (.failure e))
  | running .., .message (.failure e) => (finished, some (.failure e))
  | running .., .cancel | running .., .closed => (finished, none)
  | w, _ => (w, none)

/-- Take signals one after another. Answers with all reports, and with the worker after. -/
def run (s : Subscriber) : Worker → List Signal → List Report × Worker
  | w, [] => ([], w)
  | w, signal :: rest =>
    let (w, report) := w.step s signal
    let (reports, w) := run s w rest
    (report.toList ++ reports, w)

/-- Does the worker wait for signals? -/
def isRunning : Worker → Bool
  | running .. => true
  | _ => false

end Worker

/-- What becomes of a message. -/
inductive Delivery where
  /-- the worker has dealt with it, and this is what it reported -/
  | reported (r : Report)
  /-- the worker died of it -/
  | lost
  /-- nobody takes messages any more -/
  | refused

/-- A feed, seen by the sender. -/
structure Feed where
  /-- how the feed was set up -/
  config : FeedConfig
  /-- the one who is told -/
  subscriber : Subscriber
  /-- the one who works -/
  worker : Worker

namespace Feed

/-- Start a feed with the given table. -/
def start (table : LiveTable) (config : FeedConfig) (subscriber : Subscriber) : Feed :=
  ⟨config, subscriber, .running table 0⟩

/-- Start a feed with the table that is announced with the given fields. -/
def startEmpty (fields : List Field) (config : FeedConfig) (subscriber : Subscriber) :
    Except Error Feed := do
  return start (.new (← Schema.ofFields fields) config.table) config subscriber

/-- Has the worker come to its end? -/
def isFinished (f : Feed) : Bool := !f.worker.isRunning

/-- Send a message, and wait for what becomes of it. -/
def send (f : Feed) (m : Message) : Delivery × Feed :=
  if f.isFinished then (.refused, f)
  else
    let (worker, report) := f.worker.step f.subscriber (.message m)
    let f := { f with worker }
    match report with
    | some r => (.reported r, f)
    | none => (.lost, f)

/-- Ask the worker to stop, and wait for it. That fails if the worker has died. -/
def cancel (f : Feed) : Except Error Unit × Feed :=
  let (worker, _) := f.worker.step f.subscriber .cancel
  let ended : Except Error Unit := match worker with
    | .panicked => .error (.internal .workerPanicked)
    | _ => .ok ()
  (ended, { f with worker })

end Feed

end LiveTables
