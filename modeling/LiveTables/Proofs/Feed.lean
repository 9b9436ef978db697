import LiveTables.Feed
import LiveTables.Proofs.Table.Export
import Mathlib.Logic.Relation

/-!
# What subscribers are told

The worker of a feed runs beside those who send to it. It takes a message when one is waiting, the
request to stop when there is one, and the end of the channel when no message is left and none can
follow; where several of these are there, it takes any. A `Session` is a feed together with what
waits for its worker, and `Session.Step` is everything that can happen next, so a run is one of all
possible interleavings.

What a subscriber has been told at any moment of any run is `Told`: a tick for each update that was
taken, in the order in which the updates were sent, and then a failure if the message taken last was
one or could not be applied. Nothing else is ever told, and nothing after a failure
(`Session.steps_told`).
-/

namespace LiveTables

/-! ## What can be told -/

/-- The error that makes a feed fail which takes this message: that of the message, or that of an
update which the table refuses. -/
def Message.fault? (t : LiveTable) : Message → Option Error
  | .update u =>
    match (t.apply u).1 with
    | .ok _ => none
    | .error e => some e
  | .failure e => some e

/-- The updates are accepted one after another, and these are the answers: the answer at position
`j` is that of the table which the updates before have left. -/
def Applied (start : LiveTable) (us : List Update) (changes : List Change) : Prop :=
  us.length = changes.length ∧ ∀ (j : Nat) u c, us[j]? = some u → changes[j]? = some c →
    ((start.applyAll (us.take j)).apply u).1 = .ok c

/-- A worker that has taken some messages is in this state, and has told its subscriber this. -/
inductive Told (s : Subscriber) (start : LiveTable) : Worker → List Message → List Report → Prop
  /-- all updates were accepted, and the worker waits -/
  | running {us : List Update} {changes : List Change} (h : Applied start us changes) :
    Told s start (.running (start.applyAll us) us.length) (us.map .update) (changes.map .tick)
  /-- all updates were accepted, and the worker has stopped as it was asked to -/
  | stopped {us : List Update} {changes : List Change} (h : Applied start us changes) :
    Told s start .finished (us.map .update) (changes.map .tick)
  /-- the last message made the feed fail -/
  | failed {us : List Update} {changes : List Change} {m : Message} {e : Error}
    (h : Applied start us changes) (hm : m.fault? (start.applyAll us) = some e) :
    Told s start .finished (us.map .update ++ [m]) (changes.map .tick ++ [.failure e])
  /-- the subscriber panicked over the last update -/
  | panicked {us : List Update} {changes : List Change} {u : Update} {c : Change}
    (h : Applied start us changes) (hu : ((start.applyAll us).apply u).1 = .ok c)
    (hpanic : s.panicsAt = some (us.length + 1)) :
    Told s start .panicked (us.map .update ++ [.update u]) (changes.map .tick)

section Told

variable {s : Subscriber} {start : LiveTable} {us : List Update} {changes : List Change}
  {w : Worker} {taken : List Message} {reports : List Report} {m : Message}

theorem Applied.nil : Applied start [] [] := by
  refine ⟨rfl, fun j u c hu => ?_⟩
  cases hu

/-- One more update is accepted. -/
theorem Applied.concat {u : Update} {c : Change} (h : Applied start us changes)
    (hu : ((start.applyAll us).apply u).1 = .ok c) :
    Applied start (us ++ [u]) (changes ++ [c]) := by
  obtain ⟨hlength, hanswers⟩ := h
  refine ⟨by simp [hlength], fun j u' c' hu' hc' => ?_⟩
  rcases Nat.lt_or_ge j us.length with hj | hj
  · rw [List.getElem?_append_left hj] at hu'
    rw [List.getElem?_append_left (hlength ▸ hj)] at hc'
    rw [List.take_append_of_le_length (Nat.le_of_lt hj)]
    exact hanswers j u' c' hu' hc'
  · rw [List.getElem?_append_right hj] at hu'
    rw [List.getElem?_append_right (hlength ▸ hj)] at hc'
    obtain ⟨hlt, rfl⟩ := List.getElem?_eq_some_iff.mp hu'
    obtain ⟨-, rfl⟩ := List.getElem?_eq_some_iff.mp hc'
    have hlast : j = us.length := by
      simp at hlt
      omega
    subst hlast
    simpa using hu

/-! ## One step of a worker -/

/-- A running worker takes a message. -/
theorem Told.message (h : Told s start w taken reports) (hrun : w.isRunning = true) (m : Message) :
    Told s start (w.step s (.message m)).1 (taken ++ [m])
      (reports ++ (w.step s (.message m)).2.toList) := by
  cases h with
  | stopped | failed | panicked => cases hrun
  | @running us changes h =>
    cases m with
    | failure e => exact .failed h rfl
    | update u =>
      rw [Worker.step]
      cases hanswer : (start.applyAll us).apply u with
      | mk answer after =>
        cases answer with
        | error e =>
          refine .failed h ?_
          rw [Message.fault?, hanswer]
        | ok c =>
          have hok : ((start.applyAll us).apply u).1 = .ok c := by rw [hanswer]
          have hafter : after = start.applyAll (us ++ [u]) := by
            rw [LiveTable.applyAll_append, LiveTable.applyAll_cons, hanswer]
            rfl
          dsimp only
          split
          · rw [Option.toList_none, List.append_nil]
            exact .panicked h hok ‹_›
          · have hnext := Told.running (s := s) (h.concat hok)
            rw [List.map_append, List.map_append, List.length_append, ← hafter] at hnext
            exact hnext

/-- A running worker that is asked to stop, or finds the channel closed, stops and tells nothing. -/
theorem Told.stop (h : Told s start w taken reports) (hrun : w.isRunning = true) {signal : Signal}
    (hsignal : signal = .cancel ∨ signal = .closed) :
    (w.step s signal).2 = none ∧ Told s start (w.step s signal).1 taken reports := by
  cases h with
  | stopped | failed | panicked => cases hrun
  | running h => rcases hsignal with rfl | rfl <;> exact ⟨rfl, .stopped h⟩

/-- No accepted update makes a feed fail. -/
theorem Applied.fault?_eq_none {all : List Update} (h : Applied start all changes)
    (hm : all.map Message.update = us.map Message.update ++ [m]) :
    m.fault? (start.applyAll us) = none := by
  obtain ⟨front, back, rfl, hfront, hback⟩ := List.map_eq_append_iff.mp hm
  obtain rfl := List.map_injective_iff.mpr (fun _ _ => Message.update.inj) hfront
  obtain ⟨u, rfl, rfl⟩ := List.map_eq_singleton_iff.mp hback
  obtain ⟨hlength, hanswers⟩ := h
  have hlast : front.length < changes.length := by
    rw [← hlength]
    simp
  have hok := hanswers front.length u changes[front.length] (by simp)
    (List.getElem?_eq_getElem hlast)
  rw [List.take_left] at hok
  rw [Message.fault?, hok]

/-- A failure is told just if the message taken last is one, or an update that is refused, and it is
the failure of this message. -/
theorem Told.failure_mem_iff (h : Told s start w taken reports) {e : Error} :
    .failure e ∈ reports ↔ ∃ us m, taken = us.map Message.update ++ [m] ∧
      m.fault? (start.applyAll us) = some e := by
  have hticks : ∀ changes : List Change, Report.failure e ∉ changes.map Report.tick := by simp
  cases h with
  | running h | stopped h =>
    refine iff_of_false (hticks _) ?_
    rintro ⟨us, m, hm, hfault⟩
    rw [h.fault?_eq_none hm] at hfault
    cases hfault
  | panicked h hu =>
    refine iff_of_false (hticks _) ?_
    rintro ⟨us, m, hm, hfault⟩
    rw [(h.concat hu).fault?_eq_none (by rw [List.map_append]; exact hm)] at hfault
    cases hfault
  | @failed us changes m e' h hm =>
    rw [List.mem_append, or_iff_right (hticks changes), List.mem_singleton]
    refine ⟨?_, ?_⟩
    · rintro ⟨⟩
      exact ⟨us, m, rfl, hm⟩
    · rintro ⟨us', m', htaken, hm'⟩
      obtain ⟨hus, hlast⟩ := List.append_inj' htaken rfl
      obtain rfl := List.map_injective_iff.mpr (fun _ _ => Message.update.inj) hus
      obtain rfl := List.singleton_inj.mp hlast
      rw [Option.some.inj (hm.symm.trans hm')]

end Told

/-! ## Runs -/

/-- What a signal brings, if it brings a message. -/
def Signal.message? : Signal → Option Message
  | .message m => some m
  | .cancel | .closed => none

/-- After one more signal a worker has reported what it did before, and what it does then. -/
theorem Worker.run_concat (s : Subscriber) (w : Worker) (signals : List Signal) (signal : Signal) :
    Worker.run s w (signals ++ [signal]) =
      ((Worker.run s w signals).1 ++ ((Worker.run s w signals).2.step s signal).2.toList,
        ((Worker.run s w signals).2.step s signal).1) := by
  induction signals generalizing w with
  | nil => simp [run]
  | cons first signals ih => simp [run, ih]

/-- A feed with what waits for its worker. -/
structure Session where
  /-- all messages that were sent, in their order -/
  sent : List Message := []
  /-- those that the worker has not taken -/
  queue : List Message := []
  /-- can there be further messages? -/
  isOpen : Bool := true
  /-- has the worker been asked to stop? -/
  isCancelled : Bool := false
  /-- what the worker has taken, in its order -/
  signals : List Signal := []

namespace Session

variable {s : Subscriber} {start : LiveTable} {x y : Session}

/-- The messages that the worker has taken. -/
def taken (x : Session) : List Message := x.signals.filterMap Signal.message?

/-- The worker, which began with the table `start`. -/
def worker (s : Subscriber) (start : LiveTable) (x : Session) : Worker :=
  (Worker.run s (.running start 0) x.signals).2

/-- What the subscriber has been told. -/
def reports (s : Subscriber) (start : LiveTable) (x : Session) : List Report :=
  (Worker.run s (.running start 0) x.signals).1

/-- What can happen to a session. Senders and the one who cancels do not wait for the worker, and a
worker to which several things are ready takes any of them. -/
inductive Step (s : Subscriber) (start : LiveTable) : Session → Session → Prop
  /-- a message is sent, while the worker is there -/
  | send {x : Session} (m : Message) (hopen : x.isOpen = true)
    (hrun : (x.worker s start).isRunning = true) :
    Step s start x { x with sent := x.sent ++ [m], queue := x.queue ++ [m] }
  /-- the last sender goes -/
  | close {x : Session} : Step s start x { x with isOpen := false }
  /-- the worker is asked to stop -/
  | cancel {x : Session} : Step s start x { x with isCancelled := true }
  /-- the worker takes the message that has waited longest -/
  | takeMessage {x : Session} {m : Message} {rest : List Message} (hqueue : x.queue = m :: rest)
    (hrun : (x.worker s start).isRunning = true) :
    Step s start x { x with queue := rest, signals := x.signals ++ [.message m] }
  /-- the worker takes the request to stop -/
  | takeCancel {x : Session} (hcancelled : x.isCancelled = true)
    (hrun : (x.worker s start).isRunning = true) :
    Step s start x { x with signals := x.signals ++ [.cancel] }
  /-- the worker finds that no message waits and none can follow -/
  | takeClosed {x : Session} (hqueue : x.queue = []) (hclosed : x.isOpen = false)
    (hrun : (x.worker s start).isRunning = true) :
    Step s start x { x with signals := x.signals ++ [.closed] }

/-- The sessions that can come of one. -/
abbrev Steps (s : Subscriber) (start : LiveTable) : Session → Session → Prop :=
  Relation.ReflTransGen (Step s start)

theorem worker_concat {signal : Signal} {rest : List Message} :
    worker s start { x with queue := rest, signals := x.signals ++ [signal] } =
      ((x.worker s start).step s signal).1 := by
  rw [worker, Worker.run_concat]
  rfl

theorem reports_concat {signal : Signal} {rest : List Message} :
    reports s start { x with queue := rest, signals := x.signals ++ [signal] } =
      x.reports s start ++ ((x.worker s start).step s signal).2.toList := by
  rw [reports, Worker.run_concat]
  rfl

/-- What is kept by all that can happen: no message is lost or passes another one, and what the
subscriber has been told is right. -/
structure Sound (s : Subscriber) (start : LiveTable) (x : Session) : Prop where
  sent : x.sent = x.taken ++ x.queue
  told : Told s start (x.worker s start) x.taken (x.reports s start)

theorem sound_empty : Sound s start {} where
  sent := rfl
  told := .running .nil

theorem taken_concat {signal : Signal} {rest : List Message} :
    taken { x with queue := rest, signals := x.signals ++ [signal] } =
      x.taken ++ signal.message?.toList := by
  rw [taken, List.filterMap_append]
  cases signal <;> rfl

/-- How a session is related to what it is later. -/
structure Later (s : Subscriber) (start : LiveTable) (x y : Session) : Prop where
  /-- messages that were taken stay taken -/
  taken : x.taken <+: y.taken
  /-- nothing more is told unless a message is taken -/
  quiet : y.taken = x.taken → y.reports s start = x.reports s start
  /-- a worker that does not run takes nothing -/
  stopped : (x.worker s start).isRunning = false → y.signals = x.signals

/-- Where the worker takes nothing, all this is so. -/
theorem later_of_signals_eq (h : y.signals = x.signals) : Later s start x y where
  taken := by rw [taken, taken, h]
  quiet _ := by rw [reports, reports, h]
  stopped _ := h

theorem Later.trans {z : Session} (h : Later s start x y) (h' : Later s start y z) :
    Later s start x z where
  taken := h.taken.trans h'.taken
  quiet hsame := by
    have hback : y.taken <+: x.taken := hsame ▸ h'.taken
    have hfirst : y.taken = x.taken :=
      hback.eq_of_length (Nat.le_antisymm hback.length_le h.taken.length_le)
    rw [h'.quiet (hsame.trans hfirst.symm), h.quiet hfirst]
  stopped hstopped := by
    have hsame := h.stopped hstopped
    have hstopped' : (y.worker s start).isRunning = false := by rwa [worker, hsame]
    exact (h'.stopped hstopped').trans hsame

/-- A worker that stops takes no message and tells nothing. -/
theorem Sound.stop (h : x.Sound s start) (hrun : (x.worker s start).isRunning = true)
    {signal : Signal} (hsignal : signal = .cancel ∨ signal = .closed) :
    Sound s start { x with signals := x.signals ++ [signal] } ∧
      Later s start x { x with signals := x.signals ++ [signal] } := by
  obtain ⟨hnone, htold⟩ := h.told.stop hrun hsignal
  have htaken : taken { x with signals := x.signals ++ [signal] } = x.taken := by
    rw [taken_concat]
    rcases hsignal with rfl | rfl <;> exact List.append_nil _
  have hreports : reports s start { x with signals := x.signals ++ [signal] } =
      x.reports s start := by
    rw [reports_concat, hnone]
    exact List.append_nil _
  refine ⟨⟨?_, ?_⟩, ⟨?_, fun _ => hreports, fun hstopped => ?_⟩⟩
  · rw [htaken]
    exact h.sent
  · rw [htaken, hreports, worker_concat]
    exact htold
  · rw [htaken]
  · cases hrun.symm.trans hstopped

/-- Whatever happens, a session stays sound. -/
theorem Sound.step (h : x.Sound s start) (hstep : Step s start x y) :
    y.Sound s start ∧ Later s start x y := by
  cases hstep with
  | send m hopen hrun =>
    refine ⟨⟨?_, h.told⟩, later_of_signals_eq rfl⟩
    change x.sent ++ [m] = x.taken ++ (x.queue ++ [m])
    rw [h.sent, List.append_assoc]
  | close => exact ⟨⟨h.sent, h.told⟩, later_of_signals_eq rfl⟩
  | cancel => exact ⟨⟨h.sent, h.told⟩, later_of_signals_eq rfl⟩
  | @takeMessage m rest hqueue hrun =>
    refine ⟨⟨?_, ?_⟩, ⟨?_, fun hsame => ?_, fun hstopped => ?_⟩⟩
    · rw [taken_concat, List.append_assoc]
      exact h.sent.trans (congrArg _ hqueue)
    · rw [taken_concat, worker_concat, reports_concat]
      exact h.told.message hrun m
    · rw [taken_concat]
      exact List.prefix_append _ _
    · rw [taken_concat] at hsame
      cases List.append_right_eq_self.mp hsame
    · cases hrun.symm.trans hstopped
  | takeCancel hcancelled hrun => exact h.stop hrun (.inl rfl)
  | takeClosed hqueue hclosed hrun => exact h.stop hrun (.inr rfl)

/-- What is so after one step is so after all that follow. -/
theorem Sound.steps (h : x.Sound s start) (hsteps : Steps s start x y) :
    y.Sound s start ∧ Later s start x y := by
  induction hsteps with
  | refl => exact ⟨h, later_of_signals_eq rfl⟩
  | tail _ hstep ih =>
    obtain ⟨hsound, hlater⟩ := ih
    obtain ⟨hsound', hlater'⟩ := hsound.step hstep
    exact ⟨hsound', hlater.trans hlater'⟩

/-- At any moment of any run a worker has taken a first part of the messages that were sent, and has
told its subscriber about them what `Told` says: a tick for each update with the answer of the table
that the updates before have left, and a failure, as the last thing, just if the message taken last
is one or an update that this table refuses. While no further message is taken, nothing more is
told, whether the worker is asked to stop or finds the channel closed; and once the worker has come
to its end, nothing is told whatever happens. -/
theorem steps_told (hsteps : Steps s start {} x) :
    x.sent = x.taken ++ x.queue ∧
    Told s start (x.worker s start) x.taken (x.reports s start) ∧
    (∀ e, .failure e ∈ x.reports s start ↔ ∃ us m, x.taken = us.map Message.update ++ [m] ∧
      m.fault? (start.applyAll us) = some e) ∧
    ∀ y, Steps s start x y → y.taken = x.taken ∨ (x.worker s start).isRunning = false →
      y.reports s start = x.reports s start := by
  obtain ⟨hsound, -⟩ := sound_empty.steps hsteps
  refine ⟨hsound.sent, hsound.told, fun e => hsound.told.failure_mem_iff, fun y hy hquiet => ?_⟩
  obtain ⟨-, hlater⟩ := hsound.steps hy
  rcases hquiet with hsame | hfinished
  · exact hlater.quiet hsame
  · rw [reports, hlater.stopped hfinished]
    rfl

/-- Keys are moved twice, and the second time the key to be removed is gone. Before the worker takes
the second update it is asked to stop, but it takes the update. -/
theorem steps_told_of_quotes : ∃ x : Session, Steps {} Quotes.table {} x ∧ x.isCancelled = true ∧
    x.taken = [.update Quotes.move, .update Quotes.move] ∧
    .failure (.keyNotFound 5) ∈ x.reports {} Quotes.table ∧
    ∀ y, Steps {} Quotes.table x y → y.reports {} Quotes.table = x.reports {} Quotes.table := by
  have hsteps : Steps {} Quotes.table {} _ := Relation.ReflTransGen.refl
    |>.tail (.send (.update Quotes.move) rfl rfl)
    |>.tail (.send (.update Quotes.move) rfl rfl)
    |>.tail (.takeMessage rfl rfl)
    |>.tail .cancel
    |>.tail (.takeMessage rfl (by decide +kernel))
  obtain ⟨-, -, hfailure, hquiet⟩ := steps_told hsteps
  refine ⟨_, hsteps, rfl, rfl, (hfailure _).mpr ⟨[Quotes.move], .update Quotes.move, rfl, rfl⟩, ?_⟩
  exact fun y hy => hquiet y hy (.inr (by decide +kernel))

end Session

end LiveTables
