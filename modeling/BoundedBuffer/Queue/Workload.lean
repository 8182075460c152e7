import BoundedBuffer.Queue.Schedule

namespace BoundedBuffer.Queue

/-- A value on its way through a queue: who put it, and at which place among that producer's. -/
structure Parcel (β : Type u) where
  producer : Nat
  position : Nat
  content : β
deriving DecidableEq

namespace Parcel

variable {β : Type u}

def rank (p : Parcel β) : Nat × Nat :=
  (p.producer, p.position)

def before (a b : Parcel β) : Bool :=
  a.producer < b.producer || (a.producer == b.producer && a.position ≤ b.position)

/-- No two values of one producer are in the wrong order. -/
def inOrder (ps : List (Parcel β)) : Prop :=
  ps.Pairwise fun a b => a.producer = b.producer → a.position < b.position

instance (ps : List (Parcel β)) : Decidable (inOrder ps) := by
  unfold inOrder; infer_instance

end Parcel

/-- A thread's peeks saw, one by one, what its gets removed. -/
def Log.foretold {β : Type u} (thread : Nat) (log : List (Entry (Parcel β))) : Bool :=
  (peekedBy thread log).map Parcel.rank == (receivedBy thread log).map Parcel.rank

/-- Threads at work on a queue, each with the calls that it has yet to make. -/
structure Workload (α : Type u) where
  monitor : Monitor α
  scripts : List (List (Call α))

namespace Workload

variable {α : Type u} {β : Type u}

/-- No call has a deadline and none wakes for no reason, so a thread starts a call or takes a turn.
-/
inductive Move where
  | next (thread : Nat)
  | turn (thread : Nat) (waiter : Option Nat)
deriving DecidableEq

def step (c : Settings) (w : Workload α) : Move → Option (Workload α × Option (Entry α))
  | .next t =>
    match w.scripts[t]? with
    | some (call :: calls) =>
      (w.monitor.step c (.start t call)).map fun (s, e) => (⟨s, w.scripts.set t calls⟩, e)
    | _ => none
  | .turn t waiter =>
    (w.monitor.step c (.turn t waiter)).map fun (s, e) => ({ w with monitor := s }, e)

def finished (w : Workload α) : Bool :=
  w.scripts.all List.isEmpty && w.monitor.threads.all Option.isNone

/-- The share of one of `consumers` in a total; the first ones take what is left over. -/
def share (total consumers i : Nat) : Nat :=
  total / consumers + if i < total % consumers then 1 else 0

def producing (producer : Nat) (contents : List β) : List (Call (Parcel β)) :=
  contents.mapIdx fun position content => .put ⟨producer, position, content⟩

def consuming (peeks : Bool) (n : Nat) : List (Call α) :=
  (List.replicate n (if peeks then [.peek, .get] else [.get])).flatten

/-- Producers put their lists, and consumers share out the gets, with a peek before each or not. The
consumers are the first threads. -/
def ofProducers (producers : List (List β)) (consumers : List Bool) : Workload (Parcel β) :=
  let total := producers.flatten.length
  let consuming i peeks := consuming peeks (share total consumers.length i)
  let scripts := consumers.mapIdx consuming ++ producers.mapIdx producing
  ⟨.idle scripts.length 0, scripts⟩

/-- A run of moves, each possible in its turn, with the turns taken in it. -/
def run (c : Settings) (w : Workload α) : List Move → Option (Workload α × List (Entry α))
  | [] => some (w, [])
  | m :: ms =>
    match w.step c m with
    | none => none
    | some (next, entry) => (run c next ms).map fun (last, log) => (last, entry.toList ++ log)

def idler? (w : Workload α) : Option Nat :=
  (w.monitor.threads.zip w.scripts).findIdx? fun (t, script) => t.isNone && !script.isEmpty

/-- Works for at most the given number of moves, with the turns taken. -/
def workWithin (c : Settings) : Nat → Workload α → Workload α × List (Entry α)
  | 0, w => (w, [])
  | n + 1, w =>
    match w.idler? with
    | some t =>
      match w.step c (.next t) with
      | some (w, e) =>
        let (w, log) := workWithin c n w
        (w, e.toList ++ log)
      | none => (w, [])
    | none =>
      let p : Play α := ⟨w.monitor, []⟩
      match p.restless? c with
      | some t =>
        let p := p.turn c t
        let (w, log) := workWithin c n { w with monitor := p.monitor }
        (w, p.log ++ log)
      | none => (w, [])

/-- Enough moves for all the work: each starts a call, ends one, or leaves one restless call less. -/
def effort (w : Workload α) : Nat :=
  (2 * w.scripts.flatten.length + 1) * (w.scripts.length + 1)

def work (c : Settings) (w : Workload α) : Workload α × List (Entry α) :=
  workWithin c w.effort w

/-- What is seen when the work is over. Values are told by rank if more than one order of arrival is
possible. -/
structure Report (β : Type u) where
  monitor : Monitor (Parcel β)
  received : List (Parcel β)
  inOrder : Bool
  within : Bool
  foretold : Option Bool

def report {β : Type u} (c : Settings) (producers : List (List β)) (consumers : List Bool) :
    Report β :=
  let (w, log) := (ofProducers producers consumers).work c
  let received := Log.received log
  { monitor := w.monitor
    received :=
      if producers.length = 1 ∧ consumers.length = 1 then received
      else received.mergeSort Parcel.before
    inOrder := (List.range consumers.length).all fun i =>
      decide (Parcel.inOrder (Log.receivedBy i log))
    within := Log.within c log
    foretold := if consumers = [true] then some (Log.foretold 0 log) else none }

end Workload

end BoundedBuffer.Queue
