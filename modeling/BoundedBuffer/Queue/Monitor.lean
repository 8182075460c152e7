import BoundedBuffer.Queue.Turn

namespace BoundedBuffer.Queue

open Time

/-- The values held, the call that each thread is in, if any, and the clock. The lock is free,
because a turn is taken as one step. -/
structure Monitor (α : Type u) where
  items : List α := []
  threads : List (Option (Flight α))
  clock : Instant := 0
deriving DecidableEq

/-- What may happen next: a call starts, takes its turn and wakes the given waiter, comes to its
deadline or wakes for no reason, or time passes. -/
inductive Move (α : Type u) where
  | start (thread : Nat) (call : Call α)
  | turn (thread : Nat) (waiter : Option Nat)
  | expire (thread : Nat)
  | stray (thread : Nat)
  | pass (span : Nat)
deriving DecidableEq

/-- A turn that was taken, with the call as it stood before. -/
structure Entry (α : Type u) where
  thread : Nat
  flight : Flight α
  turn : Turn α
deriving DecidableEq

variable {α : Type u}

def Outcome.flight? (f : Flight α) : Outcome α → Option (Flight α)
  | .returns _ => none
  | .waits phase => some { f with phase }

def Flight.wake (cause : Cause) (f : Flight α) : Flight α :=
  { f with phase := .woken cause }

namespace Monitor

def idle (threads : Nat) (clock : Instant) : Monitor α :=
  ⟨[], List.replicate threads none, clock⟩

def size (s : Monitor α) : Nat := s.items.length

def isFull (c : Settings) (s : Monitor α) : Bool := c.isFull s.size

def isEmpty (s : Monitor α) : Bool := s.items.isEmpty

def pending (s : Monitor α) : Nat :=
  s.threads.countP Option.isSome

def release (s : Monitor α) : List α := s.items

def flight? (s : Monitor α) (t : Nat) : Option (Flight α) :=
  s.threads[t]?.join

def setFlight (s : Monitor α) (t : Nat) (f : Flight α) : Monitor α :=
  { s with threads := s.threads.set t (some f) }

def parkedOn (condition : Condition) (thread : Option (Flight α)) : Bool :=
  thread.bind Flight.parkedOn? == some condition

def wakeAll (condition : Condition) (threads : List (Option (Flight α))) :
    List (Option (Flight α)) :=
  threads.map fun t => if parkedOn condition t then t.map (.wake .signal) else t

/-- A signal for a single waiter goes to a call parked on its condition, and is lost only if there
is none. -/
def deliver (threads : List (Option (Flight α))) (waiter : Option Nat) :
    Option Signal → Option (List (Option (Flight α)))
  | none => some threads
  | some (.all condition) => some (wakeAll condition threads)
  | some (.one condition) =>
    match waiter with
    | none => if threads.any (parkedOn condition) then none else some threads
    | some w =>
      match threads[w]? with
      | some t => if parkedOn condition t then some (threads.set w (t.map (.wake .signal))) else none
      | none => none

/-- The turn that a thread would take now, unless it is idle or parked. -/
def entry? (c : Settings) (s : Monitor α) (t : Nat) : Option (Entry α) :=
  match s.flight? t with
  | some f => if f.phase = .parked then none else some ⟨t, f, f.turn c s.items s.clock⟩
  | none => none

def after? (s : Monitor α) (e : Entry α) (waiter : Option Nat) : Option (Monitor α) :=
  let threads := s.threads.set e.thread (e.turn.outcome.flight? e.flight)
  (deliver threads waiter e.turn.signal).map fun threads =>
    { s with items := e.turn.items, threads }

def step (c : Settings) (s : Monitor α) : Move α → Option (Monitor α × Option (Entry α))
  | .start t call =>
    match s.threads[t]? with
    | some none => some (s.setFlight t ⟨call, s.clock, .arriving⟩, none)
    | _ => none
  | .turn t waiter =>
    match s.entry? c t with
    | some e => (s.after? e waiter).map fun next => (next, some e)
    | none => none
  | .expire t =>
    match s.flight? t with
    | some f =>
      if f.phase = .parked ∧ f.deadline.expired s.clock then
        some (s.setFlight t (f.wake .expiry), none)
      else none
    | none => none
  | .stray t =>
    match s.flight? t with
    | some f =>
      if f.phase = .parked then
        some (s.setFlight t (f.wake .stray), none)
      else none
    | none => none
  | .pass span => some ({ s with clock := s.clock + span }, none)

/-- A run of moves, each possible in its turn, with the turns taken in it. -/
def run (c : Settings) (s : Monitor α) : List (Move α) → Option (Monitor α × List (Entry α))
  | [] => some (s, [])
  | m :: ms =>
    match s.step c m with
    | none => none
    | some (next, entry) => (run c next ms).map fun (last, log) => (last, entry.toList ++ log)

inductive Reachable (c : Settings) : Monitor α → Prop where
  | idle (threads : Nat) (clock : Instant) : Reachable c (.idle threads clock)
  | step {s next : Monitor α} {entry : Option (Entry α)} (m : Move α) :
      Reachable c s → s.step c m = some (next, entry) → Reachable c next

end Monitor

end BoundedBuffer.Queue
