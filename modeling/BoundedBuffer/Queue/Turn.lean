import BoundedBuffer.Queue.Call
import BoundedBuffer.Queue.Settings

namespace BoundedBuffer.Queue

open Time

/-- What a parked call waits for. -/
inductive Condition where
  | notEmpty
  | notFull
deriving DecidableEq

/-- A wake-up for one of the calls parked on a condition, or for all of them. -/
inductive Signal where
  | one (condition : Condition)
  | all (condition : Condition)
deriving DecidableEq

/-- What ended the sleep of a parked call. -/
inductive Cause where
  | signal
  | expiry
  | stray
deriving DecidableEq

/-- A call that does not hold the lock has not looked yet, is in a snooze round with so many to
follow, is parked, or was woken. -/
inductive Phase where
  | arriving
  | snoozing (more : Nat)
  | parked
  | woken (cause : Cause)
deriving DecidableEq

/-- A call from its start to its return. -/
structure Flight (α : Type u) where
  call : Call α
  start : Instant
  phase : Phase
deriving DecidableEq

/-- How a turn leaves the call: returned, or waiting in a phase. -/
inductive Outcome (α : Type u) where
  | returns (reply : Reply α)
  | waits (phase : Phase)
deriving DecidableEq

/-- What a call does from taking the lock to letting it go. -/
structure Turn (α : Type u) where
  items : List α
  outcome : Outcome α
  signal : Option Signal := none
  events : List Event := []
deriving DecidableEq

variable {α : Type u}

namespace Wish

def condition : Wish α → Condition
  | .put _ => .notFull
  | .get | .peek => .notEmpty

def blocked (c : Settings) (items : List α) : Wish α → Bool
  | .put _ => c.isFull items.length
  | .get | .peek => items.isEmpty

/-- The wish is served, or turned away after a wait in vain. A peek that waited hands on the signal,
which may have been meant for a get. -/
def finish (waited ready : Bool) (items : List α) : Wish α → Turn α
  | .put v =>
    if ready then ⟨items ++ [v], .returns .accepted, some (.one .notEmpty), []⟩
    else ⟨items, .returns (.refused (.full v)), none, []⟩
  | .get =>
    match items with
    | [] => ⟨[], .returns (.refused .empty), none, []⟩
    | v :: rest => ⟨rest, .returns (.value v), some (.one .notFull), []⟩
  | .peek =>
    match items with
    | [] => ⟨[], .returns (.refused .empty), none, []⟩
    | v :: rest =>
      ⟨v :: rest, .returns (.value v), if waited then some (.one .notEmpty) else none, []⟩

end Wish

/-- What a waiting call makes of a look at the queue. -/
inductive Look where
  | ready
  | late
  | waiting (phase : Phase)
deriving DecidableEq

namespace Phase

/-- The phase of a blocked call with so many snooze rounds before it. -/
def rest : Nat → Phase
  | 0 => .parked
  | n + 1 => .snoozing n

/-- The condition counts before the deadline, and the first look does not ask for the time. -/
def look (rounds : Nat) (deadline : Deadline) (now : Instant) (blocked : Bool) (p : Phase) : Look :=
  if !blocked then .ready
  else
    match p with
    | .arriving => if deadline = .poll then .late else .waiting (rest rounds)
    | .snoozing more => if deadline.expired now then .late else .waiting (rest more)
    | .parked | .woken _ => if deadline.expired now then .late else .waiting .parked

/-- A call reports when it goes to park for the first time, and when it gives up after that. -/
def events (verb : Verb) (length bound : Nat) : Phase → Look → List Event
  | .arriving, .waiting .parked | .snoozing _, .waiting .parked => [.parking verb length bound]
  | .woken _, .late => [.deadlinePassed verb length]
  | _, _ => []

end Phase

namespace Turn

def wait (items : List α) (phase : Phase) : Turn α :=
  ⟨items, .waits phase, none, []⟩

def after (events : List Event) (t : Turn α) : Turn α :=
  { t with events := events ++ t.events }

end Turn

namespace Flight

def deadline (f : Flight α) : Deadline :=
  match f.call with
  | .ask _ patience => patience.deadline f.start
  | .clear | .drain | .size => .poll

def blocked (c : Settings) (items : List α) (f : Flight α) : Bool :=
  match f.call with
  | .ask wish _ => wish.blocked c items
  | .clear | .drain | .size => false

/-- A call that waits over and over starts a new wait when it is blocked at the end of one. -/
def askTurn (c : Settings) (f : Flight α) (wish : Wish α) (patience : Patience)
    (items : List α) (now : Instant) : Turn α :=
  let blocked := wish.blocked c items
  let look := f.phase.look c.rounds (patience.deadline f.start) now blocked
  let events (p : Phase) (l : Look) := p.events wish.verb items.length c.bound l
  let waited := f.phase != .arriving
  match look with
  | .ready => wish.finish waited true items
  | .waiting phase => (Turn.wait items phase).after (events f.phase look)
  | .late =>
    match patience with
    | .endless =>
      let phase := .rest c.rounds
      (Turn.wait items phase).after (events f.phase look ++ events .arriving (.waiting phase))
    | _ => (wish.finish waited false items).after (events f.phase look)

def turn (c : Settings) (f : Flight α) (items : List α) (now : Instant) : Turn α :=
  match f.call with
  | .ask wish patience => f.askTurn c wish patience items now
  | .clear => ⟨[], .returns (.cleared items), some (.all .notFull), [.cleared items.length]⟩
  | .drain => ⟨[], .returns (.drained items), some (.all .notFull), []⟩
  | .size => ⟨items, .returns (.size items.length), none, []⟩

def condition? (f : Flight α) : Option Condition :=
  match f.call with
  | .ask wish _ => some wish.condition
  | .clear | .drain | .size => none

/-- The condition on which the call is parked, if it is. -/
def parkedOn? (f : Flight α) : Option Condition :=
  if f.phase = .parked then f.condition? else none

end Flight

/-- What a call meets at a turn: the values, the time, and what woke it, if it was parked. -/
structure Glimpse (α : Type u) where
  items : List α
  now : Instant
  cause : Cause
deriving DecidableEq

def Phase.roused (cause : Cause) : Phase → Phase
  | .parked => .woken cause
  | p => p

/-- The turns of one call against what it meets, up to its return. -/
def Flight.turns (c : Settings) (f : Flight α) : List (Glimpse α) → List (Turn α)
  | [] => []
  | g :: gs =>
    let t := { f with phase := f.phase.roused g.cause }.turn c g.items g.now
    match t.outcome with
    | .returns _ => [t]
    | .waits phase => t :: turns c { f with phase } gs

def Call.turns (c : Settings) (start : Instant) (call : Call α) (gs : List (Glimpse α)) :
    List (Turn α) :=
  Flight.turns c ⟨call, start, .arriving⟩ gs

end BoundedBuffer.Queue
