import BoundedBuffer.Queue.Monitor

namespace BoundedBuffer.Queue

variable {α : Type u}

def Outcome.reply? : Outcome α → Option (Reply α)
  | .returns reply => some reply
  | .waits _ => none

/-- A call that ended, by the thread that made it. -/
structure Ended (α : Type u) where
  thread : Nat
  call : Call α
  reply : Reply α
deriving DecidableEq

namespace Ended

def got? : Ended α → Option α
  | ⟨_, .ask .get _, .value v⟩ => some v
  | _ => none

def peeked? : Ended α → Option α
  | ⟨_, .ask .peek _, .value v⟩ => some v
  | _ => none

end Ended

def Entry.ended? (e : Entry α) : Option (Ended α) :=
  e.turn.outcome.reply?.map fun reply => ⟨e.thread, e.flight.call, reply⟩

namespace Log

/-- The calls that ended, in the order of their last turns. -/
def ended (log : List (Entry α)) : List (Ended α) :=
  log.filterMap Entry.ended?

def events (log : List (Entry α)) : List Event :=
  log.flatMap fun e => e.turn.events

def destroyed (log : List (Entry α)) : List α :=
  (ended log).flatMap fun e =>
    match e.reply with
    | .cleared vs => vs
    | _ => []

def endedBy (thread : Nat) (log : List (Entry α)) : List (Ended α) :=
  (ended log).filter (·.thread == thread)

def received (log : List (Entry α)) : List α :=
  (ended log).filterMap Ended.got?

def receivedBy (thread : Nat) (log : List (Entry α)) : List α :=
  (endedBy thread log).filterMap Ended.got?

def peekedBy (thread : Nat) (log : List (Entry α)) : List α :=
  (endedBy thread log).filterMap Ended.peeked?

def within (c : Settings) (log : List (Entry α)) : Bool :=
  log.all fun e => c.bound == 0 || decide (e.turn.items.length ≤ c.bound)

end Log

end BoundedBuffer.Queue
