import BoundedBuffer.Time

namespace BoundedBuffer.Queue

open Time

inductive Verb where
  | put
  | get
  | peek
deriving DecidableEq

/-- What a call wants of the queue when it may have to wait for it. -/
inductive Wish (α : Type u) where
  | put (value : α)
  | get
  | peek
deriving DecidableEq

def Wish.verb {α : Type u} : Wish α → Verb
  | .put _ => .put
  | .get => .get
  | .peek => .peek

/-- How a call waits: over and over until it is served, not at all, or once and within a limit. -/
inductive Patience where
  | endless
  | none
  | limited (limit : Limit)
deriving DecidableEq

def Patience.deadline (start : Instant) : Patience → Deadline
  | .endless => .never
  | .none => .poll
  | .limited limit => .after start limit

/-- What a thread may ask of a queue. Only an `ask` may wait, and `size` changes nothing. -/
inductive Call (α : Type u) where
  | ask (wish : Wish α) (patience : Patience)
  | clear
  | drain
  | size
deriving DecidableEq

namespace Call

variable {α : Type u}

def put (v : α) : Call α := .ask (.put v) .endless

def putNow (v : α) : Call α := .ask (.put v) .none

def putWithin (v : α) (d : Span) : Call α := .ask (.put v) (.limited (.within d))

/-- A put that does not block has no use for its limit. -/
def putUnder (v : α) (block : Bool) (limit : Limit) : Call α :=
  .ask (.put v) (if block then .limited limit else .none)

def get : Call α := .ask .get .endless

def getNow : Call α := .ask .get .none

def getWithin (d : Span) : Call α := .ask .get (.limited (.within d))

def getUnder (limit : Limit) : Call α := .ask .get (.limited limit)

def peek : Call α := .ask .peek .endless

def peekNow : Call α := .ask .peek .none

def peekWithin (d : Span) : Call α := .ask .peek (.limited (.within d))

def peekUnder (limit : Limit) : Call α := .ask .peek (.limited limit)

/-- The finite span, if any, for which the call may wait. -/
def span? : Call α → Option Span
  | .ask _ (.limited (.within d)) => if d.nanoseconds = 0 then none else some d
  | _ => none

end Call

/-- Why a queue turned a call away. A full queue hands the value back. -/
inductive Refusal (α : Type u) where
  | full (value : α)
  | empty
deriving BEq, DecidableEq

def Refusal.message {α : Type u} : Refusal α → String
  | .full _ => "queue is full"
  | .empty => "queue is empty"

/-- How a call ends. A clear tells which values it destroyed. -/
inductive Reply (α : Type u) where
  | accepted
  | value (value : α)
  | refused (refusal : Refusal α)
  | cleared (values : List α)
  | drained (values : List α)
  | size (length : Nat)
deriving DecidableEq

/-- What a queue reports of the calls made on it. -/
inductive Event where
  | parking (verb : Verb) (length bound : Nat)
  | deadlinePassed (verb : Verb) (length : Nat)
  | cleared (dropped : Nat)
deriving DecidableEq

def Event.message : Event → String
  | .parking .. => "parking"
  | .deadlinePassed .. => "deadline passed"
  | .cleared _ => "queue cleared"

end BoundedBuffer.Queue
