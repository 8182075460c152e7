import BoundedBuffer.Text.Record

namespace BoundedBuffer.Queue

/-- The most values held, none meaning no bound, and the snooze rounds of a blocked call before it
parks. -/
structure Settings where
  bound : Nat := 0
  rounds : Nat := 4
deriving DecidableEq

/-- A bounded queue was asked for, but with no bound. -/
structure ZeroBound where
deriving DecidableEq

def ZeroBound.message (_ : ZeroBound) : String :=
  "max size must be non-zero"

namespace Settings

def default : Settings := {}

def withBound (c : Settings) (n : Nat) : Settings :=
  { c with bound := n }

def withRounds (c : Settings) (n : Nat) : Settings :=
  { c with rounds := n }

def unbounded : Settings :=
  default.withBound 0

def bounded (n : Nat) : Except ZeroBound Settings :=
  if n = 0 then .error ⟨⟩ else .ok (default.withBound n)

def isBounded (c : Settings) : Bool :=
  decide (0 < c.bound)

/-- No further value fits beside the given number of values. -/
@[inline]
def isFull (c : Settings) (length : Nat) : Bool :=
  decide (0 < c.bound) && decide (c.bound ≤ length)

def describe (c : Settings) (length : Nat) : Text.Record :=
  ⟨"Queue", [("max_size", c.bound), ("qsize", length)]⟩

end Settings

end BoundedBuffer.Queue
