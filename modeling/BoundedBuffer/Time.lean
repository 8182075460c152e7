namespace BoundedBuffer.Time

structure Span where
  nanoseconds : Nat
deriving DecidableEq

namespace Span

def perSecond : Nat := 1000000000

def ofParts (seconds nanoseconds : Nat) : Span :=
  ⟨seconds * perSecond + nanoseconds⟩

def ofMillis (n : Nat) : Span :=
  ⟨n * 1000000⟩

def seconds (d : Span) : Nat :=
  d.nanoseconds / perSecond

def fraction (d : Span) : Nat :=
  d.nanoseconds % perSecond

end Span

/-- How long a call is willing to wait. -/
inductive Limit where
  | forever
  | within (span : Span)
deriving DecidableEq

namespace Limit

instance : Inhabited Limit := ⟨.forever⟩

def nonBlocking : Limit := .within ⟨0⟩

/-- A negative number of milliseconds sets no limit. -/
def ofMillis : Int → Limit
  | .ofNat n => .within (.ofMillis n)
  | .negSucc _ => .forever

def ofOption : Option Span → Limit
  | some d => .within d
  | none => .forever

end Limit

/-- A reading of the clock, in nanoseconds. -/
abbrev Instant := Nat

/-- The last reading that the clock can give: its seconds are signed 64-bit numbers. -/
def horizon : Instant :=
  (Nat.pow 2 63 - 1) * Span.perSecond + (Span.perSecond - 1)

/-- When a call stops waiting: it does not wait at all, it waits for ever, or until an instant. -/
inductive Deadline where
  | poll
  | never
  | due (instant : Instant)
deriving DecidableEq

namespace Deadline

/-- The deadline of a call that starts now. One past the horizon never comes. -/
def after (now : Instant) : Limit → Deadline
  | .forever => .never
  | .within d =>
    if d.nanoseconds = 0 then .poll
    else if now + d.nanoseconds ≤ horizon then .due (now + d.nanoseconds)
    else .never

def expired (now : Instant) : Deadline → Bool
  | .poll => true
  | .never => false
  | .due i => decide (i ≤ now)

/-- The instant at which a sleep for this deadline ends by itself. -/
def instant? : Deadline → Option Instant
  | .due i => some i
  | .poll | .never => none

end Deadline

end BoundedBuffer.Time
