import BoundedBuffer.Queue.Log

namespace BoundedBuffer.Queue

open Time

variable {α : Type u}

/-- The call has yet to look, or is between snooze rounds and no longer blocked. -/
def Flight.restless (c : Settings) (items : List α) (f : Flight α) : Bool :=
  match f.phase with
  | .arriving | .woken _ => true
  | .snoozing _ => !f.blocked c items
  | .parked => false

/-- A monitor with the turns taken so far, always by the first thread that fits. -/
structure Play (α : Type u) where
  monitor : Monitor α
  log : List (Entry α) := []

namespace Play

def move (c : Settings) (p : Play α) (m : Move α) : Play α :=
  match p.monitor.step c m with
  | some (next, entry) => ⟨next, p.log ++ entry.toList⟩
  | none => p

/-- The first call parked on the condition of a signal for one. -/
def waiter? (threads : List (Option (Flight α))) : Option Signal → Option Nat
  | some (.one condition) => threads.findIdx? (Monitor.parkedOn condition)
  | _ => none

def turn (c : Settings) (p : Play α) (t : Nat) : Play α :=
  match p.monitor.entry? c t with
  | some e =>
    match p.monitor.after? e (waiter? p.monitor.threads e.turn.signal) with
    | some next => ⟨next, p.log ++ [e]⟩
    | none => p
  | none => p

def restless? (c : Settings) (p : Play α) : Option Nat :=
  p.monitor.threads.findIdx? fun t => t.any (Flight.restless c p.monitor.items)

/-- Enough turns to settle: a turn ends a call, or leaves one restless call less. -/
def unrest (s : Monitor α) : Nat :=
  (s.pending + 1) * (s.threads.length + 1)

def settleWithin (c : Settings) : Nat → Play α → Play α
  | 0, p => p
  | n + 1, p =>
    match p.restless? c with
    | some t => settleWithin c n (p.turn c t)
    | none => p

/-- Lets calls go on until none would get anywhere. -/
def settle (c : Settings) (p : Play α) : Play α :=
  settleWithin c (unrest p.monitor) p

/-- Lets time pass to the deadline of a call, and the call give up. -/
def lapse (c : Settings) (p : Play α) (t : Nat) : Play α :=
  match p.monitor.flight? t with
  | some f =>
    match f.deadline with
    | .due i =>
      let p := p.move c (.pass (i - p.monitor.clock))
      (p.move c (.expire t)).turn c t
    | .poll | .never => p
  | none => p

/-- Makes a call and stays with it: while it is blocked the others go on, and then time. -/
def serve (c : Settings) (p : Play α) (t : Nat) (call : Call α) : Play α :=
  let p := (p.move c (.start t call)).turn c t
  match p.monitor.flight? t with
  | none => p
  | some _ => (p.settle c).lapse c t

/-- Passes over all snooze rounds of a call but the last. While it is left alone it stays blocked,
so they would leave no trace (`Play.Follows.skipRounds`). -/
def skipRounds (p : Play α) (t : Nat) : Play α :=
  match p.monitor.flight? t with
  | some ⟨call, start, .snoozing _⟩ =>
    { p with monitor := p.monitor.setFlight t ⟨call, start, .snoozing 0⟩ }
  | _ => p

/-- Makes a call and leaves it when it returns or parks. -/
def launch (c : Settings) (p : Play α) (t : Nat) (call : Call α) : Play α :=
  let p := (p.move c (.start t call)).turn c t
  match p.monitor.flight? t with
  | some ⟨_, _, .snoozing _⟩ => (p.skipRounds t).turn c t
  | _ => p

end Play

end BoundedBuffer.Queue
