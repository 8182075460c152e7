import BoundedBuffer.Queue.Schedule

namespace BoundedBuffer.Queue

open Time

variable {α : Type u}

/-- A queue in use by a main thread, number 0, and helpers, each of which makes one call. -/
structure Session (α : Type u) where
  settings : Settings
  monitor : Monitor α
  helper : Nat := 1

namespace Session

inductive Step (α : Type u) where
  | calls (calls : List (Call α))
  /-- A helper's call that spins has too many snooze rounds ever to park. -/
  | spawn (call : Call α) (spins : Bool)

/-- No reply means that the call is stuck. A refused call tells whether it waited out its span. -/
structure Served (α : Type u) where
  reply : Option (Reply α)
  waited : Option Bool

inductive Spawned (α : Type u) where
  | returned (reply : Reply α)
  | blocked
  | spinning

structure Report (α : Type u) where
  served : List (Served α)
  spawned : Option (Spawned α)
  /-- The helpers' calls that ended, but for one told of in `spawned`. -/
  ended : List (Ended α)
  pending : Nat
  log : List (Entry α)

def begin (settings : Settings) (helpers : Nat) : Session α :=
  ⟨settings, .idle (helpers + 1) 0, 1⟩

def waited (call : Call α) (reply : Option (Reply α)) (elapsed : Nat) : Option Bool :=
  match reply, call.span? with
  | some (.refused _), some d => some (decide (d.nanoseconds ≤ elapsed))
  | _, _ => none

def replyOf (thread : Nat) (log : List (Entry α)) : Option (Reply α) :=
  ((Log.ended log).find? (·.thread == thread)).map Ended.reply

def serve (c : Settings) (p : Play α) (call : Call α) : Play α × Served α :=
  let q := Play.serve c ⟨p.monitor, []⟩ 0 call
  let reply := replyOf 0 q.log
  (⟨q.monitor, p.log ++ q.log⟩, ⟨reply, waited call reply (q.monitor.clock - p.monitor.clock)⟩)

def serveAll (c : Settings) (p : Play α) : List (Call α) → Play α × List (Served α)
  | [] => (p, [])
  | call :: calls =>
    let (p, served) := serve c p call
    let (p, rest) := serveAll c p calls
    (p, served :: rest)

def helping (s : Monitor α) : Nat :=
  Monitor.pending { s with threads := s.threads.drop 1 }

/-- Takes a step and lets the helpers settle. -/
def step (s : Session α) : Step α → Session α × Report α
  | .calls calls =>
    let (p, served) := serveAll s.settings ⟨s.monitor, []⟩ calls
    let p := p.settle s.settings
    let ended := (Log.ended p.log).filter (·.thread != 0)
    ({ s with monitor := p.monitor }, ⟨served, none, ended, helping p.monitor, p.log⟩)
  | .spawn call spins =>
    let t := s.helper
    let p : Play α := ⟨s.monitor, []⟩
    let p := if spins then p.move s.settings (.start t call) else p.launch s.settings t call
    let spawned :=
      if spins then .spinning
      else match replyOf t p.log with
        | some reply => .returned reply
        | none => .blocked
    let told := match spawned with
      | .returned _ => some t
      | _ => none
    let p := p.settle s.settings
    let ended := (Log.ended p.log).filter fun e => e.thread != 0 && some e.thread != told
    ({ s with monitor := p.monitor, helper := t + 1 },
      ⟨[], some spawned, ended, helping p.monitor, p.log⟩)

end Session

end BoundedBuffer.Queue
