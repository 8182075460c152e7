import BoundedBuffer.Queue.Turn

namespace BoundedBuffer.Queue

open Time

/-- How a call lets go of the lock before it returns: for a snooze round, or to sleep for a signal,
until a time if there is one. -/
inductive Pause where
  | snooze (more : Nat)
  | sleep (condition : Condition) (until? : Option Instant)
deriving DecidableEq

inductive Ending (β : Type u) where
  | pauses (pause : Pause)
  | returns (result : β)
deriving DecidableEq

/-- What a call does from taking the lock to letting it go. -/
structure Stretch (α : Type u) (β : Type v) where
  items : List α
  signals : List Signal
  events : List Event
  ending : Ending β
deriving DecidableEq

/-- All stretches of a call, and how many waits it began in them. -/
structure Course (α : Type u) (β : Type v) where
  stretches : List (Stretch α β)
  waits : Nat := 0
deriving DecidableEq

/-- A call under the lock: what it finds, what it has done, and what it will meet each time it takes
the lock again. -/
structure Work (α : Type) where
  items : List α
  now : Instant
  signals : List Signal := []
  events : List Event := []
  past : List (Stretch α Empty) := []
  ahead : List (Glimpse α)
  waits : Nat := 0

variable {α β : Type}

def Stretch.ofPause (s : Stretch α Empty) : Stretch α β :=
  match s with
  | ⟨items, signals, events, .pauses p⟩ => ⟨items, signals, events, .pauses p⟩

namespace Work

def paused (w : Work α) (p : Pause) : Work α :=
  { w with past := w.past ++ [⟨w.items, w.signals, w.events, .pauses p⟩] }

def resumed (w : Work α) (g : Glimpse α) (gs : List (Glimpse α)) : Work α :=
  { items := g.items, now := g.now, past := w.past, ahead := gs, waits := w.waits }

def course (w : Work α) (rest : List (Stretch α β)) : Course α β :=
  ⟨w.past.map .ofPause ++ rest, w.waits⟩

end Work

/-- Code that runs under the lock and may let go of it on its way. -/
abbrev Body (α : Type) : Type → Type := OptionT (StateT (Work α) Option)

namespace Body

/-- There is no last stretch yet if there is nothing more to meet. -/
def after (b : Body α β) (w : Work α) : Option (Course α β) :=
  (b.run.run w).map fun
    | (some v, w) => w.course [⟨w.items, w.signals, w.events, .returns v⟩]
    | (none, w) => w.course []

def course (b : Body α β) : List (Glimpse α) → Option (Course α β)
  | [] => some ⟨[], 0⟩
  | g :: gs => b.after { items := g.items, now := g.now, ahead := gs }

def items : Body α (List α) := do
  return (← get).items

def setItems (xs : List α) : Body α Unit :=
  modify fun w => { w with items := xs }

def signal (s : Signal) : Body α Unit :=
  modify fun w => { w with signals := w.signals ++ [s] }

def report (e : Event) : Body α Unit :=
  modify fun w => { w with events := w.events ++ [e] }

def countWait : Body α Unit :=
  modify fun w => { w with waits := w.waits + 1 }

def expired (deadline : Deadline) : Body α Bool := do
  return deadline.expired (← get).now

/-- Lets go of the lock and takes it again, if it is ever to be had. -/
def pause (p : Pause) : Body α Unit := do
  let w ← get
  set (w.paused p)
  match w.ahead with
  | [] => failure
  | g :: gs => set ((w.paused p).resumed g gs)

def loopWithin (step : Body α (Option β)) : Nat → Body α β
  | 0 => OptionT.mk fun _ => none
  | n + 1 => do
    if let some v ← step then return v
    loopWithin step n

/-- The same over and over up to a result. It is given up when it comes round more often than the
lock can be let go of, as it would never end. -/
def loop (step : Body α (Option β)) : Body α β := do
  loopWithin step ((← get).ahead.length + 2)

def snooze (deadline : Deadline) (blocked : List α → Bool) : Nat → Body α (Option Bool)
  | 0 => return none
  | n + 1 => do
    pause (.snooze n)
    if !blocked (← items) then return some true
    if ← expired deadline then return some false
    snooze deadline blocked n

def sleep (condition : Condition) (deadline : Deadline) (verb : Verb) (blocked : List α → Bool) :
    Body α (Option Bool) := do
  pause (.sleep condition deadline.instant?)
  if !blocked (← items) then return some true
  if ← expired deadline then
    report (.deadlinePassed verb (← items).length)
    return some false
  return none

/-- Waits while it is blocked. Tells whether it no longer is, or else the deadline has passed. -/
def wait (c : Settings) (condition : Condition) (deadline : Deadline) (verb : Verb)
    (blocked : List α → Bool) : Body α Bool := do
  countWait
  if !blocked (← items) then return true
  if deadline = .poll then return false
  if let some ready ← snooze deadline blocked c.rounds then return ready
  report (.parking verb (← items).length c.bound)
  loop (sleep condition deadline verb blocked)

def push (v : α) : Body α Unit := do
  setItems ((← items) ++ [v])
  signal (.one .notEmpty)

def pop : Body α (Option α) := do
  match ← items with
  | [] => return none
  | v :: rest =>
    setItems rest
    signal (.one .notFull)
    return some v

def putRound (c : Settings) (v : α) : Body α (Option Unit) := do
  if c.isFull (← items).length then
    let _ ← wait c .notFull .never .put fun xs => c.isFull xs.length
    return none
  push v
  return some ()

def put (c : Settings) (v : α) : Body α Unit :=
  loop (putRound c v)

def putUntil (c : Settings) (v : α) (deadline : Deadline) :
    Body α (Except (Refusal α) Unit) := do
  let ready ← wait c .notFull deadline .put fun xs => c.isFull xs.length
  if !ready then return .error (.full v)
  push v
  return .ok ()

def putNow (c : Settings) (v : α) : Body α (Except (Refusal α) Unit) :=
  putUntil c v .poll

def putWithin (c : Settings) (start : Instant) (v : α) (d : Span) :
    Body α (Except (Refusal α) Unit) :=
  putUntil c v (.after start (.within d))

def putUnder (c : Settings) (start : Instant) (v : α) (block : Bool) (limit : Limit) :
    Body α (Except (Refusal α) Unit) :=
  putUntil c v (if block then .after start limit else .poll)

def getRound (c : Settings) : Body α (Option α) := do
  if let some v ← pop then return some v
  let _ ← wait c .notEmpty .never .get List.isEmpty
  return none

def get (c : Settings) : Body α α :=
  loop (getRound c)

def takeFront : Body α (Except (Refusal α) α) := do
  match ← pop with
  | some v => return .ok v
  | none => return .error .empty

/-- The verdict of the wait is not asked: there is a value or there is none. -/
def getUntil (c : Settings) (deadline : Deadline) : Body α (Except (Refusal α) α) := do
  let _ ← wait c .notEmpty deadline .get List.isEmpty
  takeFront

def getNow (c : Settings) : Body α (Except (Refusal α) α) :=
  getUntil c .poll

def getWithin (c : Settings) (start : Instant) (d : Span) : Body α (Except (Refusal α) α) :=
  getUntil c (.after start (.within d))

def getUnder (c : Settings) (start : Instant) (limit : Limit) : Body α (Except (Refusal α) α) :=
  getUntil c (.after start limit)

/-- A peek that waited may have used up the signal meant for a get. -/
def handOn (waited : Bool) : Body α Unit := do
  if waited then signal (.one .notEmpty)

def peekRound (c : Settings) (waited : Bool) : Body α (Option α) := do
  if let some v := (← items).head? then
    handOn waited
    return some v
  let _ ← wait c .notEmpty .never .peek List.isEmpty
  return none

def peek (c : Settings) : Body α α := do
  let waited := (← items).isEmpty
  loop (peekRound c waited)

def seeFront (waited : Bool) : Body α (Except (Refusal α) α) := do
  match (← items).head? with
  | some v =>
    handOn waited
    return .ok v
  | none => return .error .empty

def peekUntil (c : Settings) (deadline : Deadline) : Body α (Except (Refusal α) α) := do
  let waited := (← items).isEmpty
  let _ ← wait c .notEmpty deadline .peek List.isEmpty
  seeFront waited

def peekNow (c : Settings) : Body α (Except (Refusal α) α) :=
  peekUntil c .poll

def peekWithin (c : Settings) (start : Instant) (d : Span) : Body α (Except (Refusal α) α) :=
  peekUntil c (.after start (.within d))

def peekUnder (c : Settings) (start : Instant) (limit : Limit) : Body α (Except (Refusal α) α) :=
  peekUntil c (.after start limit)

end Body

namespace Reply

def ofPut : Except (Refusal α) Unit → Reply α
  | .ok () => .accepted
  | .error refusal => .refused refusal

def ofTaken : Except (Refusal α) α → Reply α
  | .ok v => .value v
  | .error refusal => .refused refusal

end Reply

/-- A form of a call, and what is done in it if it starts at a given time. -/
structure Form (α : Type) where
  call : Call α
  body : Settings → Instant → Body α (Reply α)

namespace Form

def put (v : α) : Form α := ⟨.put v, fun c _ => (fun _ => .accepted) <$> Body.put c v⟩

def putNow (v : α) : Form α := ⟨.putNow v, fun c _ => .ofPut <$> Body.putNow c v⟩

def putWithin (v : α) (d : Span) : Form α :=
  ⟨.putWithin v d, fun c start => .ofPut <$> Body.putWithin c start v d⟩

def putUnder (v : α) (block : Bool) (limit : Limit) : Form α :=
  ⟨.putUnder v block limit, fun c start => .ofPut <$> Body.putUnder c start v block limit⟩

def get : Form α := ⟨.get, fun c _ => .value <$> Body.get c⟩

def getNow : Form α := ⟨.getNow, fun c _ => .ofTaken <$> Body.getNow c⟩

def getWithin (d : Span) : Form α :=
  ⟨.getWithin d, fun c start => .ofTaken <$> Body.getWithin c start d⟩

def getUnder (limit : Limit) : Form α :=
  ⟨.getUnder limit, fun c start => .ofTaken <$> Body.getUnder c start limit⟩

def peek : Form α := ⟨.peek, fun c _ => .value <$> Body.peek c⟩

def peekNow : Form α := ⟨.peekNow, fun c _ => .ofTaken <$> Body.peekNow c⟩

def peekWithin (d : Span) : Form α :=
  ⟨.peekWithin d, fun c start => .ofTaken <$> Body.peekWithin c start d⟩

def peekUnder (limit : Limit) : Form α :=
  ⟨.peekUnder limit, fun c start => .ofTaken <$> Body.peekUnder c start limit⟩

end Form

end BoundedBuffer.Queue
