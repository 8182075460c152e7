import BoundedBuffer.Ring.Basic

namespace BoundedBuffer.Ring

/-- What a walk promises of the values still to come: bounds, and their exact number. -/
structure SizeHint where
  lower : Nat
  upper : Nat
  length : Nat
deriving DecidableEq

def SizeHint.exact (n : Nat) : SizeHint := ⟨n, n, n⟩

/-- What was seen of a walk: its yields, and its promise before the first step and after each. -/
structure Trail (α : Type u) where
  yields : List (Option α)
  hints : List SizeHint
deriving DecidableEq

def Trail.cons {α : Type u} (hint : SizeHint) (yield : Option α) (t : Trail α) : Trail α :=
  ⟨yield :: t.yields, hint :: t.hints⟩

/-- A walk from head to tail that leaves the ring as it is. -/
structure Walk (σ : Type u) where
  ring : Ring σ
  offset : Nat := 0

variable {σ : Type u} {α : Type v} [Cells σ α]

namespace Walk

def hint (k : Walk σ) : SizeHint :=
  .exact (k.ring.count - k.offset)

def next (k : Walk σ) : Except (Fault α) (Option α × Walk σ) :=
  if k.offset = k.ring.count then .ok (none, k)
  else
    match Cells.read k.ring.cells (k.ring.window.index k.offset) with
    | .ok v => .ok (v, { k with offset := k.offset + 1 })
    | .error e => .error (.outOfRange e)

/-- The trail of the given number of steps, which may go on past the end. -/
def trail : Nat → Walk σ → Except (Fault α) (Trail α)
  | 0, k => .ok ⟨[], [k.hint]⟩
  | n + 1, k =>
    match k.next with
    | .ok (v, next) => (trail n next).map (.cons k.hint v)
    | .error e => .error e

/-- The values up to the first step that yields none, and no more than the given number. -/
def values : Nat → Walk σ → Except (Fault α) (List α)
  | 0, _ => .ok []
  | n + 1, k =>
    match k.next with
    | .ok (some v, next) => (values n next).map (v :: ·)
    | .ok (none, _) => .ok []
    | .error e => .error e

end Walk

def walk (r : Ring σ) (steps : Nat) : Except (Fault α) (Trail α) :=
  Walk.trail steps ⟨r, 0⟩

def values (r : Ring σ) : Except (Fault α) (List α) :=
  Walk.values r.count ⟨r, 0⟩

/-- A step of a drain removes the value that it yields. -/
def drainNext (r : Ring σ) : Effect (Ring σ) α (Except (Fault α) (Option α)) :=
  match r.get with
  | ⟨r, .ok v, lost⟩ => ⟨r, .ok (some v), lost⟩
  | ⟨r, .error .empty, lost⟩ => ⟨r, .ok none, lost⟩
  | ⟨r, .error e, lost⟩ => ⟨r, .error e, lost⟩

def drainTrail : Nat → Ring σ → Effect (Ring σ) α (Except (Fault α) (Trail α))
  | 0, r => ⟨r, .ok ⟨[], [.exact r.count]⟩, []⟩
  | n + 1, r =>
    let hint := SizeHint.exact r.count
    match r.drainNext with
    | ⟨r, .ok v, lost⟩ =>
      let e := drainTrail n r
      ⟨e.after, e.reply.map (.cons hint v), lost ++ e.destroyed⟩
    | ⟨r, .error e, lost⟩ => ⟨r, .error e, lost⟩

/-- A drain of the given number of steps; when it ends, whatever is left is cleared. -/
def drain (r : Ring σ) (steps : Nat) : Effect (Ring σ) α (Except (Fault α) (Trail α)) :=
  let e := drainTrail steps r
  let c := e.after.clear
  ⟨c.after, e.reply, e.destroyed ++ c.destroyed⟩

/-- The steps that reach the end of a walk or a drain, the first that yields none included. -/
def stepsToEnd (r : Ring σ) : Nat := r.count + 1

end BoundedBuffer.Ring
