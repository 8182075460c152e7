import BoundedBuffer.Cells.Basic
import BoundedBuffer.Text.Record

namespace BoundedBuffer

/-- Which of `capacity` cells are live: `count` of them, from `head` on and round the end. -/
structure Window where
  capacity : Nat
  head : Nat := 0
  count : Nat := 0
deriving DecidableEq

namespace Window

/-- The cell of the value `offset` places behind the head. The sum passes the end at most once,
so one subtraction brings it back. -/
def index (w : Window) (offset : Nat) : Nat :=
  if w.capacity ≤ w.head + offset then w.head + offset - w.capacity else w.head + offset

def isFull (w : Window) : Bool :=
  w.count == w.capacity

def isEmpty (w : Window) : Bool :=
  w.count == 0

def grow (w : Window) : Window :=
  { w with count := w.count + 1 }

def shrink (w : Window) : Window :=
  { w with head := w.index 1, count := w.count - 1 }

def clear (w : Window) : Window :=
  ⟨w.capacity, 0, 0⟩

end Window

/-- A first-in first-out buffer on a row of cells, of which the window tells the live ones. -/
structure Ring (σ : Type u) where
  cells : σ
  window : Window

namespace Ring

structure ZeroCapacity where
deriving DecidableEq

def ZeroCapacity.message (_ : ZeroCapacity) : String :=
  "capacity must be non-zero"

/-- Why a ring did not do what it was asked. The last two name a ring whose window does not fit its
cells. -/
inductive Fault (α : Type u) where
  | full (value : α)
  | empty
  | outOfRange (fault : OutOfRange)
  | vacant (index : Nat)
deriving BEq, DecidableEq

def Fault.message {α : Type u} : Fault α → String
  | .full _ => "fifo is full"
  | .empty => "fifo is empty"
  | .outOfRange e => e.message
  | .vacant i => s!"live slot {i} holds no value"

variable {σ : Type u} {α : Type v} [Cells σ α]

def defaultCapacity : Nat := 16

def allocate (σ : Type u) {α : Type v} [Cells σ α] (capacity : Nat) : Ring σ :=
  ⟨Cells.ofLength capacity, ⟨capacity, 0, 0⟩⟩

def ofCapacity (σ : Type u) {α : Type v} [Cells σ α] (capacity : Nat) :
    Except ZeroCapacity (Ring σ) :=
  if capacity = 0 then .error ⟨⟩ else .ok (allocate σ capacity)

def count (r : Ring σ) : Nat := r.window.count

def capacity (r : Ring σ) : Nat := r.window.capacity

def isFull (r : Ring σ) : Bool := r.window.isFull

def isEmpty (r : Ring σ) : Bool := r.window.isEmpty

/-- Appends at the tail. A full ring is left as it is and hands the value back. -/
def put : Ring σ → α → Effect (Ring σ) α (Except (Fault α) Unit)
  | ⟨cells, w⟩, v =>
    if w.isFull then ⟨⟨cells, w⟩, .error (.full v), []⟩
    else
      match Cells.write cells (w.index w.count) v with
      | ⟨cells, .ok (), lost⟩ => ⟨⟨cells, w.grow⟩, .ok (), lost⟩
      | ⟨cells, .error e, lost⟩ => ⟨⟨cells, w⟩, .error (.outOfRange e), lost⟩

def get : Ring σ → Effect (Ring σ) α (Except (Fault α) α)
  | ⟨cells, w⟩ =>
    if w.isEmpty then ⟨⟨cells, w⟩, .error .empty, []⟩
    else
      match Cells.take cells w.head with
      | ⟨cells, .ok (some v), lost⟩ => ⟨⟨cells, w.shrink⟩, .ok v, lost⟩
      | ⟨cells, .ok none, lost⟩ => ⟨⟨cells, w⟩, .error (.vacant w.head), lost⟩
      | ⟨cells, .error e, lost⟩ => ⟨⟨cells, w⟩, .error (.outOfRange e), lost⟩

/-- Reads the value at the head and leaves it there. -/
def peek (r : Ring σ) : Except (Fault α) α :=
  if r.isEmpty then .error .empty
  else
    match Cells.read r.cells r.window.head with
    | .ok (some v) => .ok v
    | .ok none => .error (.vacant r.window.head)
    | .error e => .error (.outOfRange e)

/-- Appends values up to the first that is not accepted, and returns those behind it unread. -/
def putAll (r : Ring σ) : List α → Effect (Ring σ) α (Except (Fault α) Unit × List α)
  | [] => ⟨r, (.ok (), []), []⟩
  | v :: vs =>
    match r.put v with
    | ⟨r, .ok (), lost⟩ =>
      let e := r.putAll vs
      ⟨e.after, e.reply, lost ++ e.destroyed⟩
    | ⟨r, .error e, lost⟩ => ⟨r, (.error e, vs), lost⟩

def putArray (r : Ring σ) (vs : Array α) : Effect (Ring σ) α (Except (Fault α) Unit) :=
  let e := r.putAll vs.toList
  ⟨e.after, e.reply.1, e.destroyed⟩

/-- Empties the ring; what becomes of the values is up to its cells. -/
def clear : Ring σ → Effect (Ring σ) α Unit
  | ⟨cells, w⟩ =>
    let e := Cells.reset cells
    ⟨⟨e.after, w.clear⟩, (), e.destroyed⟩

def release (r : Ring σ) : List α :=
  Cells.release r.cells

def describe (r : Ring σ) : Text.Record :=
  ⟨"Fifo", [("capacity", r.capacity), ("len", r.count)]⟩

end Ring

end BoundedBuffer
