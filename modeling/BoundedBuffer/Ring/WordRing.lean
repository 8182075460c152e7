import BoundedBuffer.Ring.Request

namespace BoundedBuffer

namespace Window

/-- A window kept in 64-bit words. Each operation answers nothing where its arithmetic would leave
the word. -/
structure Word where
  capacity : UInt64
  head : UInt64
  count : UInt64
deriving DecidableEq

def toWord (w : Window) : Word :=
  ⟨w.capacity.toUInt64, w.head.toUInt64, w.count.toUInt64⟩

namespace Word

/-- The most cells that there can be in a row, if its length is a 64-bit word. -/
def maxCapacity : Nat := Nat.pow 2 63 - 1

def add? (a b : UInt64) : Option UInt64 :=
  if a.toNat + b.toNat < UInt64.size then some (a + b) else none

def sub? (a b : UInt64) : Option UInt64 :=
  if b ≤ a then some (a - b) else none

def index? (w : Word) (offset : UInt64) : Option UInt64 := do
  let i ← add? w.head offset
  if w.capacity ≤ i then sub? i w.capacity else some i

def grow? (w : Word) : Option Word := do
  return { w with count := ← add? w.count 1 }

def shrink? (w : Word) : Option Word := do
  return { w with head := ← w.index? 1, count := ← sub? w.count 1 }

def remaining? (w : Word) (offset : UInt64) : Option UInt64 :=
  sub? w.count offset

def isFull (w : Word) : Bool :=
  w.count == w.capacity

def isEmpty (w : Word) : Bool :=
  w.count == 0

def clear (w : Word) : Word :=
  ⟨w.capacity, 0, 0⟩

end Word

end Window

/-- A ring whose window is kept in 64-bit words. -/
structure WordRing (σ : Type u) where
  cells : σ
  window : Window.Word

namespace WordRing

open BoundedBuffer.Ring (Fault SizeHint Trail Request Reply)

variable {σ : Type u} {α : Type v} [Cells σ α]

def allocate (σ : Type u) {α : Type v} [Cells σ α] (capacity : UInt64) : WordRing σ :=
  ⟨Cells.ofLength capacity.toNat, ⟨capacity, 0, 0⟩⟩

def put? : WordRing σ → α → Option (Effect (WordRing σ) α (Except (Fault α) Unit))
  | ⟨cells, w⟩, v =>
    if w.isFull then some ⟨⟨cells, w⟩, .error (.full v), []⟩
    else
      (w.index? w.count).bind fun i =>
        match Cells.write cells i.toNat v with
        | ⟨cells, .ok (), lost⟩ => w.grow?.map fun w => ⟨⟨cells, w⟩, .ok (), lost⟩
        | ⟨cells, .error e, lost⟩ => some ⟨⟨cells, w⟩, .error (.outOfRange e), lost⟩

def get? : WordRing σ → Option (Effect (WordRing σ) α (Except (Fault α) α))
  | ⟨cells, w⟩ =>
    if w.isEmpty then some ⟨⟨cells, w⟩, .error .empty, []⟩
    else
      match Cells.take cells w.head.toNat with
      | ⟨cells, .ok (some v), lost⟩ => w.shrink?.map fun w => ⟨⟨cells, w⟩, .ok v, lost⟩
      | ⟨cells, .ok none, lost⟩ => some ⟨⟨cells, w⟩, .error (.vacant w.head.toNat), lost⟩
      | ⟨cells, .error e, lost⟩ => some ⟨⟨cells, w⟩, .error (.outOfRange e), lost⟩

def peek (r : WordRing σ) : Except (Fault α) α :=
  if r.window.isEmpty then .error .empty
  else
    match Cells.read r.cells r.window.head.toNat with
    | .ok (some v) => .ok v
    | .ok none => .error (.vacant r.window.head.toNat)
    | .error e => .error (.outOfRange e)

def putAll? (r : WordRing σ) :
    List α → Option (Effect (WordRing σ) α (Except (Fault α) Unit × List α))
  | [] => some ⟨r, (.ok (), []), []⟩
  | v :: vs =>
    (r.put? v).bind fun
      | ⟨r, .ok (), lost⟩ =>
        (r.putAll? vs).map fun e => ⟨e.after, e.reply, lost ++ e.destroyed⟩
      | ⟨r, .error e, lost⟩ => some ⟨r, (.error e, vs), lost⟩

def clear : WordRing σ → Effect (WordRing σ) α Unit
  | ⟨cells, w⟩ =>
    let e := Cells.reset cells
    ⟨⟨e.after, w.clear⟩, (), e.destroyed⟩

def hint? (r : WordRing σ) (offset : UInt64) : Option SizeHint :=
  (r.window.remaining? offset).map fun n => .exact n.toNat

/-- A step of a walk, with the offset at which it stands then. -/
def next? (r : WordRing σ) (offset : UInt64) : Option (Except (Fault α) (Option α × UInt64)) :=
  if offset = r.window.count then some (.ok (none, offset))
  else
    (r.window.index? offset).bind fun i =>
      match Cells.read r.cells i.toNat with
      | .ok v => (Window.Word.add? offset 1).map fun next => .ok (v, next)
      | .error e => some (.error (.outOfRange e))

def trail? (r : WordRing σ) : Nat → UInt64 → Option (Except (Fault α) (Trail α))
  | 0, offset => (r.hint? offset).map fun hint => .ok ⟨[], [hint]⟩
  | n + 1, offset =>
    (r.hint? offset).bind fun hint =>
      (r.next? offset).bind fun
        | .ok (v, next) => (r.trail? n next).map (·.map (.cons hint v))
        | .error e => some (.error e)

def values? (r : WordRing σ) : Nat → UInt64 → Option (Except (Fault α) (List α))
  | 0, _ => some (.ok [])
  | n + 1, offset =>
    (r.next? offset).bind fun
      | .ok (some v, next) => (r.values? n next).map (·.map (v :: ·))
      | .ok (none, _) => some (.ok [])
      | .error e => some (.error e)

def drainNext? (r : WordRing σ) : Option (Effect (WordRing σ) α (Except (Fault α) (Option α))) :=
  r.get?.map fun
    | ⟨r, .ok v, lost⟩ => ⟨r, .ok (some v), lost⟩
    | ⟨r, .error .empty, lost⟩ => ⟨r, .ok none, lost⟩
    | ⟨r, .error e, lost⟩ => ⟨r, .error e, lost⟩

def drainTrail? : Nat → WordRing σ → Option (Effect (WordRing σ) α (Except (Fault α) (Trail α)))
  | 0, r => some ⟨r, .ok ⟨[], [.exact r.window.count.toNat]⟩, []⟩
  | n + 1, r =>
    let hint := SizeHint.exact r.window.count.toNat
    r.drainNext?.bind fun
      | ⟨r, .ok v, lost⟩ =>
        (drainTrail? n r).map fun e =>
          ⟨e.after, e.reply.map (.cons hint v), lost ++ e.destroyed⟩
      | ⟨r, .error e, lost⟩ => some ⟨r, .error e, lost⟩

def drain? (r : WordRing σ) (steps : Nat) :
    Option (Effect (WordRing σ) α (Except (Fault α) (Trail α))) :=
  (drainTrail? steps r).map fun e =>
    let c := e.after.clear
    ⟨c.after, e.reply, e.destroyed ++ c.destroyed⟩

def perform? (r : WordRing σ) : Request α → Option (Effect (WordRing σ) α (Reply α))
  | .put v => (r.put? v).map fun e => ⟨e.after, .ofUnit e.reply, e.destroyed⟩
  | .get => r.get?.map fun e => ⟨e.after, .ofValue e.reply, e.destroyed⟩
  | .peek => some ⟨r, .ofValue r.peek, []⟩
  | .putAll vs => (r.putAll? vs).map fun e => ⟨e.after, .ofIntake e.reply, e.destroyed⟩
  | .putArray vs => (r.putAll? vs.toList).map fun e => ⟨e.after, .ofUnit e.reply.1, e.destroyed⟩
  | .clear => let e := r.clear; some ⟨e.after, .done, e.destroyed⟩
  | .walk n => (r.trail? n 0).map fun t => ⟨r, .ofTrail t, []⟩
  | .values => (r.values? r.window.count.toNat 0).map fun vs => ⟨r, .ofValues vs, []⟩
  | .drain n => (r.drain? n).map fun e => ⟨e.after, .ofTrail e.reply, e.destroyed⟩

def run? (r : WordRing σ) : List (Request α) → Option (WordRing σ × List (Reply α × List α))
  | [] => some (r, [])
  | q :: qs =>
    (r.perform? q).bind fun e =>
      (run? e.after qs).map fun (t, rs) => (t, (e.reply, e.destroyed) :: rs)

end WordRing

end BoundedBuffer
