import BoundedBuffer.Ring.Request

namespace BoundedBuffer

/-- A list that takes no more than `capacity` values, as the plain measure of a ring. -/
structure BoundedList (α : Type u) where
  capacity : Nat
  values : List α := []
deriving DecidableEq

namespace BoundedList

variable {α : Type u}

/-- The trail of a walk over a list: its values by their places, and how many are left. -/
def trail (vs : List α) (steps : Nat) : Ring.Trail α :=
  ⟨(List.range steps).map (vs[·]?), (List.range (steps + 1)).map fun j =>
    { lower := vs.length - j, upper := vs.length - j, length := vs.length - j }⟩

def room (b : BoundedList α) : Nat :=
  b.capacity - b.values.length

def perform (b : BoundedList α) : Ring.Request α → BoundedList α × Ring.Reply α
  | .put v =>
    if b.values.length < b.capacity then ({ b with values := b.values ++ [v] }, .done)
    else (b, .fault (.full v))
  | .get =>
    match b.values with
    | [] => (b, .fault .empty)
    | v :: vs => ({ b with values := vs }, .value v)
  | .peek =>
    match b.values with
    | [] => (b, .fault .empty)
    | v :: _ => (b, .value v)
  | .putAll vs =>
    ({ b with values := b.values ++ vs.take b.room },
      .intake (vs[b.room]?.map .full) (vs.drop (b.room + 1)))
  | .putArray vs =>
    ({ b with values := b.values ++ vs.toList.take b.room },
      match vs[b.room]? with
      | none => .done
      | some v => .fault (.full v))
  | .clear => ({ b with values := [] }, .done)
  | .walk n => (b, .trail (trail b.values n))
  | .values => (b, .values b.values)
  | .drain n => ({ b with values := [] }, .trail (trail b.values n))

def run (b : BoundedList α) : List (Ring.Request α) → BoundedList α × List (Ring.Reply α)
  | [] => (b, [])
  | q :: qs =>
    let (c, reply) := b.perform q
    let (d, rs) := run c qs
    (d, reply :: rs)

end BoundedList

end BoundedBuffer
