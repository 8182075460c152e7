import BoundedBuffer.Queue.Turn

namespace BoundedBuffer.Queue

variable {α : Type u}

/-- What a call may do to a bounded queue that nobody else uses. Only one that is not patient
without end may be refused. -/
inductive Sequential (c : Settings) : List α → Call α → Reply α → List α → Prop where
  | put {xs : List α} {v : α} {p : Patience} (room : c.bound = 0 ∨ xs.length < c.bound) :
      Sequential c xs (.ask (.put v) p) .accepted (xs ++ [v])
  | get {xs : List α} {v : α} {p : Patience} :
      Sequential c (v :: xs) (.ask .get p) (.value v) xs
  | peek {xs : List α} {v : α} {p : Patience} :
      Sequential c (v :: xs) (.ask .peek p) (.value v) (v :: xs)
  | full {xs : List α} {v : α} {p : Patience} (patience : p ≠ .endless)
      (bounded : 0 < c.bound) (full : xs.length = c.bound) :
      Sequential c xs (.ask (.put v) p) (.refused (.full v)) xs
  | getEmpty {p : Patience} (patience : p ≠ .endless) :
      Sequential c [] (.ask .get p) (.refused .empty) []
  | peekEmpty {p : Patience} (patience : p ≠ .endless) :
      Sequential c [] (.ask .peek p) (.refused .empty) []
  | clear {xs : List α} : Sequential c xs .clear (.cleared xs) []
  | drain {xs : List α} : Sequential c xs .drain (.drained xs) []
  | size {xs : List α} : Sequential c xs .size (.size xs.length) xs

end BoundedBuffer.Queue
