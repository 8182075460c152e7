namespace BoundedBuffer

/-- What an operation leaves behind, what it answers, and the values it destroyed, in that order. -/
structure Effect (σ : Type u) (α : Type v) (β : Type w) where
  after : σ
  reply : β
  destroyed : List α := []

/-- An index that is not below the length of the row it was used on. -/
structure OutOfRange where
  length : Nat
  index : Nat
deriving DecidableEq

def OutOfRange.message (e : OutOfRange) : String :=
  s!"index out of bounds: the len is {e.length} but the index is {e.index}"

/-- A row of numbered cells of fixed length. What is written over, finds no cell, is reset or
released may be destroyed; reading and taking destroy nothing. -/
class Cells (σ : Type u) (α : outParam (Type v)) where
  ofLength : Nat → σ
  length : σ → Nat
  write : σ → Nat → α → Effect σ α (Except OutOfRange Unit)
  take : σ → Nat → Effect σ α (Except OutOfRange (Option α))
  read : σ → Nat → Except OutOfRange (Option α)
  reset : σ → Effect σ α Unit
  /-- What is destroyed when the row itself goes. -/
  release : σ → List α

end BoundedBuffer
