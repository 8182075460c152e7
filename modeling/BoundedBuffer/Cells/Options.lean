import BoundedBuffer.Cells.Basic

namespace BoundedBuffer

/-- Cells that each hold a value or are vacant. -/
structure OptionCells (α : Type u) where
  cells : Array (Option α)

namespace OptionCells

variable {α : Type u}

def ofLength (n : Nat) : OptionCells α :=
  ⟨Array.replicate n none⟩

/-- The held values by ascending index. -/
def held (s : OptionCells α) : List α :=
  (s.cells.filterMap id).toList

def write (s : OptionCells α) (i : Nat) (v : α) : Effect (OptionCells α) α (Except OutOfRange Unit) :=
  if h : i < s.cells.size then
    let old := s.cells[i].toList
    ⟨⟨s.cells.set i (some v)⟩, .ok (), old⟩
  else ⟨s, .error ⟨s.cells.size, i⟩, [v]⟩

def take (s : OptionCells α) (i : Nat) : Effect (OptionCells α) α (Except OutOfRange (Option α)) :=
  if h : i < s.cells.size then
    let old := s.cells[i]
    ⟨⟨s.cells.set i none⟩, .ok old, []⟩
  else ⟨s, .error ⟨s.cells.size, i⟩, []⟩

def read (s : OptionCells α) (i : Nat) : Except OutOfRange (Option α) :=
  if h : i < s.cells.size then .ok s.cells[i] else .error ⟨s.cells.size, i⟩

def reset (s : OptionCells α) : Effect (OptionCells α) α Unit :=
  ⟨ofLength s.cells.size, (), s.held⟩

end OptionCells

instance {α : Type u} : Cells (OptionCells α) α where
  ofLength := OptionCells.ofLength
  length s := s.cells.size
  write := OptionCells.write
  take := OptionCells.take
  read := OptionCells.read
  reset := OptionCells.reset
  release := OptionCells.held

end BoundedBuffer
