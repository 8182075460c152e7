import BoundedBuffer.Cells.Basic

namespace BoundedBuffer

/-- Cells that each hold a byte at all times, zero at first. A take and a reset change nothing. -/
structure ByteCells where
  bytes : Array UInt8

namespace ByteCells

def ofLength (n : Nat) : ByteCells :=
  ⟨Array.replicate n 0⟩

def write (s : ByteCells) (i : Nat) (b : UInt8) : Effect ByteCells UInt8 (Except OutOfRange Unit) :=
  if h : i < s.bytes.size then ⟨⟨s.bytes.set i b⟩, .ok (), []⟩
  else ⟨s, .error ⟨s.bytes.size, i⟩, []⟩

def read (s : ByteCells) (i : Nat) : Except OutOfRange (Option UInt8) :=
  if h : i < s.bytes.size then .ok (some s.bytes[i]) else .error ⟨s.bytes.size, i⟩

end ByteCells

instance : Cells ByteCells UInt8 where
  ofLength := ByteCells.ofLength
  length s := s.bytes.size
  write := ByteCells.write
  take s i := ⟨s, s.read i, []⟩
  read := ByteCells.read
  reset s := ⟨s, (), []⟩
  release _ := []

end BoundedBuffer
