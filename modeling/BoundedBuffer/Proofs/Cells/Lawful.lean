import BoundedBuffer.Cells.Bytes
import BoundedBuffer.Cells.Options

namespace BoundedBuffer

/-- Cells of which each keeps what was written in it last until it is taken, whatever is done with
the others. -/
class LawfulCells (σ : Type u) {α : outParam (Type v)} [Cells σ α] : Prop where
  length_ofLength : ∀ n, Cells.length (Cells.ofLength n : σ) = n
  length_write : ∀ (s : σ) i v, Cells.length (Cells.write s i v).after = Cells.length s
  length_take : ∀ (s : σ) i, Cells.length (Cells.take s i).after = Cells.length s
  length_reset : ∀ s : σ, Cells.length (Cells.reset s).after = Cells.length s
  write_reply : ∀ {s : σ} {i} v, i < Cells.length s → (Cells.write s i v).reply = .ok ()
  take_reply : ∀ (s : σ) i, (Cells.take s i).reply = Cells.read s i
  read_write_self : ∀ {s : σ} {i} v, i < Cells.length s →
    Cells.read (Cells.write s i v).after i = .ok (some v)
  read_write_ne : ∀ (s : σ) {i j} v, i ≠ j →
    Cells.read (Cells.write s i v).after j = Cells.read s j
  read_take_ne : ∀ (s : σ) {i j}, i ≠ j → Cells.read (Cells.take s i).after j = Cells.read s j

namespace OptionCells

variable {α : Type u}

instance : LawfulCells (OptionCells α) where
  length_ofLength n := Array.size_replicate
  length_write s i v := by
    simp only [Cells.length, Cells.write, write]
    split <;> simp
  length_take s i := by
    simp only [Cells.length, Cells.take, take]
    split <;> simp
  length_reset s := Array.size_replicate
  write_reply v h := by
    simp only [Cells.length] at h
    simp [Cells.write, write, h]
  take_reply s i := by
    simp only [Cells.take, Cells.read, take, read]
    split <;> rfl
  read_write_self v h := by
    simp only [Cells.length] at h
    simp [Cells.write, Cells.read, write, read, h]
  read_write_ne s i j v h := by
    by_cases hi : i < s.cells.size
    · simp [Cells.write, Cells.read, write, read, hi, Array.getElem_set, h]
    · simp [Cells.write, Cells.read, write, hi]
  read_take_ne s i j h := by
    by_cases hi : i < s.cells.size
    · simp [Cells.take, Cells.read, take, read, hi, Array.getElem_set, h]
    · simp [Cells.take, Cells.read, take, hi]

theorem read_of_lt {s : OptionCells α} {i : Nat} (h : i < s.cells.size) :
    s.read i = .ok s.cells[i] := by
  simp [read, h]

theorem read_ofLength {n i : Nat} (h : i < n) : read (ofLength n : OptionCells α) i = .ok none := by
  simp [read, ofLength, h]

theorem read_take_self {s : OptionCells α} {i : Nat} (h : i < s.cells.size) :
    (s.take i).after.read i = .ok none := by
  simp [take, read, h]

theorem write_destroyed {s : OptionCells α} {i : Nat} (v : α) (h : s.read i = .ok none) :
    (s.write i v).destroyed = [] := by
  unfold read at h
  split at h
  · rename_i hi
    simp [write, hi, Except.ok.inj h]
  · cases h

end OptionCells

namespace ByteCells

instance : LawfulCells ByteCells where
  length_ofLength n := Array.size_replicate
  length_write s i b := by
    simp only [Cells.length, Cells.write, write]
    split <;> simp
  length_take s i := rfl
  length_reset s := rfl
  write_reply b h := by
    simp only [Cells.length] at h
    simp [Cells.write, write, h]
  take_reply s i := rfl
  read_write_self b h := by
    simp only [Cells.length] at h
    simp [Cells.write, Cells.read, write, read, h]
  read_write_ne s i j b h := by
    by_cases hi : i < s.bytes.size
    · simp [Cells.write, Cells.read, write, read, hi, Array.getElem_set, h]
    · simp [Cells.write, Cells.read, write, hi]
  read_take_ne s i j _ := rfl

end ByteCells

end BoundedBuffer
