import BoundedBuffer.Ring.Basic

namespace BoundedBuffer.Window

variable {w : Window} {i j k : Nat}

/-- One subtraction is enough for the remainder, because the sum passes the end at most once. -/
theorem index_eq_mod (hh : w.head < w.capacity) (hk : k ≤ w.capacity) :
    w.index k = (w.head + k) % w.capacity := by
  unfold index
  split
  · rename_i hwrap
    rw [Nat.mod_eq_sub_mod hwrap, Nat.mod_eq_of_lt (by omega)]
  · rw [Nat.mod_eq_of_lt (by omega)]

theorem index_lt (hh : w.head < w.capacity) (hk : k ≤ w.capacity) : w.index k < w.capacity := by
  rw [index_eq_mod hh hk]
  exact Nat.mod_lt _ (Nat.zero_lt_of_lt hh)

theorem index_zero (hh : w.head < w.capacity) : w.index 0 = w.head := by
  simp [index, Nat.not_le_of_lt hh]

theorem index_injective (hj : j < w.capacity) (hk : k < w.capacity)
    (h : w.index j = w.index k) : j = k := by
  unfold index at h
  split at h <;> split at h <;> omega

theorem head_ne_index (hk : k + 1 < w.capacity) : w.head ≠ w.index (k + 1) := by
  unfold index
  split <;> omega

theorem index_surjective (hh : w.head < w.capacity) (hi : i < w.capacity) :
    ∃ k < w.capacity, w.index k = i := by
  by_cases h : w.head ≤ i
  · exact ⟨i - w.head, by omega, by unfold index; split <;> omega⟩
  · exact ⟨w.capacity + i - w.head, by omega, by unfold index; split <;> omega⟩

@[simp] theorem grow_capacity (w : Window) : w.grow.capacity = w.capacity := rfl

@[simp] theorem grow_head (w : Window) : w.grow.head = w.head := rfl

@[simp] theorem grow_count (w : Window) : w.grow.count = w.count + 1 := rfl

@[simp] theorem index_grow (w : Window) (k : Nat) : w.grow.index k = w.index k := rfl

@[simp] theorem shrink_capacity (w : Window) : w.shrink.capacity = w.capacity := rfl

@[simp] theorem shrink_head (w : Window) : w.shrink.head = w.index 1 := rfl

@[simp] theorem shrink_count (w : Window) : w.shrink.count = w.count - 1 := rfl

@[simp] theorem clear_capacity (w : Window) : w.clear.capacity = w.capacity := rfl

@[simp] theorem clear_head (w : Window) : w.clear.head = 0 := rfl

@[simp] theorem clear_count (w : Window) : w.clear.count = 0 := rfl

theorem index_shrink (hh : w.head < w.capacity) (hk : k < w.capacity) :
    w.shrink.index k = w.index (k + 1) := by
  simp only [index, shrink_head, shrink_capacity]
  split <;> split <;> split <;> omega

theorem isFull_iff : w.isFull = true ↔ w.count = w.capacity := by
  simp [isFull]

theorem isEmpty_iff : w.isEmpty = true ↔ w.count = 0 := by
  simp [isEmpty]

end BoundedBuffer.Window
