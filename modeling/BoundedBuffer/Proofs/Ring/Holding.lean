import BoundedBuffer.BoundedList
import BoundedBuffer.Proofs.Cells.Lawful
import BoundedBuffer.Proofs.Ring.Windows

namespace BoundedBuffer.Ring

variable {σ : Type u} {α : Type v} [Cells σ α] {r : Ring σ} {b : BoundedList α}

/-- The ring holds just these values, the first at its head, and its capacity is the list's. -/
structure Holds (r : Ring σ) (b : BoundedList α) : Prop where
  capacity : r.window.capacity = b.capacity
  length : Cells.length r.cells = b.capacity
  head : r.window.head < b.capacity
  count : r.window.count = b.values.length
  fits : b.values.length ≤ b.capacity
  live : ∀ k (hk : k < b.values.length), Cells.read r.cells (r.window.index k) = .ok (some b.values[k])

namespace Holds

theorem head_lt (h : r.Holds b) : r.window.head < r.window.capacity :=
  h.capacity ▸ h.head

theorem count_eq (h : r.Holds b) : r.count = b.values.length :=
  h.count

theorem isFull_iff (h : r.Holds b) : r.window.isFull = true ↔ b.values.length = b.capacity := by
  rw [Window.isFull_iff, h.count, h.capacity]

theorem isEmpty_iff (h : r.Holds b) : r.window.isEmpty = true ↔ b.values = [] := by
  rw [Window.isEmpty_iff, h.count, List.length_eq_zero_iff]

/-- The cell behind the last value is there, and the window's arithmetic stays in it. -/
theorem tail_lt (h : r.Holds b) : r.window.index r.window.count < Cells.length r.cells := by
  rw [h.length, h.count, ← h.capacity]
  exact Window.index_lt h.head_lt (h.capacity ▸ h.fits)

theorem read_head {x : α} {xs : List α} (h : r.Holds b) (hb : b.values = x :: xs) :
    Cells.read r.cells r.window.head = .ok (some x) := by
  have hlive := h.live 0 (by simp [hb])
  rw [Window.index_zero h.head_lt] at hlive
  simpa [hb] using hlive

theorem put_full (h : r.Holds b) (hb : b.values.length = b.capacity) (v : α) :
    r.put v = ⟨r, .error (.full v), []⟩ := by
  simp [Ring.put, h.isFull_iff.mpr hb]

theorem get_empty (h : r.Holds b) (hb : b.values = []) : r.get = ⟨r, .error .empty, []⟩ := by
  simp [Ring.get, h.isEmpty_iff.mpr hb]

theorem peek_empty (h : r.Holds b) (hb : b.values = []) : r.peek = .error .empty := by
  simp [Ring.peek, Ring.isEmpty, h.isEmpty_iff.mpr hb]

theorem peek {x : α} {xs : List α} (h : r.Holds b) (hb : b.values = x :: xs) :
    r.peek = .ok x := by
  have hempty : r.window.isEmpty = false := by
    rw [← Bool.not_eq_true, h.isEmpty_iff]
    simp [hb]
  simp [Ring.peek, Ring.isEmpty, hempty, h.read_head hb]

variable [LawfulCells σ]

theorem allocate {n : Nat} (hn : 0 < n) : (allocate σ n).Holds ⟨n, []⟩ where
  capacity := rfl
  length := LawfulCells.length_ofLength n
  head := hn
  count := rfl
  fits := Nat.zero_le n
  live k hk := absurd hk (Nat.not_lt_zero k)

theorem put_eq (h : r.Holds b) (hb : b.values.length < b.capacity) (v : α) :
    r.put v = ⟨⟨(Cells.write r.cells (r.window.index r.window.count) v).after, r.window.grow⟩,
      .ok (), (Cells.write r.cells (r.window.index r.window.count) v).destroyed⟩ := by
  have hfull : r.window.isFull = false := by
    rw [← Bool.not_eq_true, h.isFull_iff]
    omega
  have hw := LawfulCells.write_reply v h.tail_lt
  obtain ⟨cells, w⟩ := r
  simp only [Ring.put, hfull, Bool.false_eq_true, if_false]
  split <;> simp_all

theorem get_eq {x : α} {xs : List α} (h : r.Holds b) (hb : b.values = x :: xs) :
    r.get = ⟨⟨(Cells.take r.cells r.window.head).after, r.window.shrink⟩, .ok x,
      (Cells.take r.cells r.window.head).destroyed⟩ := by
  have hempty : r.window.isEmpty = false := by
    rw [← Bool.not_eq_true, h.isEmpty_iff]
    simp [hb]
  have ht := (LawfulCells.take_reply r.cells r.window.head).trans (h.read_head hb)
  obtain ⟨cells, w⟩ := r
  simp only [Ring.get, hempty, Bool.false_eq_true, if_false]
  split <;> simp_all

theorem put (h : r.Holds b) (hb : b.values.length < b.capacity) (v : α) :
    (r.put v).reply = .ok () ∧
      (r.put v).after.Holds { b with values := b.values ++ [v] } := by
  have hlt := h.capacity ▸ hb
  rw [h.put_eq hb]
  refine ⟨rfl, h.capacity, ?_, h.head, ?_, ?_, ?_⟩
  · exact (LawfulCells.length_write ..).trans h.length
  · simp [h.count]
  · simp only [List.length_append, List.length_singleton]
    omega
  · intro k hk
    simp only [List.length_append, List.length_singleton] at hk
    rw [Window.index_grow]
    by_cases hlast : k = b.values.length
    · subst hlast
      have hself := LawfulCells.read_write_self v h.tail_lt
      rw [h.count] at hself ⊢
      simpa using hself
    · have hold : k < b.values.length := by omega
      have hne : r.window.index r.window.count ≠ r.window.index k := by
        intro he
        rw [h.count] at he
        exact hlast (Window.index_injective hlt (by omega) he).symm
      rw [LawfulCells.read_write_ne _ _ hne, List.getElem_append_left hold]
      exact h.live k hold

theorem get {x : α} {xs : List α} (h : r.Holds b) (hb : b.values = x :: xs) :
    r.get.reply = .ok x ∧ r.get.after.Holds { b with values := xs } := by
  have hcapacity := h.capacity
  have hfits := h.fits
  rw [hb, List.length_cons] at hfits
  rw [h.get_eq hb]
  refine ⟨rfl, h.capacity, ?_, ?_, ?_, ?_, ?_⟩
  · exact (LawfulCells.length_take ..).trans h.length
  · exact hcapacity ▸ Window.index_lt h.head_lt (by omega)
  · simp [h.count, hb]
  · exact Nat.le_of_succ_le hfits
  · intro k hk
    dsimp only at hk ⊢
    have hne := Window.head_ne_index (w := r.window) (k := k) (by omega)
    rw [Window.index_shrink h.head_lt (by omega), LawfulCells.read_take_ne _ hne,
      h.live (k + 1) (by simp [hb]; omega)]
    simp [hb]

theorem clear (h : r.Holds b) : r.clear.after.Holds { b with values := [] } where
  capacity := h.capacity
  length := (LawfulCells.length_reset _).trans h.length
  head := Nat.zero_lt_of_lt h.head
  count := rfl
  fits := Nat.zero_le _
  live k hk := absurd hk (Nat.not_lt_zero k)

end Holds

end BoundedBuffer.Ring
