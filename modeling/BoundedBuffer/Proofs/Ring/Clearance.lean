import BoundedBuffer.Proofs.Ring.Custody
import BoundedBuffer.Proofs.Ring.Imprint

namespace BoundedBuffer.Ring

section

variable {α : Type u}

theorem Deed.gets_put (vs : List α) (past : List (Deed α)) :
    Deed.gets (vs.map .put ++ past) = Deed.gets past := by
  induction vs with
  | nil => rfl
  | cons v vs ih => exact ih

variable {σ : Type v} [Cells σ α] {r : Ring σ} {b : BoundedList α} {past : List (Deed α)} {n : Nat}

/-- How a ring of this capacity came to be, the latest deed first, also amid a drain. -/
inductive Lived (n : Nat) : List (Deed α) → Ring σ → Prop
  | made {r : Ring σ} (made : ofCapacity σ n = .ok r) : Lived n [] r
  | performed {r : Ring σ} {past : List (Deed α)} (q : Request α) :
      Lived n past r → Lived n (r.deeds q ++ past) (r.perform q).after
  | drawn {r : Ring σ} {past : List (Deed α)} :
      Lived n past r → Lived n (r.deeds .get ++ past) r.drainNext.after

theorem Reachable.lived (h : Reachable n r) : ∃ past, Lived n past r := by
  induction h with
  | made hr => exact ⟨_, .made hr⟩
  | performed q _ ih =>
    obtain ⟨past, h⟩ := ih
    exact ⟨_, h.performed q⟩
  | drawn _ ih =>
    obtain ⟨past, h⟩ := ih
    exact ⟨_, h.drawn⟩

theorem Lived.reachable {r : Ring σ} (h : Lived n past r) : Reachable n r := by
  induction h with
  | made hr => exact .made hr
  | performed q _ ih => exact ih.performed q
  | drawn _ ih => exact ih.drawn

theorem drainTrail_succ {v : Option α} (h : r.drainNext.reply = .ok v) (m : Nat) :
    r.drainTrail (m + 1) = ⟨(r.drainNext.after.drainTrail m).after,
      (r.drainNext.after.drainTrail m).reply.map (.cons (.exact r.count) v),
      r.drainNext.destroyed ++ (r.drainNext.after.drainTrail m).destroyed⟩ := by
  rcases hd : r.drainNext with ⟨next, reply, lost⟩
  simp_all [drainTrail]

theorem put_head (r : Ring σ) (v : α) : (r.put v).after.window.head = r.window.head := by
  obtain ⟨cells, w⟩ := r
  simp only [Ring.put]
  split
  · rfl
  · split <;> rfl

theorem putAll_head (r : Ring σ) (vs : List α) :
    (r.putAll vs).after.window.head = r.window.head :=
  putAll_keeps (P := fun s => s.window.head = r.window.head)
    (fun s v h => (put_head s v).trans h) rfl vs

variable [LawfulCells σ]

namespace Holds

theorem get_head {x : α} {xs : List α} (h : r.Holds b) (hb : b.values = x :: xs) :
    r.get.after.window.head = (r.window.head + 1) % b.capacity := by
  rw [h.get_eq hb, ← h.capacity]
  exact Window.index_eq_mod h.head_lt (Nat.zero_lt_of_lt h.head_lt)

theorem get_head_deeds (h : r.Holds b) (hh : r.window.head = Deed.gets past % b.capacity) :
    r.get.after.window.head = Deed.gets (r.deeds .get ++ past) % b.capacity := by
  cases hb : b.values with
  | nil => simp [deeds, h.get_empty hb, hh]
  | cons x xs =>
    have hdeeds : r.deeds .get = [.get] := by simp [deeds, h.get_eq hb]
    rw [h.get_head hb, hh, hdeeds, Nat.mod_add_mod]
    rfl

theorem perform_head (h : r.Holds b) (hh : r.window.head = Deed.gets past % b.capacity)
    (q : Request α) :
    (r.perform q).after.window.head = Deed.gets (r.deeds q ++ past) % b.capacity := by
  cases q with
  | put v =>
    simp only [deeds, Deed.gets_put]
    exact (put_head r v).trans hh
  | putAll vs =>
    simp only [deeds, Deed.gets_put]
    exact (putAll_head r vs).trans hh
  | putArray vs =>
    simp only [deeds, Deed.gets_put]
    exact (putAll_head r vs.toList).trans hh
  | get => exact h.get_head_deeds hh
  | clear => exact (Nat.zero_mod _).symm
  | drain m =>
    simp only [deeds]
    split <;> exact (Nat.zero_mod _).symm
  | peek => exact hh
  | walk m => exact hh
  | values => exact hh

end Holds

/-- The head is at the number of gets since the last reset, counted round the cells. -/
theorem Lived.head (h : Lived n past r) : r.window.head = Deed.gets past % n := by
  induction h with
  | made hr =>
    unfold ofCapacity at hr
    split at hr <;> cases hr
    exact (Nat.zero_mod n).symm
  | performed q h ih =>
    obtain ⟨xs, hr⟩ := h.reachable.holds
    exact hr.perform_head ih q
  | drawn h ih =>
    obtain ⟨xs, hr⟩ := h.reachable.holds
    rw [drainNext_after]
    exact hr.get_head_deeds ih

theorem Holds.drainTrail_head (h : r.Holds b) (m : Nat) :
    (r.drainTrail m).after.window.head =
      (r.window.head + min m b.values.length) % b.capacity := by
  induction m generalizing r b with
  | zero => simpa [Ring.drainTrail] using (Nat.mod_eq_of_lt h.head).symm
  | succ m ih =>
    cases hb : b.values with
    | nil =>
      have hrest := ih h
      rw [drainTrail_succ (by rw [h.drainNext_empty hb]), h.drainNext_empty hb]
      simpa [hb] using hrest
    | cons x xs =>
      obtain ⟨hx, hnext⟩ := h.drainNext hb
      have hrest := ih hnext
      rw [drainTrail_succ hx]
      simp only [hrest]
      rw [drainNext_after, h.get_head hb, Nat.mod_add_mod, List.length_cons]
      congr 1
      omega

end

section

variable {α : Type u} {r : Ring (OptionCells α)} {b : BoundedList α} {n head k : Nat}

/-- Values from cell `head` of `n` on, in the order of their cells: those past the end are in front.
-/
def byCell (n head : Nat) (xs : List α) : List α :=
  if head + xs.length ≤ n then xs else xs.drop (n - head) ++ xs.take (n - head)

theorem byCell_eq (n head : Nat) (xs : List α) :
    byCell n head xs = xs.drop (n - head) ++ xs.take (n - head) := by
  unfold byCell
  split
  · have hfits : xs.length ≤ n - head := by omega
    simp [List.drop_of_length_le hfits, List.take_of_length_le hfits]
  · rfl

theorem byCell_perm (n head : Nat) (xs : List α) : (byCell n head xs).Perm xs := by
  rw [byCell_eq]
  simpa using @List.perm_append_comm _ (xs.drop (n - head)) (xs.take (n - head))

def places (b : BoundedList α) : List (Option α) :=
  b.values.map some ++ List.replicate (b.capacity - b.values.length) none

theorem Holds.cell (h : r.Holds b) (ht : r.Tidy) (hk : k < b.capacity) :
    r.cells.cells.toList[r.window.index k]? = (places b)[k]? := by
  have hcapacity := h.capacity
  have hcount := h.count
  have hlt : r.window.index k < r.cells.cells.size := by
    rw [h.size]
    exact Window.index_lt h.head_lt (by omega)
  have hread : r.cells.read (r.window.index k) = .ok r.cells.cells[r.window.index k] :=
    OptionCells.read_of_lt hlt
  rw [Array.getElem?_toList, Array.getElem?_eq_getElem hlt, places]
  rcases Nat.lt_or_ge k b.values.length with hlive | hspare
  · have hvalue := hread.symm.trans (h.live k hlive)
    rw [Except.ok.inj hvalue, List.getElem?_append_left (by simpa using hlive)]
    simp [hlive]
  · have hnone := hread.symm.trans (ht k (by omega) (by omega))
    rw [Except.ok.inj hnone, List.getElem?_append_right (by simpa using hspare)]
    simp only [List.length_map, List.getElem?_replicate]
    rw [if_pos (by omega)]

/-- The cells in their order are the places behind the head, turned round the end. -/
theorem Holds.cells_eq (h : r.Holds b) (ht : r.Tidy) :
    r.cells.cells.toList =
      (places b).drop (b.capacity - r.window.head) ++
        (places b).take (b.capacity - r.window.head) := by
  have hlength : (places b).length = b.capacity := by
    have hfits := h.fits
    simp only [places, List.length_append, List.length_map, List.length_replicate]
    omega
  have hhead := h.head
  have hcapacity := h.capacity
  apply List.ext_getElem?
  intro i
  rcases Nat.lt_or_ge i b.capacity with hlt | hge
  · -- each cell is at some place behind the head, reached round the end or not
    obtain ⟨k, hk, rfl⟩ := Window.index_surjective h.head_lt (hcapacity ▸ hlt)
    rw [h.cell ht (by omega), List.getElem?_append]
    simp only [List.length_drop, hlength, List.getElem?_drop, List.getElem?_take, Window.index]
    split <;> split <;> try omega
    · congr 1
      omega
    · rw [if_pos (by omega)]
      congr 1
      omega
  · rw [List.getElem?_eq_none, List.getElem?_eq_none]
    · simp only [List.length_append, List.length_drop, List.length_take, hlength]
      omega
    · rw [Array.length_toList, h.size]
      omega

theorem reduceOption_append_vacant (xs : List α) (m : Nat) :
    (xs.map some ++ List.replicate m none).reduceOption = xs := by
  rw [List.reduceOption_append, List.reduceOption_replicate_none, List.append_nil]
  simp [List.reduceOption]

theorem Holds.held_eq (h : r.Holds b) (ht : r.Tidy) :
    r.cells.cells.toList.reduceOption = byCell b.capacity r.window.head b.values := by
  rw [h.cells_eq ht, byCell_eq, List.reduceOption_append]
  congr 1
  · rw [places, List.drop_append, ← List.map_drop, List.drop_replicate,
      reduceOption_append_vacant]
  · rw [places, List.take_append, ← List.map_take, List.take_replicate,
      reduceOption_append_vacant]

/-- What a clear, the end of a drain and the end of the ring destroy, and what the first two leave.
-/
structure Ends (n : Nat) (xs : List α) (r : Ring (OptionCells α)) : Prop where
  cells : r.cells.cells.toList.reduceOption = byCell n r.window.head xs
  release : r.release = byCell n r.window.head xs
  clear : r.clear.destroyed = byCell n r.window.head xs
  cleared : ofCapacity (OptionCells α) n = .ok r.clear.after
  drain : ∀ m, (r.drain m).destroyed =
    byCell n ((r.window.head + min m xs.length) % n) (xs.drop m)
  drained : ∀ m, ofCapacity (OptionCells α) n = .ok (r.drain m).after

theorem Holds.release (h : r.Holds b) (ht : r.Tidy) :
    r.release = byCell b.capacity r.window.head b.values := by
  rw [← h.held_eq ht]
  simp [Ring.release, Cells.release, OptionCells.held, List.reduceOption]

theorem Holds.cleared (h : r.Holds b) : ofCapacity (OptionCells α) b.capacity = .ok r.clear.after := by
  have hsize : r.cells.cells.size = b.capacity := h.length
  have hcapacity := h.capacity
  rw [ofCapacity_pos _ (Nat.zero_lt_of_lt h.head)]
  simp [Ring.allocate, Ring.clear, Cells.ofLength, Cells.reset, OptionCells.reset, Window.clear,
    hsize, hcapacity]

theorem Holds.ends (h : r.Holds b) (ht : r.Tidy) : r.Ends b.capacity b.values where
  cells := h.held_eq ht
  release := h.release ht
  clear := h.release ht
  cleared := h.cleared
  drain m := by
    have hlast := (h.drainTrail m).2
    have hhead := h.drainTrail_head m
    obtain ⟨next, t, he, ⟨_, _, htidy⟩, _⟩ := Sound.drainTrail ⟨b, h, ht⟩ m
    rw [he] at hlast hhead
    have hlost := hlast.release htidy
    simp only [Ring.drain, he]
    rw [← hhead]
    exact hlost
  drained m := (h.drainTrail m).2.cleared

/-- A clear, the end of a drain and the end of the ring destroy the values held in the order of
their cells. The first two leave a new ring. -/
theorem destroyed_by_cell {α : Type u} {n : Nat} {r : Ring (OptionCells α)} (h : Reachable n r) :
    ∃ xs, r.Holds ⟨n, xs⟩ ∧ r.Ends n xs ∧ (∃ past, Lived n past r) ∧
      ∀ past, Lived n past r → r.window.head = Deed.gets past % n := by
  obtain ⟨b, rfl, hb, ht⟩ := h.tidy
  exact ⟨b.values, hb, hb.ends ht, h.lived, fun past hp => hp.head⟩

/-- A ring was cleared and filled, and two values have gone round its end since. -/
theorem destroyed_by_cell_round_the_end :
    ∃ (r : Ring (OptionCells Nat)) (past : List (Deed Nat)), Reachable 3 r ∧ Lived 3 past r ∧
      past = [.put 5, .put 4, .get, .get, .put 3, .put 2, .put 1, .reset, .get, .put 8] ∧
      r.window.head = Deed.gets past % 3 ∧ r.Ends 3 [3, 4, 5] ∧
      r.clear.destroyed = [4, 5, 3] ∧ (r.drain 1).destroyed = [4, 5] := by
  have hr : Lived 3 _ _ := .performed (.putAll [4, 5]) (.performed .get (.performed .get
    (.performed (.putAll [1, 2, 3]) (.performed .clear (.performed .get (.performed (.put 8)
      (.made (σ := OptionCells Nat) rfl)))))))
  obtain ⟨xs, hx, hends, _, hhead⟩ := destroyed_by_cell hr.reachable
  cases hx.values
  exact ⟨_, _, hr.reachable, hr, rfl, hhead _ hr, hends, rfl, rfl⟩

end

end BoundedBuffer.Ring
