import BoundedBuffer.Proofs.Ring.Custody

namespace BoundedBuffer.Ring

section

variable {σ : Type u} {α : Type v} [Cells σ α] {r : Ring σ} {b : BoundedList α}

def room (r : Ring σ) : Nat :=
  r.capacity - r.count

theorem Holds.room (h : r.Holds b) : r.room = b.room := by
  rw [Ring.room, BoundedList.room, h.count_eq, Ring.capacity, h.capacity]

theorem Reply.intake_eq {intake : Except (Fault α) Unit × List α} {fault : Option (Fault α)}
    {unread : List α} (h : Reply.ofIntake intake = .intake fault unread) :
    intake = (fault.elim (.ok ()) .error, unread) := by
  obtain ⟨_ | _, _⟩ := intake <;> cases h <;> rfl

/-- What a bulk put takes in, refuses and leaves unread, and that it destroys nothing. -/
structure TakesIn (r : Ring σ) (xs vs : List α) : Prop where
  holds : (r.putAll vs).after.Holds ⟨r.capacity, xs ++ vs.take r.room⟩
  whole : vs.length ≤ r.room → (r.putAll vs).reply = (.ok (), [])
  cut : ∀ h : r.room < vs.length,
    (r.putAll vs).reply = (.error (.full vs[r.room]), vs.drop (r.room + 1))
  parts : vs.take r.room ++ (Reply.ofIntake (r.putAll vs).reply).rejected ++
    (r.putAll vs).reply.2 = vs
  destroyed : (r.putAll vs).destroyed = []
  still : r.room = 0 → vs ≠ [] → (r.putAll vs).after = r

theorem Holds.putAll_full (h : r.Holds b) (hb : b.room = 0) (vs : List α) :
    (r.putAll vs).after = r := by
  have hfull : b.values.length = b.capacity := by
    have hfits := h.fits
    unfold BoundedList.room at hb
    omega
  cases vs with
  | nil => rfl
  | cons v vs => simp [Ring.putAll, h.put_full hfull]

theorem Holds.putAll_reply [LawfulCells σ] (h : r.Holds b) (vs : List α) :
    (r.putAll vs).reply =
      ((vs[b.room]?.map Fault.full).elim (.ok ()) .error, vs.drop (b.room + 1)) :=
  Reply.intake_eq (h.putAll vs).1

theorem Holds.takesIn [LawfulCells σ] (h : r.Holds b) {vs : List α}
    (hd : (r.putAll vs).destroyed = []) : r.TakesIn b.values vs where
  holds := by
    rw [h.room, Ring.capacity, h.capacity]
    exact (h.putAll vs).2
  whole hvs := by
    rw [h.room] at hvs
    rw [h.putAll_reply, List.getElem?_eq_none hvs, List.drop_of_length_le (by omega)]
    rfl
  cut hvs := by
    have hroom := h.room
    rw [h.putAll_reply]
    simp only [hroom] at hvs ⊢
    rw [List.getElem?_eq_getElem hvs]
    rfl
  parts := by
    rw [h.room, h.putAll_reply]
    rcases Nat.lt_or_ge b.room vs.length with hlt | hge
    · simp [List.getElem?_eq_getElem hlt, Reply.ofIntake]
    · simp [List.getElem?_eq_none hge, List.take_of_length_le hge,
        List.drop_of_length_le (Nat.le_succ_of_le hge), Reply.ofIntake]
  destroyed := hd
  still hr _ := h.putAll_full (h.room ▸ hr) vs

end

theorem write_destroyed (cells : ByteCells) (i : Nat) (v : UInt8) :
    (Cells.write cells i v).destroyed = [] := by
  simp only [Cells.write, ByteCells.write]
  split <;> rfl

theorem put_destroyed (r : Ring ByteCells) (v : UInt8) : (r.put v).destroyed = [] := by
  obtain ⟨cells, w⟩ := r
  have hlost := write_destroyed cells (w.index w.count) v
  simp only [Ring.put]
  split
  · rfl
  · split <;> simp_all

theorem putAll_destroyed (r : Ring ByteCells) (vs : List UInt8) :
    (r.putAll vs).destroyed = [] := by
  induction vs generalizing r with
  | nil => rfl
  | cons v vs ih =>
    have hput := put_destroyed r v
    unfold putAll
    split
    · rename_i next lost hp
      rw [hp] at hput
      simp only at hput ⊢
      rw [hput, ih next]
      rfl
    · rename_i hp
      rw [hp] at hput
      exact hput

/-- A bulk put takes in as many values as there is room for, pulls one more, which it hands back,
and none after that. -/
theorem putAll_takes_what_fits {α : Type u} {n : Nat} :
    (∀ r : Ring (OptionCells α), Reachable n r →
      ∃ xs, r.Holds ⟨n, xs⟩ ∧ ∀ vs, r.TakesIn xs vs) ∧
    ∀ r : Ring ByteCells, Reachable n r →
      ∃ xs, r.Holds ⟨n, xs⟩ ∧ ∀ vs, r.TakesIn xs vs ∧
        r.putArray vs.toArray = ⟨(r.putAll vs).after, (r.putAll vs).reply.1, []⟩ := by
  refine ⟨?_, ?_⟩
  · intro r h
    obtain ⟨b, rfl, hb, ht⟩ := h.tidy
    refine ⟨b.values, hb, ?_⟩
    intro vs
    -- no cell that is written held a value, so none is destroyed
    obtain ⟨next, reply, hp, _⟩ := Sound.putAll ⟨b, hb, ht⟩ vs
    exact hb.takesIn (by rw [hp])
  · intro r h
    obtain ⟨xs, hr⟩ := h.holds
    refine ⟨xs, hr, ?_⟩
    intro vs
    have hd := putAll_destroyed r vs
    exact ⟨hr.takesIn hd, by simp [putArray, hd]⟩

/-- A bulk put of two values goes round the end and fills three cells, and one of four is cut short.
-/
theorem putAll_takes_what_fits_round_the_end :
    ∃ (r : Ring (OptionCells Nat)) (s : Ring ByteCells), Reachable 3 r ∧ Reachable 3 s ∧
      r.window = ⟨3, 2, 1⟩ ∧ s.window = ⟨3, 2, 1⟩ ∧
      (r.putAll [4, 5, 6, 7]).after.cells.cells = #[some 4, some 5, some 3] ∧
      (r.putAll [4, 5, 6, 7]).reply = (.error (.full 6), [7]) ∧ r.TakesIn [3] [4, 5, 6, 7] ∧
      (s.putArray #[4, 5]).reply = .ok () ∧ s.TakesIn [3] [4, 5] := by
  have hr : Reachable 3 _ := .performed .get (.performed .get (.performed (.putAll [1, 2, 3])
    (.made (σ := OptionCells Nat) rfl)))
  have hs : Reachable 3 _ := .performed .get (.performed .get (.performed (.putAll [1, 2, 3])
    (.made (σ := ByteCells) rfl)))
  obtain ⟨xs, hx, h⟩ := putAll_takes_what_fits.1 _ hr
  obtain ⟨ys, hy, h'⟩ := (putAll_takes_what_fits (α := Nat)).2 _ hs
  cases hx.values
  cases hy.values
  exact ⟨_, _, hr, hs, rfl, rfl, rfl, rfl, h [4, 5, 6, 7], rfl, (h' [4, 5]).1⟩

end BoundedBuffer.Ring
