import BoundedBuffer.Proofs.Ring.Occupancy

namespace BoundedBuffer

namespace BoundedList

variable {α : Type u}

theorem run_append (b : BoundedList α) (qs more : List (Ring.Request α)) :
    b.run (qs ++ more) =
      (((b.run qs).1.run more).1, (b.run qs).2 ++ ((b.run qs).1.run more).2) := by
  induction qs generalizing b with
  | nil => rfl
  | cons q qs ih => simp [run, ih]

theorem run_puts {b : BoundedList α} {vs : List α} (h : b.values.length + vs.length ≤ b.capacity) :
    b.run (vs.map .put) = ({ b with values := b.values ++ vs }, List.replicate vs.length .done) := by
  induction vs generalizing b with
  | nil => simp [run]
  | cons v vs ih =>
    rw [List.length_cons] at h
    have hroom : b.values.length < b.capacity := by omega
    have hrest := @ih { b with values := b.values ++ [v] } (by simp; omega)
    simp [run, perform, hroom, hrest, List.replicate_succ]

theorem run_gets (b : BoundedList α) (m : Nat) :
    (b.run (List.replicate m .get)).2 =
      (List.range m).map fun i => (b.values[i]?).elim (.fault .empty) .value := by
  induction m generalizing b with
  | zero => rfl
  | succ m ih =>
    rw [List.replicate_succ, List.range_succ_eq_map, List.map_cons, List.map_map]
    obtain ⟨capacity, _ | ⟨v, vs⟩⟩ := b
    · exact congrArg (List.cons (.fault .empty)) (ih ⟨capacity, []⟩)
    · exact congrArg (List.cons (.value v)) (ih ⟨capacity, vs⟩)

theorem run_refill {n : Nat} {vs : List α} (h : vs.length ≤ n) :
    (run ⟨n, []⟩ (vs.map .put ++ List.replicate vs.length .get)).2 =
      List.replicate vs.length .done ++ vs.map .value := by
  have hputs : run ⟨n, []⟩ (vs.map .put) = (⟨n, vs⟩, List.replicate vs.length .done) :=
    run_puts (by simpa using h)
  have hgets : (run ⟨n, vs⟩ (List.replicate vs.length .get)).2 = vs.map .value := by
    rw [run_gets]
    apply List.ext_getElem
    · simp
    · intro i hi _
      rw [List.length_map, List.length_range] at hi
      simp [hi]
  rw [run_append, hputs]
  exact congrArg _ hgets

theorem trail_hints (xs : List α) (m : Nat) :
    (trail xs m).hints = (List.range (m + 1)).map fun j =>
      { lower := xs.length - min j xs.length, upper := xs.length - min j xs.length,
        length := xs.length - min j xs.length } := by
  apply List.map_congr_left
  intro j _
  have hleft : xs.length - j = xs.length - min j xs.length := by omega
  rw [hleft]

end BoundedList

namespace Ring

variable {σ : Type u} {α : Type v} [Cells σ α] {r : Ring σ} {b : BoundedList α}

def Walk.advance : Nat → Walk σ → Except (Fault α) (Walk σ)
  | 0, k => .ok k
  | m + 1, k =>
    match k.next with
    | .ok (_, next) => advance m next
    | .error e => .error e

/-- What a walk, gets and a drain show of a ring that holds `xs`, each with any number of steps. -/
structure Discloses (r : Ring σ) (xs : List α) : Prop where
  trail : ∀ m, ∃ t : Trail α, r.walk m = .ok t ∧ (r.drain m).reply = .ok t ∧
    t.yields = (List.range m).map (xs[·]?) ∧
    t.hints = (List.range (m + 1)).map fun j =>
      { lower := xs.length - min j xs.length, upper := xs.length - min j xs.length,
        length := xs.length - min j xs.length }
  stands : ∀ m, Walk.advance m ⟨r, 0⟩ = .ok ⟨r, min m xs.length⟩ ∧ min m xs.length ≤ r.count
  walked : ∀ m qs, (r.run (.walk m :: qs)).1 = (r.run qs).1 ∧
    (r.run (.walk m :: qs)).2.tail = (r.run qs).2
  gets : ∀ m, (r.run (List.replicate m .get)).2.map Prod.fst =
    (List.range m).map fun i => (xs[i]?).elim (.fault .empty) .value
  drained : ∀ m, (r.drain m).after.Holds ⟨r.capacity, []⟩
  refilled : ∀ m (vs : List α), vs.length ≤ r.capacity →
    ((r.drain m).after.run (vs.map .put ++ List.replicate vs.length .get)).2.map Prod.fst =
      List.replicate vs.length .done ++ vs.map .value

namespace Holds

theorem next_min (h : r.Holds b) (j : Nat) :
    Walk.next ⟨r, min j b.values.length⟩ =
      .ok (b.values[j]?, ⟨r, min (j + 1) b.values.length⟩) := by
  rcases Nat.lt_or_ge j b.values.length with hlt | hge
  · rw [Nat.min_eq_left (Nat.le_of_lt hlt), Nat.min_eq_left hlt, h.next hlt,
      List.getElem?_eq_getElem hlt]
  · rw [Nat.min_eq_right hge, Nat.min_eq_right (Nat.le_succ_of_le hge), h.next_end,
      List.getElem?_eq_none hge]

theorem advance (h : r.Holds b) (m j : Nat) :
    Walk.advance m ⟨r, min j b.values.length⟩ = .ok ⟨r, min (j + m) b.values.length⟩ := by
  induction m generalizing j with
  | zero => rfl
  | succ m ih =>
    simp only [Walk.advance, h.next_min]
    rw [ih (j + 1), Nat.add_right_comm, Nat.add_assoc]

variable [LawfulCells σ]

theorem drain (h : r.Holds b) (m : Nat) :
    (r.drain m).reply = .ok (BoundedList.trail b.values m) ∧
      (r.drain m).after.Holds { b with values := [] } := by
  obtain ⟨hreply, hnext⟩ := h.drainTrail m
  exact ⟨hreply, hnext.clear⟩

theorem discloses (h : r.Holds b) : r.Discloses b.values where
  trail m := ⟨_, h.walk m, (h.drain m).1, rfl, BoundedList.trail_hints b.values m⟩
  stands m := by
    have hwalk := h.advance m 0
    rw [Nat.zero_min, Nat.zero_add] at hwalk
    exact ⟨hwalk, h.count_eq ▸ Nat.min_le_right m b.values.length⟩
  walked m qs := ⟨rfl, rfl⟩
  gets m := (h.run _).1.trans (b.run_gets m)
  drained m := by
    rw [Ring.capacity, h.capacity]
    exact (h.drain m).2
  refilled m vs hvs := by
    rw [Ring.capacity, h.capacity] at hvs
    exact ((h.drain m).2.run _).1.trans (BoundedList.run_refill hvs)

end Holds

/-- Both show the values in order, then none, and at each step how many are left. A walk leaves
the ring as it is, a drain empty. -/
theorem walks_and_drains_alike {n : Nat} [LawfulCells σ] (h : Reachable n r) :
    ∃ xs, r.Holds ⟨n, xs⟩ ∧ r.Discloses xs := by
  obtain ⟨xs, hr⟩ := h.holds
  exact ⟨xs, hr, hr.discloses⟩

/-- Two values go round the end of three cells of either kind. -/
theorem walks_and_drains_alike_round_the_end :
    ∃ (r : Ring (OptionCells Nat)) (s : Ring ByteCells), Reachable 3 r ∧ Reachable 3 s ∧
      r.window = ⟨3, 2, 2⟩ ∧ r.Discloses [3, 4] ∧
      r.walk 3 = .ok ⟨[some 3, some 4, none], [⟨2, 2, 2⟩, ⟨1, 1, 1⟩, ⟨0, 0, 0⟩, ⟨0, 0, 0⟩]⟩ ∧
      s.window = ⟨3, 2, 2⟩ ∧ s.Discloses [3, 4] ∧
      ((s.drain 1).after.run [.put 5, .put 6, .put 7, .get, .get, .get]).2.map Prod.fst =
        [.done, .done, .done, .value 5, .value 6, .value 7] := by
  have hr : Reachable 3 _ := .performed (.put 4) (.performed .get (.performed .get
    (.performed (.putAll [1, 2, 3]) (.made (σ := OptionCells Nat) rfl))))
  have hs : Reachable 3 _ := .performed (.put 4) (.performed .get (.performed .get
    (.performed (.putAll [1, 2, 3]) (.made (σ := ByteCells) rfl))))
  obtain ⟨xs, hx, h⟩ := walks_and_drains_alike hr
  obtain ⟨ys, hy, h'⟩ := walks_and_drains_alike hs
  cases hx.values
  cases hy.values
  exact ⟨_, _, hr, hs, rfl, h, rfl, rfl, h', h'.refilled 1 [5, 6, 7] (by decide)⟩

end Ring

end BoundedBuffer
