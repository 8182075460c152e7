import BoundedBuffer.Proofs.Ring.Holding

namespace BoundedBuffer

namespace BoundedList

variable {α : Type u} {b : BoundedList α}

theorem trail_nil (n : Nat) :
    trail ([] : List α) (n + 1) = .cons (.exact 0) none (trail [] n) := by
  simp [trail, Ring.Trail.cons, Ring.SizeHint.exact, List.range_succ_eq_map, Function.comp_def]

theorem trail_cons (v : α) (vs : List α) (n : Nat) :
    trail (v :: vs) (n + 1) = .cons (.exact (vs.length + 1)) (some v) (trail vs n) := by
  simp [trail, Ring.Trail.cons, Ring.SizeHint.exact, List.range_succ_eq_map, Function.comp_def]

theorem putAll_full (hb : b.values.length = b.capacity) (v : α) (vs : List α) :
    b.perform (.putAll (v :: vs)) = (b, .intake (some (.full v)) vs) := by
  simp [perform, room, hb]

theorem putAll_room (hb : b.values.length < b.capacity) (v : α) (vs : List α) :
    b.perform (.putAll (v :: vs)) = { b with values := b.values ++ [v] }.perform (.putAll vs) := by
  obtain ⟨m, hm⟩ := Nat.exists_eq_add_of_lt hb
  have hroom : b.capacity - b.values.length = m + 1 := by omega
  have hless : b.capacity - (b.values.length + 1) = m := by omega
  simp [perform, room, hroom, hless]

theorem capacity_perform (b : BoundedList α) (q : Ring.Request α) :
    (b.perform q).1.capacity = b.capacity := by
  cases q with
  | put v => simp only [perform]; split <;> rfl
  | get => simp only [perform]; split <;> rfl
  | peek => simp only [perform]; split <;> rfl
  | _ => rfl

theorem capacity_run (b : BoundedList α) (qs : List (Ring.Request α)) :
    (b.run qs).1.capacity = b.capacity := by
  induction qs generalizing b with
  | nil => rfl
  | cons q qs ih => exact (ih (b.perform q).1).trans (b.capacity_perform q)

end BoundedList

namespace Ring

variable {σ : Type u} {α : Type v} [Cells σ α] {r : Ring σ} {b : BoundedList α}

theorem putAll_cons {v : α} (vs : List α) (h : (r.put v).reply = .ok ()) :
    r.putAll (v :: vs) = ⟨((r.put v).after.putAll vs).after, ((r.put v).after.putAll vs).reply,
      (r.put v).destroyed ++ ((r.put v).after.putAll vs).destroyed⟩ := by
  rcases hp : r.put v with ⟨next, reply, lost⟩
  simp_all [putAll]

/-- A put of an array tells only whether all of it went in. -/
theorem Reply.ofUnit_of_intake {intake : Except (Fault α) Unit × List α} {fault : Option (Fault α)}
    {unread : List α} (h : Reply.ofIntake intake = .intake fault unread) :
    Reply.ofUnit intake.1 = fault.elim .done .fault := by
  obtain ⟨_ | _, _⟩ := intake <;> cases h <;> rfl

/-- A step of a drain is a get, but for the way it tells that nothing is left. -/
theorem drainNext_after (r : Ring σ) : r.drainNext.after = r.get.after := by
  unfold drainNext
  split <;> simp_all

/-- All that can be seen of the ring is as the list says. -/
structure Shows (r : Ring σ) (b : BoundedList α) : Prop where
  capacity : r.capacity = b.capacity
  count : r.count = b.values.length
  isFull : r.isFull = (b.values.length == b.capacity)
  isEmpty : r.isEmpty = b.values.isEmpty
  values : r.values = .ok b.values
  walk : ∀ steps, r.walk steps = .ok (BoundedList.trail b.values steps)

namespace Holds

theorem next_end (h : r.Holds b) :
    Walk.next ⟨r, b.values.length⟩ = .ok (none, ⟨r, b.values.length⟩) := by
  simp [Walk.next, h.count_eq]

theorem next (h : r.Holds b) {k : Nat} (hk : k < b.values.length) :
    Walk.next ⟨r, k⟩ = .ok (some b.values[k], ⟨r, k + 1⟩) := by
  have hne : k ≠ r.count := by
    rw [h.count_eq]
    omega
  simp [Walk.next, hne, h.live k hk]

theorem trail (h : r.Holds b) (n : Nat) {k : Nat} (hk : k ≤ b.values.length) :
    Walk.trail n ⟨r, k⟩ = .ok (BoundedList.trail (b.values.drop k) n) := by
  have hint : ∀ j, Walk.hint ⟨r, j⟩ = .exact (b.values.length - j) := by
    intro j
    rw [Walk.hint, h.count_eq]
  induction n generalizing k with
  | zero => simp [Walk.trail, hint, BoundedList.trail, SizeHint.exact]
  | succ n ih =>
    rcases Nat.lt_or_eq_of_le hk with hlt | rfl
    · rw [Walk.trail, h.next hlt, List.drop_eq_getElem_cons hlt, BoundedList.trail_cons]
      simp only [ih hlt, hint, Except.map, List.length_drop]
      congr
      omega
    · have hi := ih hk
      rw [List.drop_length] at hi ⊢
      rw [Walk.trail, h.next_end, BoundedList.trail_nil]
      simp only [hi, hint, Except.map, Nat.sub_self]

theorem walk_values (h : r.Holds b) {n k : Nat} (hn : n + k = b.values.length) :
    Walk.values n ⟨r, k⟩ = .ok (b.values.drop k) := by
  induction n generalizing k with
  | zero => simp [Walk.values, ← hn]
  | succ n ih =>
    have hk : k < b.values.length := by omega
    rw [Walk.values, h.next hk, List.drop_eq_getElem_cons hk]
    simp only [ih (k := k + 1) (by omega), Except.map]

theorem values (h : r.Holds b) : r.values = .ok b.values := by
  rw [Ring.values, h.count_eq, h.walk_values (Nat.add_zero _)]
  rfl

theorem walk (h : r.Holds b) (n : Nat) : r.walk n = .ok (BoundedList.trail b.values n) :=
  h.trail n (Nat.zero_le _)

theorem drainNext_empty (h : r.Holds b) (hb : b.values = []) : r.drainNext = ⟨r, .ok none, []⟩ := by
  simp [Ring.drainNext, h.get_empty hb]

theorem shows (h : r.Holds b) : r.Shows b where
  capacity := h.capacity
  count := h.count
  isFull := by rw [Bool.eq_iff_iff, isFull, h.isFull_iff, beq_iff_eq]
  isEmpty := by rw [Bool.eq_iff_iff, isEmpty, h.isEmpty_iff, List.isEmpty_iff]
  values := h.values
  walk := h.walk

variable [LawfulCells σ]

theorem putAll (h : r.Holds b) (vs : List α) :
    Reply.ofIntake (r.putAll vs).reply = (b.perform (.putAll vs)).2 ∧
      (r.putAll vs).after.Holds (b.perform (.putAll vs)).1 := by
  induction vs generalizing r b with
  | nil =>
    refine ⟨by simp [Ring.putAll, Reply.ofIntake, BoundedList.perform], ?_⟩
    simpa [Ring.putAll, BoundedList.perform] using h
  | cons v vs ih =>
    rcases Nat.lt_or_eq_of_le h.fits with hroom | hfull
    · obtain ⟨hreply, hnext⟩ := h.put hroom v
      rw [BoundedList.putAll_room hroom, putAll_cons vs hreply]
      exact ih hnext
    · rw [BoundedList.putAll_full hfull, Ring.putAll, h.put_full hfull]
      exact ⟨rfl, h⟩

theorem drainNext {x : α} {xs : List α} (h : r.Holds b) (hb : b.values = x :: xs) :
    r.drainNext.reply = .ok (some x) ∧ r.drainNext.after.Holds { b with values := xs } := by
  rw [drainNext_after]
  exact ⟨by simp [Ring.drainNext, h.get_eq hb], (h.get hb).2⟩

theorem drainTrail (h : r.Holds b) (n : Nat) :
    (r.drainTrail n).reply = .ok (BoundedList.trail b.values n) ∧
      (r.drainTrail n).after.Holds { b with values := b.values.drop n } := by
  induction n generalizing r b with
  | zero =>
    refine ⟨?_, h⟩
    simp [Ring.drainTrail, BoundedList.trail, SizeHint.exact, h.count_eq]
  | succ n ih =>
    have hcount := h.count_eq
    obtain ⟨capacity, _ | ⟨x, xs⟩⟩ := b
    · obtain ⟨hreply, hafter⟩ := ih h
      rw [BoundedList.trail_nil]
      simp only [Ring.drainTrail, h.drainNext_empty rfl, hreply, Except.map, hcount, List.length_nil]
      exact ⟨trivial, by simpa using hafter⟩
    · obtain ⟨hx, hnext⟩ := h.drainNext rfl
      rcases hd : r.drainNext with ⟨next, reply, lost⟩
      rw [hd] at hx hnext
      dsimp only at hx
      subst hx
      obtain ⟨hreply, hafter⟩ := ih hnext
      rw [BoundedList.trail_cons]
      simp only [Ring.drainTrail, hd, hreply, Except.map, hcount, List.length_cons]
      exact ⟨trivial, hafter⟩

theorem perform (h : r.Holds b) (q : Request α) :
    (r.perform q).reply = (b.perform q).2 ∧ (r.perform q).after.Holds (b.perform q).1 := by
  cases q with
  | put v =>
    rcases Nat.lt_or_eq_of_le h.fits with hroom | hfull
    · obtain ⟨hreply, hnext⟩ := h.put hroom v
      simp only [Ring.perform, BoundedList.perform, hreply, hroom, if_true]
      exact ⟨rfl, hnext⟩
    · simp only [Ring.perform, BoundedList.perform, h.put_full hfull, hfull, Nat.lt_irrefl, if_false]
      exact ⟨rfl, h⟩
  | get =>
    obtain ⟨capacity, _ | ⟨x, xs⟩⟩ := b
    · simp only [Ring.perform, BoundedList.perform, h.get_empty rfl]
      exact ⟨rfl, h⟩
    · obtain ⟨hreply, hnext⟩ := h.get rfl
      simp only [Ring.perform, BoundedList.perform, hreply]
      exact ⟨rfl, hnext⟩
  | peek =>
    refine ⟨?_, ?_⟩
    · obtain ⟨capacity, _ | ⟨x, xs⟩⟩ := b
      · simp [Ring.perform, h.peek_empty rfl, BoundedList.perform, Reply.ofValue]
      · simp [Ring.perform, h.peek rfl, BoundedList.perform, Reply.ofValue]
    · obtain ⟨capacity, _ | ⟨x, xs⟩⟩ := b <;> exact h
  | putAll vs => exact h.putAll vs
  | putArray vs =>
    obtain ⟨hreply, hnext⟩ := h.putAll vs.toList
    have hfault := Reply.ofUnit_of_intake hreply
    rw [Array.getElem?_toList] at hfault
    refine ⟨hfault.trans ?_, hnext⟩
    cases hv : vs[b.room]? <;> simp [BoundedList.perform, hv]
  | clear => exact ⟨rfl, h.clear⟩
  | walk n => exact ⟨by simp [Ring.perform, h.walk, BoundedList.perform, Reply.ofTrail], h⟩
  | values => exact ⟨by simp [Ring.perform, h.values, BoundedList.perform, Reply.ofValues], h⟩
  | drain n =>
    obtain ⟨hreply, hnext⟩ := h.drainTrail n
    simp only [Ring.perform, Ring.drain, BoundedList.perform, hreply]
    exact ⟨rfl, hnext.clear⟩

theorem run (h : r.Holds b) (qs : List (Request α)) :
    (r.run qs).2.map Prod.fst = (b.run qs).2 ∧ (r.run qs).1.Holds (b.run qs).1 := by
  induction qs generalizing r b with
  | nil => exact ⟨rfl, h⟩
  | cons q qs ih =>
    obtain ⟨hreply, hnext⟩ := h.perform q
    obtain ⟨hreplies, hlast⟩ := ih hnext
    exact ⟨by simp [Ring.run, BoundedList.run, hreply, hreplies], hlast⟩

end Holds

theorem ofCapacity_pos (σ : Type u) {α : Type v} [Cells σ α] {n : Nat} (hn : 0 < n) :
    ofCapacity σ n = .ok (allocate σ n) := by
  simp [ofCapacity, Nat.ne_of_gt hn]

/-- Whatever it is asked, a ring answers as a list that takes no more values than its capacity, and
shows what that list holds. -/
theorem run_as_bounded_list {α : Type u} {n : Nat} (hn : 0 < n) :
    ∃ r : Ring (OptionCells α), ofCapacity (OptionCells α) n = .ok r ∧
      ∀ qs : List (Request α), ∃ b : BoundedList α, b.capacity = n ∧ b.values.length ≤ n ∧
        BoundedList.run ⟨n, []⟩ qs = (b, (r.run qs).2.map Prod.fst) ∧ (r.run qs).1.Shows b := by
  have h : (allocate (OptionCells α) n).Holds ⟨n, []⟩ := .allocate hn
  refine ⟨_, ofCapacity_pos _ hn, ?_⟩
  intro qs
  obtain ⟨hreplies, hlast⟩ := h.run qs
  have hcapacity : (BoundedList.run ⟨n, []⟩ qs).1.capacity = n := BoundedList.capacity_run ..
  have hfits := hlast.fits
  rw [hcapacity] at hfits
  exact ⟨_, hcapacity, hfits, by rw [hreplies], hlast.shows⟩

/-- A ring of two cells is filled, refuses a value, and goes round its end. -/
theorem wrapping_run_as_bounded_list :
    ∃ r : Ring (OptionCells Nat), ofCapacity (OptionCells Nat) 2 = .ok r ∧
      (r.run [.put 1, .putAll [2, 3, 4], .get, .put 5, .peek, .walk 1, .drain 1, .get,
          .put 6]).2.map Prod.fst =
        [.done, .intake (some (.full 3)) [4], .value 1, .done, .value 2,
          .trail ⟨[some 2], [⟨2, 2, 2⟩, ⟨1, 1, 1⟩]⟩, .trail ⟨[some 2], [⟨2, 2, 2⟩, ⟨1, 1, 1⟩]⟩,
          .fault .empty, .done] ∧
      (r.run [.put 1, .putAll [2, 3, 4], .get, .put 5, .peek, .walk 1, .drain 1, .get,
          .put 6]).1.Shows ⟨2, [6]⟩ := by
  obtain ⟨r, hr, h⟩ := run_as_bounded_list (α := Nat) (n := 2) (by decide)
  obtain ⟨b, _, _, hrun, hshows⟩ := h [.put 1, .putAll [2, 3, 4], .get, .put 5, .peek, .walk 1,
    .drain 1, .get, .put 6]
  obtain ⟨rfl, hreplies⟩ := Prod.mk.inj hrun
  exact ⟨r, hr, hreplies.symm, hshows⟩

end Ring

end BoundedBuffer
