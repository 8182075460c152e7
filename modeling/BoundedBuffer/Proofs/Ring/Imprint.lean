import BoundedBuffer.Proofs.Ring.Occupancy
import Mathlib.Data.List.ReduceOption

namespace BoundedBuffer.Ring

/-- What shows in a ring: a value went in, one came out, or all that were left were let go. -/
inductive Deed (α : Type u) where
  | put (value : α)
  | get
  | reset

namespace Deed

variable {α : Type u}

/-- The number of puts since the last reset. The latest deed comes first in a history. -/
def puts : List (Deed α) → Nat
  | [] => 0
  | .put _ :: past => puts past + 1
  | .get :: past => puts past
  | .reset :: _ => 0

def gets : List (Deed α) → Nat
  | [] => 0
  | .put _ :: past => gets past
  | .get :: past => gets past + 1
  | .reset :: _ => 0

/-- The last value that fell on a cell, if the puts since each reset go round the `n` cells. -/
def lastOn (n i : Nat) : List (Deed α) → Option α
  | [] => none
  | .put v :: past => if puts past % n = i then some v else lastOn n i past
  | .get :: past => lastOn n i past
  | .reset :: past => lastOn n i past

theorem gets_replicate (k : Nat) (past : List (Deed α)) :
    gets (List.replicate k .get ++ past) = gets past + k := by
  induction k with
  | zero => rfl
  | succ k ih => rw [List.replicate_succ, List.cons_append, gets, ih, Nat.add_assoc]

end Deed

section

variable {σ : Type u} {α : Type v} [Cells σ α]

def accepted (r : Ring σ) : List α → List α
  | [] => []
  | v :: vs =>
    match (r.put v).reply with
    | .ok () => v :: accepted (r.put v).after vs
    | .error _ => []

/-- What a request brings about, the latest first. -/
def deeds (r : Ring σ) : Request α → List (Deed α)
  | .put v => (r.accepted [v]).map .put
  | .putAll vs => (r.accepted vs).reverse.map .put
  | .putArray vs => (r.accepted vs.toList).reverse.map .put
  | .get =>
    match r.get.reply with
    | .ok _ => [.get]
    | .error _ => []
  | .clear => [.reset]
  | .drain n =>
    match (r.drainTrail n).reply with
    | .ok t => .reset :: List.replicate t.yields.reduceOption.length .get
    | .error _ => [.reset]
  | .peek => []
  | .walk _ => []
  | .values => []

def history (r : Ring σ) : List (Request α) → List (Deed α)
  | [] => []
  | q :: qs => history (r.perform q).after qs ++ r.deeds q

end

variable {r : Ring ByteCells} {n : Nat} {past : List (Deed UInt8)}

theorem get_cells (r : Ring ByteCells) : r.get.after.cells = r.cells := by
  unfold Ring.get
  split
  split
  · rfl
  · split <;> simp_all [Cells.take]

theorem drainTrail_cells (r : Ring ByteCells) (m : Nat) : (r.drainTrail m).after.cells = r.cells :=
  drainTrail_keeps (P := fun s => s.cells = r.cells) (fun s h => (get_cells s).trans h) rfl m

/-- The window and the bytes of the ring are what its history says. -/
structure Recorded (n : Nat) (past : List (Deed UInt8)) (r : Ring ByteCells) : Prop where
  holds : ∃ values, r.Holds ⟨n, values⟩
  puts : Deed.puts past = Deed.gets past + r.count
  head : r.window.head = Deed.gets past % n
  cells : ∀ i < n, r.cells.bytes[i]? = some ((Deed.lastOn n i past).getD 0)

namespace Recorded

theorem allocate (hn : 0 < n) : Recorded n [] (allocate ByteCells n) where
  holds := ⟨[], .allocate hn⟩
  puts := rfl
  head := (Nat.zero_mod n).symm
  cells i hi := by simp [Ring.allocate, Cells.ofLength, ByteCells.ofLength, Deed.lastOn, hi]

/-- The cell behind the values is the one on which the next put falls. -/
theorem tail (h : Recorded n past r) : r.window.index r.window.count = Deed.puts past % n := by
  obtain ⟨values, hv⟩ := h.holds
  have hcapacity : r.window.capacity = n := hv.capacity
  have hfits : r.window.count ≤ r.window.capacity := by
    rw [hv.count, hv.capacity]
    exact hv.fits
  rw [Window.index_eq_mod hv.head_lt hfits, hcapacity, h.head, h.puts, Nat.mod_add_mod]
  rfl

theorem put (h : Recorded n past r) (v : UInt8) :
    (r.put v = ⟨r, .error (.full v), []⟩) ∨
      ((r.put v).reply = .ok () ∧ Recorded n (.put v :: past) (r.put v).after ∧
        (r.put v).after.cells.bytes = r.cells.bytes.setIfInBounds (Deed.puts past % n) v) := by
  obtain ⟨values, hv⟩ := h.holds
  rcases Nat.lt_or_eq_of_le hv.fits with hroom | hfull
  · obtain ⟨hreply, hnext⟩ := hv.put hroom v
    have hsize : r.cells.bytes.size = n := hv.length
    have hbytes : (r.put v).after.cells.bytes =
        r.cells.bytes.setIfInBounds (Deed.puts past % n) v := by
      rw [hv.put_eq hroom, h.tail]
      simp only [Cells.write, ByteCells.write, Array.setIfInBounds]
      split <;> rfl
    refine Or.inr ⟨hreply, ⟨⟨_, hnext⟩, ?_, ?_, ?_⟩, hbytes⟩
    · rw [hnext.count_eq, Deed.puts, Deed.gets, h.puts, hv.count_eq]
      simp [Nat.add_assoc]
    · rw [hv.put_eq hroom]
      exact h.head
    · intro i hi
      rw [hbytes, Array.getElem?_setIfInBounds, Deed.lastOn]
      split
      · rename_i he
        simp [he, hsize, hi]
      · exact h.cells i hi
  · exact Or.inl (hv.put_full hfull v)

theorem get (h : Recorded n past r) :
    (r.get = ⟨r, .error .empty, []⟩) ∨
      ∃ v, r.get.reply = .ok v ∧ Recorded n (.get :: past) r.get.after := by
  obtain ⟨values, hv⟩ := h.holds
  cases values with
  | nil => exact Or.inl (hv.get_empty rfl)
  | cons v vs =>
    obtain ⟨hreply, hnext⟩ := hv.get rfl
    have hcapacity : r.window.capacity = n := hv.capacity
    refine Or.inr ⟨v, hreply, ⟨_, hnext⟩, ?_, ?_, ?_⟩
    · have hputs := h.puts
      rw [hv.count_eq, List.length_cons] at hputs
      rw [hnext.count_eq, Deed.puts, Deed.gets, hputs]
      simp only
      omega
    · rw [hv.get_eq rfl]
      have hone : 1 ≤ r.window.capacity := Nat.zero_lt_of_lt hv.head_lt
      simp only [Window.shrink_head]
      rw [Window.index_eq_mod hv.head_lt hone, hcapacity, h.head, Nat.mod_add_mod]
      rfl
    · intro i hi
      rw [get_cells]
      exact h.cells i hi

theorem clear (h : Recorded n past r) : Recorded n (.reset :: past) r.clear.after where
  holds := by
    obtain ⟨values, hv⟩ := h.holds
    exact ⟨[], hv.clear⟩
  puts := rfl
  head := (Nat.zero_mod n).symm
  cells := h.cells

theorem putAll (h : Recorded n past r) (vs : List UInt8) :
    Recorded n ((r.accepted vs).reverse.map .put ++ past) (r.putAll vs).after := by
  induction vs generalizing r past with
  | nil => exact h
  | cons v vs ih =>
    rcases h.put v with hp | ⟨hp, hnext, _⟩
    · simpa [accepted, Ring.putAll, hp] using h
    · rw [putAll_cons vs hp]
      simpa [accepted, hp] using ih hnext

theorem drainTrail (h : Recorded n past r) (m : Nat) :
    ∃ t, (r.drainTrail m).reply = .ok t ∧
      Recorded n (List.replicate t.yields.reduceOption.length .get ++ past)
        (r.drainTrail m).after := by
  induction m generalizing r past with
  | zero => exact ⟨_, rfl, h⟩
  | succ m ih =>
    rcases h.get with hg | ⟨v, hg, hnext⟩
    · have hd : r.drainNext = ⟨r, .ok none, []⟩ := by simp [Ring.drainNext, hg]
      obtain ⟨t, ht, hlast⟩ := ih h
      refine ⟨.cons (.exact r.count) none t, ?_, ?_⟩
      · simp [Ring.drainTrail, hd, ht, Except.map]
      · simpa [Ring.drainTrail, hd, Trail.cons] using hlast
    · rcases hr : r.get with ⟨next, reply, lost⟩
      rw [hr] at hg hnext
      dsimp only at hg hnext
      subst hg
      have hd : r.drainNext = ⟨next, .ok (some v), lost⟩ := by simp [Ring.drainNext, hr]
      obtain ⟨t, ht, hlast⟩ := ih hnext
      refine ⟨.cons (.exact r.count) (some v) t, ?_, ?_⟩
      · simp [Ring.drainTrail, hd, ht, Except.map]
      · simpa [Ring.drainTrail, hd, Trail.cons, List.replicate_succ'] using hlast

theorem perform (h : Recorded n past r) (q : Request UInt8) :
    Recorded n (r.deeds q ++ past) (r.perform q).after := by
  cases q with
  | put v =>
    rcases h.put v with hp | ⟨hp, hnext, _⟩
    · simpa [deeds, accepted, Ring.perform, hp] using h
    · simpa [deeds, accepted, Ring.perform, hp] using hnext
  | get =>
    rcases h.get with hg | ⟨v, hg, hnext⟩
    · simpa [deeds, Ring.perform, hg] using h
    · simpa [deeds, Ring.perform, hg] using hnext
  | putAll vs => exact h.putAll vs
  | putArray vs => exact h.putAll vs.toList
  | clear => exact h.clear
  | drain m =>
    obtain ⟨t, ht, hlast⟩ := h.drainTrail m
    have hend := hlast.clear
    simp only [deeds, ht]
    exact hend
  | peek => exact h
  | walk m => exact h
  | values => exact h

theorem run (h : Recorded n past r) (qs : List (Request UInt8)) :
    Recorded n (r.history qs ++ past) (r.run qs).1 := by
  induction qs generalizing r past with
  | nil => exact h
  | cons q qs ih =>
    rw [history, List.append_assoc]
    exact ih (h.perform q)

theorem putAll_cells (h : Recorded n past r) (vs : List UInt8) (hvs : r.accepted vs = []) :
    (r.putAll vs).after.cells = r.cells := by
  cases vs with
  | nil => rfl
  | cons v vs =>
    rcases h.put v with hp | ⟨hp, _⟩
    · simp [Ring.putAll, hp]
    · simp [accepted, hp] at hvs

theorem perform_cells (h : Recorded n past r) {q : Request UInt8}
    (hq : ∀ v, Deed.put v ∉ r.deeds q) : (r.perform q).after.cells = r.cells := by
  cases q with
  | put v =>
    rcases h.put v with hp | ⟨hp, _⟩
    · simp [Ring.perform, hp]
    · exact absurd (by simp [deeds, accepted, hp]) (hq v)
  | get => exact get_cells r
  | putAll vs =>
    exact h.putAll_cells vs (by simpa [deeds, List.eq_nil_iff_forall_not_mem] using hq)
  | putArray vs =>
    exact h.putAll_cells vs.toList (by simpa [deeds, List.eq_nil_iff_forall_not_mem] using hq)
  | clear => rfl
  | drain m => exact drainTrail_cells r m
  | peek => rfl
  | walk m => rfl
  | values => rfl

/-- A bulk put is the puts of those of its values that get in. -/
theorem putAll_eq_foldl (h : Recorded n past r) (vs : List UInt8) :
    (r.putAll vs).after = (r.accepted vs).foldl (fun s v => (s.put v).after) r := by
  induction vs generalizing r past with
  | nil => rfl
  | cons v vs ih =>
    rcases h.put v with hp | ⟨hp, hnext, _⟩
    · simp [accepted, Ring.putAll, hp]
    · rw [putAll_cons vs hp]
      simpa [accepted, hp] using ih hnext

end Recorded

/-- The history tells the head and all bytes. Only a put that gets in changes one, that of the cell
whose turn it is. -/
structure Imprinted (n : Nat) (past : List (Deed UInt8)) (r : Ring ByteCells) : Prop where
  head : r.window.head = Deed.gets past % n
  size : r.cells.bytes.size = n
  cells : ∀ i < n, r.cells.bytes[i]? = some ((Deed.lastOn n i past).getD 0)
  put : ∀ v, (r.put v).reply = .ok () →
    (r.put v).after.cells.bytes = r.cells.bytes.setIfInBounds (Deed.puts past % n) v
  bulk : ∀ vs, (r.putAll vs).after = (r.accepted vs).foldl (fun s v => (s.put v).after) r
  kept : ∀ q, (∀ v, Deed.put v ∉ r.deeds q) → (r.perform q).after.cells = r.cells
  drawn : ∀ m, ∃ t, (r.drainTrail m).reply = .ok t ∧ (r.drainTrail m).after.cells = r.cells ∧
    (r.drainTrail m).after.window.head = (Deed.gets past + t.yields.reduceOption.length) % n

theorem Recorded.imprinted (h : Recorded n past r) : r.Imprinted n past where
  head := h.head
  size := by
    obtain ⟨values, hv⟩ := h.holds
    exact hv.length
  cells := h.cells
  put v hreply := by
    rcases h.put v with hp | ⟨_, _, hbytes⟩
    · rw [hp] at hreply
      cases hreply
    · exact hbytes
  bulk := h.putAll_eq_foldl
  kept q hq := h.perform_cells hq
  drawn m := by
    obtain ⟨t, ht, hlast⟩ := h.drainTrail m
    refine ⟨t, ht, drainTrail_cells r m, ?_⟩
    rw [hlast.head, Deed.gets_replicate]

/-- The head counts the gets since the last reset, round the cells, and each byte is the last put
that fell on its cell, or zero. -/
theorem bytes_tell_history {n : Nat} (hn : 0 < n) :
    ∃ r : Ring ByteCells, ofCapacity ByteCells n = .ok r ∧
      ∀ qs : List (Request UInt8), (r.run qs).1.Imprinted n (r.history qs) := by
  refine ⟨_, ofCapacity_pos _ hn, ?_⟩
  intro qs
  have hlast := (Recorded.allocate hn).run qs
  rw [List.append_nil] at hlast
  exact hlast.imprinted

/-- A full ring refuses a value, wraps, and is reset by a drain and by a clear; one old byte is
left. -/
theorem bytes_tell_history_through_resets :
    ∃ r : Ring ByteCells, ofCapacity ByteCells 3 = .ok r ∧
      r.history [.putAll [1, 2, 3, 4], .get, .put 5, .drain 1, .put 6, .get, .clear,
          .putArray #[7, 8]] =
        [.put 8, .put 7, .reset, .get, .put 6, .reset, .get, .put 5, .get, .put 3, .put 2, .put 1] ∧
      (r.run [.putAll [1, 2, 3, 4], .get, .put 5, .drain 1, .put 6, .get, .clear,
          .putArray #[7, 8]]).1.cells.bytes = #[7, 8, 3] ∧
      (r.run [.putAll [1, 2, 3, 4], .get, .put 5, .drain 1, .put 6, .get, .clear,
          .putArray #[7, 8]]).1.Imprinted 3 (r.history [.putAll [1, 2, 3, 4], .get, .put 5,
            .drain 1, .put 6, .get, .clear, .putArray #[7, 8]]) := by
  obtain ⟨r, hr, h⟩ := @bytes_tell_history 3 (by decide)
  have hlast := h [.putAll [1, 2, 3, 4], .get, .put 5, .drain 1, .put 6, .get, .clear,
    .putArray #[7, 8]]
  cases hr
  exact ⟨_, rfl, rfl, rfl, hlast⟩

end BoundedBuffer.Ring
