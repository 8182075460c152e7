import BoundedBuffer.Proofs.Queue.Effects

namespace BoundedBuffer.Queue

open Time

variable {α : Type u} {c : Settings} {s : Monitor α} {f : Flight α} {xs : List α} {now : Instant}
  {turn : Turn α}

/-- A value is only added after a look with the lock held, so a turn keeps the bound. -/
theorem Flight.Acts.fits (h : f.Acts c xs now turn) (hx : c.Fits xs) : c.Fits turn.items := by
  cases hr : turn.outcome.reply? with
  | none => rwa [(h.idles hr).1]
  | some reply => exact (h.lawful hr hx).fits hx

theorem Settings.isFull_unbounded (hc : c.bound = 0) (n : Nat) : c.isFull n = false :=
  Settings.room_iff.mpr (Or.inl hc)

theorem Flight.Acts.put_unbounded {v : α} {p : Patience} (h : f.Acts c xs now turn)
    (hc : c.bound = 0) (hf : f.call = .ask (.put v) p) :
    turn = ⟨xs ++ [v], .returns .accepted, some (.one .notEmpty), []⟩ := by
  have hopen : ∀ wish patience, f.call = .ask wish patience → wish.blocked c xs = false := by
    intro wish patience hw
    cases hf.symm.trans hw
    exact Settings.isFull_unbounded hc xs.length
  cases h with
  | waits call blocked => rw [hopen _ _ call] at blocked; cases blocked
  | refused call blocked => rw [hopen _ _ call] at blocked; cases blocked
  | put call => cases hf.symm.trans call; rfl
  | get call | peek call | clear call | drain call | size call => cases hf.symm.trans call

namespace Monitor

/-- The state inside a turn, with its signal still to be sent. A turn changes the values once at
most, so in its course they are these or those before it. -/
def amid (s : Monitor α) (e : Entry α) : Monitor α :=
  { s with items := e.turn.items }

theorem entry?_eq_some {t : Nat} {e : Entry α} (h : s.entry? c t = some e) :
    s.threads[t]? = some (some e.flight) ∧ e.flight.Acts c s.items s.clock e.turn := by
  unfold entry? at h
  split at h
  · rename_i f hf
    split at h
    · cases h
    · cases h
      exact ⟨flight?_eq_some.mp hf, f.turn_acts c _ _⟩
  · cases h

/-- The queue is never beyond its bound, full just at it, and never full and empty at once. -/
structure Bounded (c : Settings) (s : Monitor α) : Prop where
  size : s.size ≤ c.bound
  isFull : s.isFull c = true ↔ s.size = c.bound
  apart : ¬ (s.isFull c = true ∧ s.isEmpty = true)

theorem bounded_of_fits (hc : 0 < c.bound) (h : c.Fits s.items) : s.Bounded c := by
  have hsize : s.size ≤ c.bound := h.resolve_left (Nat.ne_of_gt hc)
  have hfull : s.isFull c = true ↔ s.size = c.bound := by
    rw [isFull, Settings.isFull_iff]
    omega
  refine ⟨hsize, hfull, ?_⟩
  rintro ⟨hf, he⟩
  have hnil := List.isEmpty_iff.mp he
  rw [hfull, size, hnil] at hf
  exact Nat.ne_of_gt hc hf.symm

/-- Without a bound a put has no turn but its first. -/
theorem Reachable.puts_arriving (hc : c.bound = 0) (h : Reachable c s) :
    ∀ f, some f ∈ s.threads → ∀ v p, f.call = .ask (.put v) p → f.phase = .arriving := by
  refine h.flights ?_ ?_ ?_
  · intro call clock v p _
    rfl
  · intro f xs now turn phase _ acts waiting v p hf
    rw [acts.put_unbounded hc hf] at waiting
    cases waiting
  · intro f cause hp parked v p hf
    rw [hp v p hf] at parked
    cases parked

/-- A queue with a bound is never beyond it, not even inside a turn. Without one a put returns from
its first turn, accepted. -/
theorem capacity_respected {c : Settings} {s : Monitor α} (h : Reachable c s) :
    (0 < c.bound → s.Bounded c ∧ ∀ t e, s.entry? c t = some e → (s.amid e).Bounded c) ∧
      (c.bound = 0 → (∀ n, c.isFull n = false) ∧
        ∀ t f v p, s.flight? t = some f → f.call = .ask (.put v) p →
          f.phase = .arriving ∧ s.entry? c t =
            some ⟨t, f, ⟨s.items ++ [v], .returns .accepted, some (.one .notEmpty), []⟩⟩) := by
  have hfits := fits_of_reachable h
  refine ⟨?_, ?_⟩
  · intro hc
    refine ⟨bounded_of_fits hc hfits, ?_⟩
    intro t e he
    exact bounded_of_fits hc ((entry?_eq_some he).2.fits hfits)
  · intro hc
    refine ⟨Settings.isFull_unbounded hc, ?_⟩
    intro t f v p hf hput
    have hfound := flight?_eq_some.mp hf
    have hphase := h.puts_arriving hc f (List.mem_of_getElem? hfound) v p hput
    have hturn := (f.turn_acts c s.items s.clock).put_unbounded hc hput
    exact ⟨hphase, by simp [hf, hphase, hturn, entry?]⟩

/-- A clear wakes two puts for one place, and the second parks again. Without a bound a third is as
good as served. -/
theorem capacity_respected_after_clear :
    (∃ s e, Reachable ⟨1, 0⟩ s ∧ s.entry? ⟨1, 0⟩ 2 = some e ∧ s.items = [2] ∧
      e.flight = ⟨.put 3, 0, .woken .signal⟩ ∧ e.turn.outcome = .waits .parked ∧
      s.Bounded ⟨1, 0⟩ ∧ (s.amid e).Bounded ⟨1, 0⟩) ∧
    ∃ s : Monitor Nat, Reachable ⟨0, 0⟩ s ∧ s.items = [1, 2] ∧
      s.entry? ⟨0, 0⟩ 0 = some ⟨0, ⟨.putNow 3, 0, .arriving⟩,
        ⟨[1, 2, 3], .returns .accepted, some (.one .notEmpty), []⟩⟩ := by
  have hfull : Reachable ⟨1, 0⟩ _ := @Reachable.run Nat ⟨1, 0⟩ _ _
    [.start 0 (.put 1), .turn 0 none, .start 1 (.put 2), .turn 1 none, .start 2 (.put 3),
      .turn 2 none, .start 0 .clear, .turn 0 none, .turn 1 none] _ (.idle 3 0) rfl
  have hopen : Reachable ⟨0, 0⟩ _ := @Reachable.run Nat ⟨0, 0⟩ _ _
    [.start 0 (.put 1), .turn 0 none, .start 0 (.put 2), .turn 0 none, .start 0 (.putNow 3)] _
    (.idle 1 0) rfl
  obtain ⟨hbounded, hamid⟩ := (capacity_respected hfull).1 (by decide)
  have hserved := (capacity_respected hopen).2 rfl
  exact ⟨⟨_, _, hfull, rfl, rfl, rfl, rfl, hbounded, hamid 2 _ rfl⟩,
    ⟨_, hopen, rfl, (hserved.2 0 _ 3 .none rfl rfl).2⟩⟩

end Monitor

end BoundedBuffer.Queue
