import BoundedBuffer.Proofs.Queue.Termination
import BoundedBuffer.Proofs.Queue.Threads

namespace BoundedBuffer.Queue

open Time

variable {α : Type u} {c : Settings} {s next last : Monitor α} {m : Move α} {ms : List (Move α)}
  {entry : Option (Entry α)} {log : List (Entry α)} {t : Nat} {f g : Flight α}

namespace Phase

/-- The call has gone to park, and may have been woken since. -/
def HasParked : Phase → Prop
  | .parked | .woken _ => True
  | .arriving | .snoozing _ => False

theorem HasParked.look {p q : Phase} {rounds : Nat} {deadline : Deadline} {now : Instant}
    {b : Bool} (hp : p.HasParked) (h : p.look rounds deadline now b = .waiting q) :
    q.HasParked := by
  cases b with
  | false => rw [p.look_ready] at h; cases h
  | true =>
    cases p with
    | arriving => cases hp
    | snoozing => cases hp
    | parked | woken =>
      simp only [Phase.look, Bool.not_true, Bool.false_eq_true, if_false] at h
      split at h <;> cases h
      exact trivial

theorem HasParked.toil_le {p : Phase} {rounds : Nat} (h : p.HasParked) : p.toil rounds ≤ 1 := by
  cases p with
  | parked | woken => simp [toil]
  | arriving | snoozing => cases h

end Phase

/-- The call waits over and over, and would start a new wait in this turn. -/
def Flight.Restarts (c : Settings) (f : Flight α) (xs : List α) (now : Instant) : Prop :=
  ∃ wish, f.call = .ask wish .endless ∧
    f.phase.look c.rounds f.deadline now (f.blocked c xs) = .late

theorem Flight.not_restarts (c : Settings) (f : Flight α) (xs : List α) (now : Instant) :
    ¬ f.Restarts c xs now := by
  rintro ⟨wish, hc, hl⟩
  simp only [deadline, hc] at hl
  exact f.phase.look_endless_ne_late _ _ _ _ hl

namespace Move

/-- Nothing from outside is in the move: a call under way takes its turn, or time passes. -/
def Internal : Move α → Prop
  | .turn .. | .pass _ => True
  | .start .. | .expire _ | .stray _ => False

def toil (c : Settings) (threads : Nat) : Move α → Nat
  | .start .. => threads + c.rounds + 1
  | .expire _ | .stray _ => 1
  | .turn .. | .pass _ => 0

theorem Internal.toil (h : m.Internal) (threads : Nat) : m.toil c threads = 0 := by
  cases m with
  | turn | pass => rfl
  | start | expire | stray => cases h

end Move

namespace Monitor

theorem toil_wake (found : s.threads[t]? = some (some f)) (parked : f.phase = .parked)
    (cause : Cause) : (s.setFlight t (f.wake cause)).toil c = s.toil c + 1 := by
  have hset := sum_map_set (load c s.threads.length) (some (f.wake cause)) found
  have hnew : load c s.threads.length (some (f.wake cause)) = s.threads.length + 1 := rfl
  have hold : load c s.threads.length (some f) = s.threads.length + f.phase.toil c.rounds := rfl
  rw [parked, Phase.toil] at hold
  simp only [toil, loads, setFlight, List.length_set]
  omega

theorem Steps.toil (h : Steps c s m next entry) :
    next.toil c + entry.toList.length ≤ s.toil c + m.toil c s.threads.length := by
  cases m with
  | turn t waiter =>
    have hless := toil_turn h
    have hone : entry.toList.length ≤ 1 := by cases entry <;> simp
    omega
  | start t call =>
    have hstart := toil_start h
    cases h
    exact Nat.le_of_eq hstart
  | expire t =>
    cases h with
    | expire found parked => exact Nat.le_of_eq (toil_wake found parked _)
  | stray t =>
    cases h with
    | stray found parked => exact Nat.le_of_eq (toil_wake found parked _)
  | pass span =>
    cases h
    exact Nat.le_refl _

/-- The turns of a run are paid for by what was to be done before it, and by starts and wake-ups
from outside. -/
theorem run_toil (hr : s.run c ms = some (last, log)) :
    last.toil c + log.length ≤ s.toil c + (ms.map (Move.toil c s.threads.length)).sum := by
  induction ms generalizing s log with
  | nil =>
    cases hr
    exact Nat.le_refl _
  | cons m ms ih =>
    obtain ⟨next, entry, rest, hs, hrest, rfl⟩ := run_cons.mp hr
    have hsteps := steps_of_step hs
    have hfirst := hsteps.toil
    have hrest := ih hrest
    rw [hsteps.length] at hrest
    simp only [List.map_cons, List.sum_cons, List.length_append]
    omega

theorem Reachable.phase_toil_le (h : Reachable c s) :
    ∀ f, some f ∈ s.threads → f.phase.toil c.rounds ≤ c.rounds + 1 := by
  refine h.flights ?_ ?_ ?_
  · intro call clock
    exact Nat.le_refl _
  · intro f xs now turn phase hf acts waiting
    cases acts with
    | waits call blocked look =>
      cases waiting
      by_cases hp : f.phase = .parked
      · have hparked : f.phase.HasParked := by rw [hp]; exact trivial
        exact Nat.le_trans (hparked.look look).toil_le (Nat.le_add_left 1 c.rounds)
      · exact Nat.le_trans (Nat.le_of_lt (Phase.toil_look look hp)) hf
    | _ => cases waiting
  · intro f cause _ _
    exact Nat.le_add_left 1 c.rounds

theorem loads_le {k : Nat} {threads : List (Option (Flight α))}
    (h : ∀ f, some f ∈ threads → f.phase.toil c.rounds ≤ c.rounds + 1) :
    loads c k threads ≤ threads.countP Option.isSome * (k + c.rounds + 1) := by
  induction threads with
  | nil => exact Nat.zero_le _
  | cons thread threads ih =>
    have hrest := ih (fun f hf => h f (List.mem_cons_of_mem thread hf))
    simp only [loads, List.map_cons, List.sum_cons] at hrest ⊢
    cases thread with
    | none => simpa [load] using hrest
    | some f =>
      have hf := h f List.mem_cons_self
      simp only [load, List.countP_cons, Option.isSome_some, if_true, Nat.succ_mul]
      omega

/-- A call under way has its own turns before it, and one for each thread that it may wake. -/
theorem Reachable.toil_le (h : Reachable c s) :
    s.toil c ≤ s.pending * (s.threads.length + c.rounds + 1) :=
  loads_le h.phase_toil_le

theorem run_hasParked (hf : s.threads[t]? = some (some f)) (hp : f.phase.HasParked)
    (hr : s.run c ms = some (last, log)) (hms : ∀ call, .start t call ∉ ms)
    (hg : last.threads[t]? = some (some g)) : g.phase.HasParked := by
  induction ms generalizing s f log with
  | nil =>
    cases hr
    rw [hf] at hg
    cases hg
    exact hp
  | cons m ms ih =>
    obtain ⟨next, entry, rest, hs, hrest, _⟩ := run_cons.mp hr
    have hlater : ∀ call, .start t call ∉ ms := fun call hc => hms call (List.mem_cons_of_mem m hc)
    cases (steps_of_step hs).fares hf with
    | stays _ same => exact ih same hp hrest hlater
    | wakes _ _ awake => exact ih awake trivial hrest hlater
    | waits _ acts waiting _ same =>
      cases acts with
      | waits _ _ look =>
        cases waiting
        exact ih same (hp.look look) hrest hlater
      | _ => cases waiting
    | ends _ _ _ _ gone =>
      rw [run_idle hrest gone hlater] at hg
      cases hg

/-- Some time passes and then a call takes its turn, whoever is woken in it. -/
def Goes (c : Settings) (s next : Monitor α) : Prop :=
  ∃ span t waiter entry,
    step c { s with clock := s.clock + span } (.turn t waiter) = some (next, entry)

theorem Goes.toil (h : s.Goes c next) : next.toil c < s.toil c := by
  obtain ⟨span, t, waiter, entry, hs⟩ := h
  exact @toil_turn _ _ { s with clock := s.clock + span } _ _ _ _ (steps_of_step hs)

theorem wellFounded_goes (c : Settings) : WellFounded fun next s : Monitor α => s.Goes c next :=
  Subrelation.wf Goes.toil (measure (toil c)).wf

/-- Without starts and wake-ups from outside, the calls under way run out of turns, whoever is
woken first. None starts a second wait. -/
theorem cascades_end {c : Settings} {s : Monitor α} (h : Reachable c s) :
    Acc (fun next s : Monitor α => s.Goes c next) s ∧
      (∀ ms last log, s.run c ms = some (last, log) → (∀ m ∈ ms, m.Internal) →
        log.length ≤ s.pending * (s.threads.length + c.rounds + 1)) ∧
      (∀ ms last log t f g, s.run c ms = some (last, log) → (∀ call, .start t call ∉ ms) →
        s.threads[t]? = some (some f) → last.threads[t]? = some (some g) →
        f.phase.HasParked → g.phase.HasParked) ∧
      ∀ t e, s.entry? c t = some e → ¬ e.flight.Restarts c s.items s.clock := by
  refine ⟨(wellFounded_goes c).apply s, ?_, ?_, ?_⟩
  · intro ms last log hr hms
    have hpaid := run_toil hr
    have hfree : (ms.map (Move.toil c s.threads.length)).sum = 0 := by
      rw [List.sum_eq_zero_iff_forall_eq_nat, List.forall_mem_map]
      exact fun m hm => (hms m hm).toil _
    have hle := h.toil_le
    omega
  · intro ms last log t f g hr hms hf hg hp
    exact run_hasParked hf hp hr hms hg
  · intro t e _
    exact e.flight.not_restarts c s.items s.clock

/-- A put wakes a peek, and the peek a get, which parks again because another get was first. -/
theorem cascades_end_after_barging :
    ∃ s last : Monitor Nat, ∃ log, Reachable ⟨1, 1⟩ s ∧
      s.run ⟨1, 1⟩ [.turn 2 (some 0), .turn 3 none, .turn 0 (some 1), .turn 4 none,
        .turn 1 none] = some (last, log) ∧
      Acc (fun next s : Monitor Nat => s.Goes ⟨1, 1⟩ next) s ∧
      log.length = 5 ∧ log.length ≤ s.pending * (s.threads.length + 1 + 1) ∧
      last.threads = [none, some ⟨.get, 0, .parked⟩, none, some ⟨.put 9, 0, .snoozing 0⟩, none] ∧
      Phase.parked.HasParked := by
  have h : Reachable ⟨1, 1⟩ (⟨[], [some ⟨.peek, 0, .parked⟩, some ⟨.get, 0, .parked⟩,
      some ⟨.put 7, 0, .arriving⟩, some ⟨.put 9, 0, .arriving⟩,
      some ⟨.getNow, 0, .arriving⟩], 0⟩ : Monitor Nat) :=
    @Reachable.run Nat _ _ _ [.start 0 .peek, .turn 0 none, .turn 0 none, .start 1 .get,
      .turn 1 none, .turn 1 none, .start 2 (.put 7), .start 3 (.put 9), .start 4 .getNow] _
      (.idle 5 0) rfl
  obtain ⟨hacc, hturns, hparked, _⟩ := cascades_end h
  have hlog := hturns [.turn 2 (some 0), .turn 3 none, .turn 0 (some 1), .turn 4 none, .turn 1 none]
    _ _ rfl (by simp [Move.Internal])
  have hget := hparked [.turn 2 (some 0), .turn 3 none, .turn 0 (some 1), .turn 4 none,
    .turn 1 none] _ _ 1 ⟨.get, 0, .parked⟩ ⟨.get, 0, .parked⟩ rfl (by simp) rfl rfl trivial
  exact ⟨_, _, _, h, rfl, hacc, rfl, hlog, rfl, hget⟩

end Monitor

end BoundedBuffer.Queue
