import BoundedBuffer.Proofs.Queue.Linearizability
import BoundedBuffer.Proofs.Queue.Threads

namespace BoundedBuffer.Queue

open Time

variable {α : Type u} {c : Settings} {s next last : Monitor α} {m : Move α} {ms : List (Move α)}
  {entry : Option (Entry α)} {log : List (Entry α)} {t : Nat} {f : Flight α} {call : Call α}

/-- What woke the call. It is of no account before the call has parked. -/
def Phase.cause : Phase → Cause
  | .woken cause => cause
  | .arriving | .snoozing _ | .parked => .stray

theorem Phase.roused_awake {p : Phase} (hp : p ≠ .parked) (cause : Cause) :
    p.roused cause = p := by
  cases p with
  | parked => exact absurd rfl hp
  | _ => rfl

namespace Flight

theorem turns_waits {g : Glimpse α} {gs : List (Glimpse α)} {turn : Turn α} {phase : Phase}
    (hp : f.phase ≠ .parked) (ht : turn = f.turn c g.items g.now)
    (ho : turn.outcome = .waits phase) :
    f.turns c (g :: gs) = turn :: Flight.turns c { f with phase } gs := by
  subst ht
  simp only [Flight.turns, Phase.roused_awake hp, ho]

theorem turns_returns {g : Glimpse α} {gs : List (Glimpse α)} {turn : Turn α} {reply : Reply α}
    (hp : f.phase ≠ .parked) (ht : turn = f.turn c g.items g.now)
    (ho : turn.outcome = .returns reply) : f.turns c (g :: gs) = [turn] := by
  subst ht
  simp only [Flight.turns, Phase.roused_awake hp, ho]

theorem turns_wake {gs : List (Glimpse α)} {cause : Cause} (hp : f.phase = .parked)
    (hg : ∀ g ∈ gs.head?, g.cause = cause) : (f.wake cause).turns c gs = f.turns c gs := by
  cases gs with
  | nil => rfl
  | cons g gs =>
    have hcause := hg g rfl
    simp only [Flight.turns, Flight.wake, hp, Phase.roused, hcause]

end Flight

/-- What a thread meets here if it takes a turn. -/
def Moment.glimpse? (t : Nat) (m : Moment α) : Option (Glimpse α) :=
  m.entry.bind fun e =>
    if e.thread = t then some ⟨m.before.items, m.before.clock, e.flight.phase.cause⟩ else none

def Log.turnsBy (t : Nat) (log : List (Entry α)) : List (Turn α) :=
  (log.filter (·.thread == t)).map Entry.turn

theorem Log.turnsBy_append (t : Nat) (log log' : List (Entry α)) :
    turnsBy t (log ++ log') = turnsBy t log ++ turnsBy t log' := by
  simp [turnsBy]

namespace Monitor

/-- What a thread meets at its turns in a run. -/
def met (c : Settings) (s : Monitor α) (ms : List (Move α)) (t : Nat) : List (Glimpse α) :=
  (moments c s ms).filterMap (Moment.glimpse? t)

theorem met_cons (h : s.step c m = some (next, entry)) (ms : List (Move α)) (t : Nat) :
    met c s (m :: ms) t = (Moment.glimpse? t ⟨s, m, entry, next⟩).toList ++ met c next ms t := by
  rw [met, moments_cons h, List.filterMap_cons]
  cases Moment.glimpse? t ⟨s, m, entry, next⟩ <;> rfl

theorem Steps.taken {e : Entry α} (h : Steps c s m next (some e)) :
    s.threads[e.thread]? = some (some e.flight) ∧ e.flight.phase ≠ .parked ∧
      e.flight.Acts c s.items s.clock e.turn := by
  cases h with
  | turn found awake acts => exact ⟨found, awake, acts⟩

theorem Steps.items {e : Entry α} (h : Steps c s m next (some e)) :
    next.items = e.turn.items := by
  cases h
  rfl

theorem unmet (s next : Monitor α) (m : Move α) (others : ∀ e, entry = some e → e.thread ≠ t) :
    Moment.glimpse? t ⟨s, m, entry, next⟩ = none ∧ Log.turnsBy t entry.toList = [] := by
  cases entry with
  | none => exact ⟨rfl, rfl⟩
  | some e =>
    have ht := others e rfl
    simp [Moment.glimpse?, Log.turnsBy, ht]

theorem met_turn (s next : Monitor α) (m : Move α) (t : Nat) (f : Flight α) (turn : Turn α) :
    Moment.glimpse? t ⟨s, m, some ⟨t, f, turn⟩, next⟩ = some ⟨s.items, s.clock, f.phase.cause⟩ ∧
      Log.turnsBy t (some ⟨t, f, turn⟩ : Option (Entry α)).toList = [turn] := by
  simp [Moment.glimpse?, Log.turnsBy]

theorem run_idle_turnsBy (hr : s.run c ms = some (last, log)) (hn : s.threads[t]? = some none)
    (hms : ∀ call, .start t call ∉ ms) : Log.turnsBy t log = [] := by
  induction ms generalizing s log with
  | nil =>
    cases hr
    rfl
  | cons m ms ih =>
    obtain ⟨next, entry, rest, hs, hrest, rfl⟩ := run_cons.mp hr
    have hsteps := steps_of_step hs
    have hothers : ∀ e, entry = some e → e.thread ≠ t := by
      rintro e rfl rfl
      have hfound := hsteps.taken.1
      rw [hn] at hfound
      cases hfound
    have hnext := hsteps.idle hn (fun call he => hms call (he ▸ List.mem_cons_self))
    have hlater := ih hrest hnext (fun call hc => hms call (List.mem_cons_of_mem m hc))
    rw [Log.turnsBy_append, (unmet s next m hothers).2, hlater, List.nil_append]

/-- In a run a call takes the turns that it takes alone, against what it meets there. -/
theorem run_turnsBy (hf : s.threads[t]? = some (some f)) (hr : s.run c ms = some (last, log))
    (hms : ∀ call, .start t call ∉ ms) :
    Log.turnsBy t log = f.turns c (met c s ms t) ∧
      ∀ cause, f.phase = .woken cause → ∀ g ∈ (met c s ms t).head?, g.cause = cause := by
  induction ms generalizing s f log with
  | nil =>
    cases hr
    exact ⟨rfl, by simp [met, moments]⟩
  | cons m ms ih =>
    obtain ⟨next, entry, rest, hs, hrest, rfl⟩ := run_cons.mp hr
    have hsteps := steps_of_step hs
    have hlater : ∀ call, .start t call ∉ ms := fun call hc => hms call (List.mem_cons_of_mem m hc)
    rw [met_cons hs, Log.turnsBy_append]
    cases hsteps.fares hf with
    | stays others same =>
      obtain ⟨hg, hl⟩ := unmet s next m others
      rw [hg, hl]
      exact ih same hrest hlater
    | @wakes cause others parked awake =>
      obtain ⟨hg, hl⟩ := unmet s next m others
      obtain ⟨hturns, hcause⟩ := ih awake hrest hlater
      rw [hg, hl]
      refine ⟨hturns.trans (Flight.turns_wake parked (hcause cause rfl)), ?_⟩
      intro cause' hp
      rw [parked] at hp
      cases hp
    | waits taken acts waiting _ same =>
      subst taken
      obtain ⟨hg, hl⟩ := met_turn s next m t f _
      rw [hg, hl, (ih same hrest hlater).1]
      refine ⟨(Flight.turns_waits hsteps.taken.2.1 acts.eq_turn waiting).symm, ?_⟩
      rintro cause hp g ⟨⟩
      rw [hp, Phase.cause]
    | ends taken acts ended _ gone =>
      subst taken
      obtain ⟨hg, hl⟩ := met_turn s next m t f _
      rw [hg, hl, run_idle_turnsBy hrest gone hlater]
      refine ⟨(Flight.turns_returns hsteps.taken.2.1 acts.eq_turn ended).symm, ?_⟩
      rintro cause hp g ⟨⟩
      rw [hp, Phase.cause]

theorem run_start_turnsBy (hr : s.run c (.start t call :: ms) = some (last, log))
    (hms : ∀ other, .start t other ∉ ms) :
    Log.turnsBy t log = call.turns c s.clock (met c s (.start t call :: ms) t) := by
  obtain ⟨next, entry, rest, hs, hrest, rfl⟩ := run_cons.mp hr
  rw [met_cons hs]
  cases steps_of_step hs with
  | start idle =>
    obtain ⟨hlt, _⟩ := List.getElem?_eq_some_iff.mp idle
    exact (run_turnsBy (List.getElem?_set_self hlt) hrest hms).1

theorem mem_met {g : Glimpse α} (h : g ∈ met c s ms t) :
    ∃ x ∈ moments c s ms, g.items = x.before.items := by
  obtain ⟨x, hx, hg⟩ := List.mem_filterMap.mp h
  obtain ⟨e, _, he⟩ := Option.bind_eq_some_iff.mp hg
  split at he
  · cases he
    exact ⟨x, hx, rfl⟩
  · cases he

end Monitor

end BoundedBuffer.Queue
