import BoundedBuffer.Proofs.Queue.Linearizability
import BoundedBuffer.Proofs.Queue.Threads

namespace BoundedBuffer.Time

/-- What a limit comes to in nanoseconds, if anything, by the way in which it is made. -/
inductive Limit.Lasts : Limit → Option Nat → Prop
  | forever : Lasts .forever none
  | default : Lasts default none
  | absent : Lasts (.ofOption none) none
  | negative {n : Int} (negative : n < 0) : Lasts (.ofMillis n) none
  | millis {n : Int} (nonneg : 0 ≤ n) : Lasts (.ofMillis n) (some (n.toNat * 1000000))
  | nonBlocking : Lasts .nonBlocking (some 0)
  | within (d : Span) : Lasts (.within d) (some d.nanoseconds)
  | present (d : Span) : Lasts (.ofOption (some d)) (some d.nanoseconds)

end BoundedBuffer.Time

namespace BoundedBuffer.Queue

open Time

variable {α : Type u} {c : Settings} {s before after : Monitor α} {ms : List (Move α)}
  {log : List (Entry α)} {t : Nat} {f g : Flight α}

namespace Patience

/-- A call with this patience does not wait at all. -/
def Hasty (p : Patience) : Prop :=
  p = .none ∨ ∃ d : Span, p = .limited (.within d) ∧ d.nanoseconds = 0

/-- A wait from this start has an end that the clock can show, and it is over. -/
def RunsOut (start now : Instant) (p : Patience) : Prop :=
  ∃ d : Span, p = .limited (.within d) ∧ d.nanoseconds ≠ 0 ∧ start + d.nanoseconds ≤ horizon ∧
    start + d.nanoseconds ≤ now

theorem deadline_poll_iff {p : Patience} {start : Instant} :
    p.deadline start = .poll ↔ p.Hasty := by
  rcases p with _ | _ | _ | d
  · simp [deadline, Hasty]
  · simp [deadline, Hasty]
  · simp [deadline, Deadline.after, Hasty]
  · simp only [deadline, Deadline.after, Hasty]
    split
    · simp_all
    · split <;> simp_all

theorem poll_or_runsOut {p : Patience} {start now : Instant}
    (h : (p.deadline start).expired now = true) :
    p.deadline start = .poll ∨ p.RunsOut start now := by
  rcases p with _ | _ | _ | d
  · cases h
  · exact Or.inl rfl
  · cases h
  · by_cases hd : d.nanoseconds = 0
    · exact Or.inl (by simp [deadline, Deadline.after, hd])
    · by_cases hs : start + d.nanoseconds ≤ horizon
      · simp only [deadline, Deadline.after, hd, hs, if_true, if_false, Deadline.expired,
          decide_eq_true_eq] at h
        exact Or.inr ⟨d, rfl, hd, hs, h⟩
      · simp [deadline, Deadline.after, hd, hs, Deadline.expired] at h

def allowance : Patience → Option Nat
  | .endless | .limited .forever => Option.none
  | .none => some 0
  | .limited (.within d) => some d.nanoseconds

theorem allowance_limited {limit : Limit} {wait : Option Nat} (h : limit.Lasts wait) :
    (limited limit).allowance = wait := by
  cases h with
  | @negative n hn =>
    cases n with
    | ofNat n => exact absurd hn (Int.not_lt.mpr (Int.natCast_nonneg n))
    | negSucc n => rfl
  | @millis n hn =>
    cases n with
    | ofNat n => rfl
    | negSucc n => exact absurd (Int.negSucc_lt_zero n) (Int.not_lt.mpr hn)
  | _ => rfl

end Patience

/-- How long a call may wait, by its form. -/
inductive Call.Lasts : Call α → Option Nat → Prop
  | put (v : α) : Lasts (.put v) none
  | get : Lasts .get none
  | peek : Lasts .peek none
  | putNow (v : α) : Lasts (.putNow v) (some 0)
  | getNow : Lasts .getNow (some 0)
  | peekNow : Lasts .peekNow (some 0)
  | putWithin (v : α) (d : Span) : Lasts (.putWithin v d) (some d.nanoseconds)
  | getWithin (d : Span) : Lasts (.getWithin d) (some d.nanoseconds)
  | peekWithin (d : Span) : Lasts (.peekWithin d) (some d.nanoseconds)
  | putBlockless (v : α) (limit : Limit) : Lasts (.putUnder v false limit) (some 0)
  | putUnder (v : α) {limit : Limit} {wait : Option Nat} (h : limit.Lasts wait) :
      Lasts (.putUnder v true limit) wait
  | getUnder {limit : Limit} {wait : Option Nat} (h : limit.Lasts wait) :
      Lasts (.getUnder limit) wait
  | peekUnder {limit : Limit} {wait : Option Nat} (h : limit.Lasts wait) :
      Lasts (.peekUnder limit) wait

theorem Call.Lasts.eq_allowance {call : Call α} {wish : Wish α} {patience : Patience}
    {wait : Option Nat} (h : call.Lasts wait) (hc : call = .ask wish patience) :
    wait = patience.allowance := by
  cases h with
  | putUnder v h | getUnder h | peekUnder h =>
    cases hc
    exact (Patience.allowance_limited h).symm
  | _ =>
    cases hc
    rfl

def Wish.Barred (c : Settings) (s : Monitor α) : Wish α → Prop
  | .put _ => s.isFull c = true
  | .get | .peek => s.items = []

theorem Wish.barred_of_blocked {wish : Wish α} (h : wish.blocked c s.items = true) :
    wish.Barred c s := by
  cases wish with
  | put v => exact h
  | get => exact List.isEmpty_iff.mp h
  | peek => exact List.isEmpty_iff.mp h

theorem Flight.Acts.of_refused {xs : List α} {now : Instant} {turn : Turn α} {refusal : Refusal α}
    (h : f.Acts c xs now turn) (ho : turn.outcome = .returns (.refused refusal)) :
    ∃ wish patience, f.call = .ask wish patience ∧ refusal = wish.refusal ∧
      wish.blocked c xs = true ∧ (patience.deadline f.start).expired now = true ∧
      turn.items = xs ∧ turn.signal = none := by
  cases h with
  | refused call blocked look =>
    cases ho
    exact ⟨_, _, call, rfl, blocked, Phase.look_late look, rfl, rfl⟩
  | _ => cases ho

namespace Moment

/-- The thread takes no turn here. -/
def Without (t : Nat) (m : Moment α) : Prop :=
  ∀ e, m.entry = some e → e.thread ≠ t

/-- If the thread takes a turn here, it changes nothing and signals nobody. -/
def Quiet (t : Nat) (m : Moment α) : Prop :=
  ∀ e, m.entry = some e → e.thread = t → m.after.items = m.before.items ∧ e.turn.signal = none

theorem Without.quiet {m : Moment α} (h : m.Without t) : m.Quiet t :=
  fun e he ht => absurd ht (h e he)

end Moment

namespace Monitor

/-- A call that is still under way has been quiet all along, and one that may not wait has had no
turn. -/
theorem run_unreturned (hf : s.threads[t]? = some (some f))
    (hr : s.run c ms = some (before, log)) (hms : ∀ call, .start t call ∉ ms)
    (hg : before.threads[t]? = some (some g)) :
    g.call = f.call ∧ g.start = f.start ∧ (∀ x ∈ moments c s ms, x.Quiet t) ∧
      (f.phase = .arriving → f.deadline = .poll → ∀ x ∈ moments c s ms, x.Without t) := by
  induction ms generalizing s f log with
  | nil =>
    cases hr
    rw [hf] at hg
    cases hg
    exact ⟨rfl, rfl, by simp [moments], by simp [moments]⟩
  | cons m ms ih =>
    obtain ⟨next, entry, rest, hs, hrest, _⟩ := run_cons.mp hr
    have hlater : ∀ call, .start t call ∉ ms := fun call hc => hms call (List.mem_cons_of_mem m hc)
    rw [moments_cons hs, List.forall_mem_cons, List.forall_mem_cons]
    cases (steps_of_step hs).fares hf with
    | stays others same =>
      obtain ⟨hcall, hstart, hquiet, hpoll⟩ := ih same hrest hlater
      have hfirst : Moment.Without t ⟨s, m, entry, next⟩ := others
      exact ⟨hcall, hstart, ⟨hfirst.quiet, hquiet⟩, fun hp hd => ⟨hfirst, hpoll hp hd⟩⟩
    | wakes others parked awake =>
      obtain ⟨hcall, hstart, hquiet, _⟩ := ih awake hrest hlater
      have hfirst : Moment.Without t ⟨s, m, entry, next⟩ := others
      refine ⟨hcall, hstart, ⟨hfirst.quiet, hquiet⟩, ?_⟩
      intro hp
      rw [parked] at hp
      cases hp
    | waits taken acts waiting items same =>
      obtain ⟨hcall, hstart, hquiet, _⟩ := ih same hrest hlater
      obtain ⟨hitems, hsignal, hwait⟩ := acts.of_waits waiting
      refine ⟨hcall, hstart, ⟨?_, hquiet⟩, fun hp hd => absurd hd (hwait hp)⟩
      intro e he _
      cases taken.symm.trans he
      exact ⟨items.trans hitems, hsignal⟩
    | ends _ _ _ _ gone =>
      -- Without another start the thread would still be in no call at the end.
      rw [run_idle hrest gone hlater] at hg
      cases hg

theorem run_started {call : Call α} (hr : s.run c (.start t call :: ms) = some (before, log))
    (hms : ∀ other, .start t other ∉ ms) (hg : before.threads[t]? = some (some g)) :
    g.call = call ∧ g.start = s.clock ∧
      (∀ x ∈ moments c s (.start t call :: ms), x.Quiet t) ∧
      (g.deadline = .poll → ∀ x ∈ moments c s (.start t call :: ms), x.Without t) := by
  obtain ⟨next, entry, rest, hstart, hrest, _⟩ := run_cons.mp hr
  rw [moments_cons hstart, List.forall_mem_cons, List.forall_mem_cons]
  cases steps_of_step hstart with
  | start idle =>
    obtain ⟨hlt, _⟩ := List.getElem?_eq_some_iff.mp idle
    have hfirst : Moment.Without t ⟨s, .start t call, none,
        s.setFlight t ⟨call, s.clock, .arriving⟩⟩ := by
      intro e he
      cases he
    obtain ⟨hcall, hclock, hquiet, hpoll⟩ :=
      run_unreturned (List.getElem?_set_self hlt) hrest hms hg
    refine ⟨hcall, hclock, ⟨hfirst.quiet, hquiet⟩, ?_⟩
    intro hd
    simp only [Flight.deadline, hcall, hclock] at hd
    exact ⟨hfirst, hpoll rfl hd⟩

theorem step_refused {waiter : Option Nat} {e : Entry α} {refusal : Refusal α}
    (hs : before.step c (.turn t waiter) = some (after, some e))
    (ho : e.turn.outcome = .returns (.refused refusal)) :
    before.threads[t]? = some (some e.flight) ∧
      after = { before with threads := before.threads.set t none } ∧
      Moment.Quiet t ⟨before, .turn t waiter, some e, after⟩ ∧
      ∃ wish patience, e.flight.call = .ask wish patience ∧ refusal = wish.refusal ∧
        wish.Barred c before ∧
        (patience.deadline e.flight.start).expired before.clock = true := by
  cases steps_of_step hs with
  | @turn _ _ g turn _ found _ acts delivered =>
    obtain ⟨wish, patience, hask, hrefusal, hblocked, hexpired, hitems, hsignal⟩ :=
      acts.of_refused ho
    have hgone : turn.outcome.flight? g = none := by
      change turn.outcome = _ at ho
      rw [ho]
      rfl
    rw [hsignal, hgone] at delivered
    cases delivered
    refine ⟨found, by rw [hitems], ?_, wish, patience, hask, hrefusal,
      Wish.barred_of_blocked hblocked, hexpired⟩
    intro x hx _
    cases hx
    exact ⟨hitems, hsignal⟩

/-- What must hold when a call that was started at this time is turned away after these moments. -/
structure Justified (c : Settings) (t : Nat) (wish : Wish α) (patience : Patience) (start : Instant)
    (path : List (Moment α)) (m : Moment α) : Prop where
  barred : wish.Barred c m.before
  unchanged : m.after = { m.before with threads := m.before.threads.set t none }
  quiet : ∀ x ∈ path ++ [m], x.Quiet t
  -- No limit at all, and one past the horizon, make a deadline that never comes.
  limited : patience.deadline start ≠ .never
  due : (patience.Hasty ∧ ∀ x ∈ path, x.Without t) ∨ patience.RunsOut start m.before.clock

/-- A call that may wait for so long has done so when it is turned away. No wait without an end is
ever done. -/
inductive Spent (t : Nat) (start now : Instant) (path : List (Moment α)) : Option Nat → Prop
  | atOnce (first : ∀ x ∈ path, x.Without t) : Spent t start now path (some 0)
  | inTime {n : Nat} (positive : n ≠ 0) (shown : start + n ≤ horizon) (past : start + n ≤ now) :
      Spent t start now path (some n)

theorem Justified.spent {wish : Wish α} {patience : Patience} {start : Instant}
    {path : List (Moment α)} {m : Moment α} (h : Justified c t wish patience start path m) :
    Spent t start m.before.clock path patience.allowance := by
  rcases h.due with ⟨hhasty, hfirst⟩ | ⟨d, rfl, hpositive, hshown, hover⟩
  · have hzero : patience.allowance = some 0 := by
      rcases hhasty with rfl | ⟨d, rfl, hd⟩
      · rfl
      · exact congrArg some hd
    rw [hzero]
    exact .atOnce hfirst
  · exact .inTime hpositive hshown hover

/-- A put is turned away at a full queue, with its value, a get or a peek at an empty one, each
only after its timeout. -/
theorem refusal_justified {c : Settings} {s before after : Monitor α} {t : Nat} {call : Call α}
    {ms : List (Move α)} {log : List (Entry α)} {waiter : Option Nat} {e : Entry α}
    {refusal : Refusal α} (hr : s.run c (.start t call :: ms) = some (before, log))
    (hms : ∀ other, .start t other ∉ ms)
    (hs : before.step c (.turn t waiter) = some (after, some e))
    (ho : e.turn.outcome = .returns (.refused refusal)) :
    (∃ wish patience, call = .ask wish patience ∧ refusal = wish.refusal ∧
      Justified c t wish patience s.clock (moments c s (.start t call :: ms))
        ⟨before, .turn t waiter, some e, after⟩) ∧
      ∀ wait, call.Lasts wait →
        Spent t s.clock before.clock (moments c s (.start t call :: ms)) wait := by
  obtain ⟨found, hafter, hlast, wish, patience, hask, hrefusal, hbarred, hexpired⟩ :=
    step_refused hs ho
  obtain ⟨hcall, hclock, hquiet, hpoll⟩ := run_started hr hms found
  simp only [Flight.deadline, hask, hclock] at hpoll
  rw [hclock] at hexpired
  have hjustified : Justified c t wish patience s.clock (moments c s (.start t call :: ms))
      ⟨before, .turn t waiter, some e, after⟩ := by
    refine ⟨hbarred, hafter, ?_, ?_, ?_⟩
    · rw [List.forall_mem_append, List.forall_mem_singleton]
      exact ⟨hquiet, hlast⟩
    · intro hn
      rw [hn] at hexpired
      cases hexpired
    · rcases Patience.poll_or_runsOut hexpired with hp | hrun
      · exact Or.inl ⟨Patience.deadline_poll_iff.mp hp, hpoll hp⟩
      · exact Or.inr hrun
  refine ⟨⟨wish, patience, hcall.symm.trans hask, hrefusal, hjustified⟩, ?_⟩
  intro wait hwait
  rw [hwait.eq_allowance (hcall.symm.trans hask)]
  exact hjustified.spent

/-- A put snoozes, parks and is woken, always too late, and is turned away after its seven
milliseconds. -/
theorem refusal_justified_after_barging :
    ∃ before after : Monitor Nat, ∃ log e,
      (⟨[1], [none, none, none], 3⟩ : Monitor Nat).run ⟨1, 1⟩
        [.start 0 (.putUnder 5 true (.ofMillis 7)), .turn 0 none, .start 1 .get, .turn 1 none,
          .start 1 (.put 2), .turn 1 none, .turn 0 none, .start 1 .get, .turn 1 (some 0),
          .start 2 (.put 4), .turn 2 none, .pass 7000000] = some (before, log) ∧
      before.step ⟨1, 1⟩ (.turn 0 none) = some (after, some e) ∧
      e.turn.outcome = .returns (.refused (.full 5)) ∧ before.items = [4] ∧
      (∃ wish patience, Call.putUnder 5 true (.ofMillis 7) = .ask wish patience ∧
        .full 5 = wish.refusal ∧
        Justified ⟨1, 1⟩ 0 wish patience 3 (moments ⟨1, 1⟩ ⟨[1], [none, none, none], 3⟩
          [.start 0 (.putUnder 5 true (.ofMillis 7)), .turn 0 none, .start 1 .get, .turn 1 none,
            .start 1 (.put 2), .turn 1 none, .turn 0 none, .start 1 .get, .turn 1 (some 0),
            .start 2 (.put 4), .turn 2 none, .pass 7000000])
          ⟨before, .turn 0 none, some e, after⟩) ∧
      3 + 7000000 ≤ before.clock := by
  obtain ⟨hjustified, hspent⟩ := @refusal_justified Nat ⟨1, 1⟩ ⟨[1], [none, none, none], 3⟩ _ _ 0
    (.putUnder 5 true (.ofMillis 7)) [.turn 0 none, .start 1 .get, .turn 1 none, .start 1 (.put 2),
      .turn 1 none, .turn 0 none, .start 1 .get, .turn 1 (some 0), .start 2 (.put 4), .turn 2 none,
      .pass 7000000] _ none _ (.full 5) rfl (by simp) rfl rfl
  cases hspent _ (.putUnder 5 (.millis (by decide))) with
  | inTime _ _ past => exact ⟨_, _, _, _, rfl, rfl, rfl, rfl, hjustified, past⟩

end Monitor

end BoundedBuffer.Queue
