import BoundedBuffer.Proofs.Queue.Glimpses

namespace BoundedBuffer.Queue

open Time

variable {α : Type u} {c : Settings} {f : Flight α} {wish : Wish α} {patience : Patience}
  {xs : List α} {now start : Instant} {g : Glimpse α} {gs : List (Glimpse α)}

def Event.count : Event → Nat
  | .parking _ n _ => n
  | .deadlinePassed _ n => n
  | .cleared n => n

theorem Phase.events_count {p : Phase} {verb : Verb} {n bound : Nat} {look : Look} {event : Event}
    (h : event ∈ p.events verb n bound look) : event.count = n := by
  unfold Phase.events at h
  split at h
  · rw [List.mem_singleton.mp h]; rfl
  · rw [List.mem_singleton.mp h]; rfl
  · rw [List.mem_singleton.mp h]; rfl
  · cases h

/-- An event tells of the values as they are when the lock is taken for the turn. -/
theorem Flight.Acts.events_count {turn : Turn α} (h : f.Acts c xs now turn) {event : Event}
    (he : event ∈ turn.events) : event.count = xs.length := by
  cases h with
  | waits => exact Phase.events_count he
  | refused => exact Phase.events_count he
  | clear => rw [List.mem_singleton.mp he]; rfl
  | _ => cases he

/-- The number of values with which a call is blocked. -/
def Wish.brim (c : Settings) : Wish α → Nat
  | .put _ => c.bound
  | .get | .peek => 0

theorem Wish.length_of_blocked (hb : wish.blocked c xs = true) (hx : c.Fits xs) :
    xs.length = wish.brim c := by
  cases wish with
  | put v =>
    obtain ⟨hpos, hfull⟩ := Settings.isFull_iff.mp hb
    unfold Settings.Fits at hx
    simp only [brim]
    omega
  | get => rw [List.isEmpty_iff.mp hb]; rfl
  | peek => rw [List.isEmpty_iff.mp hb]; rfl

def Turn.refuses (t : Turn α) : Bool :=
  match t.outcome with
  | .returns (.refused _) => true
  | _ => false

/-- So many times in a row the call is blocked and its time has not come. -/
def Outlasts (c : Settings) (wish : Wish α) (deadline : Deadline) (n : Nat)
    (gs : List (Glimpse α)) : Prop :=
  n ≤ gs.length ∧ ∀ g ∈ gs.take n, wish.blocked c g.items = true ∧ deadline.expired g.now = false

instance (c : Settings) (wish : Wish α) (deadline : Deadline) (n : Nat) (gs : List (Glimpse α)) :
    Decidable (Outlasts c wish deadline n gs) :=
  inferInstanceAs (Decidable (_ ∧ _))

theorem outlasts_zero (deadline : Deadline) : Outlasts c wish deadline 0 gs := by
  simp [Outlasts]

theorem not_outlasts_nil {deadline : Deadline} {n : Nat} :
    ¬ Outlasts c wish deadline (n + 1) [] := by
  simp [Outlasts]

theorem outlasts_cons {deadline : Deadline} {n : Nat} :
    Outlasts c wish deadline (n + 1) (g :: gs) ↔
      (wish.blocked c g.items = true ∧ deadline.expired g.now = false) ∧
        Outlasts c wish deadline n gs := by
  simp only [Outlasts, List.length_cons, Nat.add_le_add_iff_right, List.take_succ_cons,
    List.forall_mem_cons]
  exact ⟨fun ⟨hn, hg, hgs⟩ => ⟨hg, hn, hgs⟩, fun ⟨hg, hn, hgs⟩ => ⟨hn, hg, hgs⟩⟩

/-- The call may wait, is blocked at its first look, and outlasts its snooze rounds. -/
def Parks (c : Settings) (start : Instant) (wish : Wish α) (patience : Patience) :
    List (Glimpse α) → Prop
  | [] => False
  | g :: gs => patience.deadline start ≠ .poll ∧ wish.blocked c g.items = true ∧
      Outlasts c wish (patience.deadline start) c.rounds gs

instance (c : Settings) (start : Instant) (wish : Wish α) (patience : Patience)
    (gs : List (Glimpse α)) : Decidable (Parks c start wish patience gs) :=
  match gs with
  | [] => inferInstanceAs (Decidable False)
  | _ :: _ => inferInstanceAs (Decidable (_ ∧ _ ∧ _))

def parkingEvents (c : Settings) (wish : Wish α) : Nat → List Event
  | 0 => [.parking wish.verb (wish.brim c) c.bound]
  | _ + 1 => []

def lateEvents (c : Settings) (wish : Wish α) (refused : Bool) : List Event :=
  if refused then [.deadlinePassed wish.verb (wish.brim c)] else []

namespace Phase

theorem look_arriving (rounds : Nat) (deadline : Deadline) (now : Instant) :
    arriving.look rounds deadline now true =
      if deadline = .poll then .late else .waiting (rest rounds) := rfl

theorem look_snoozing (rounds more : Nat) (deadline : Deadline) (now : Instant) :
    (snoozing more).look rounds deadline now true =
      if deadline.expired now then .late else .waiting (rest more) := rfl

theorem look_woken (rounds : Nat) (cause : Cause) (deadline : Deadline) (now : Instant) :
    (woken cause).look rounds deadline now true =
      if deadline.expired now then .late else .waiting .parked := rfl

theorem events_arriving (c : Settings) (wish : Wish α) (n : Nat) :
    arriving.events wish.verb (wish.brim c) c.bound (.waiting (rest n)) =
      parkingEvents c wish n := by
  cases n <;> rfl

theorem events_snoozing (c : Settings) (wish : Wish α) (more n : Nat) :
    (snoozing more).events wish.verb (wish.brim c) c.bound (.waiting (rest n)) =
      parkingEvents c wish n := by
  cases n <;> rfl

end Phase

namespace Flight

/-- A look serves a call, turns it away, or makes it go on waiting. -/
inductive Looks (c : Settings) (f : Flight α) (wish : Wish α) (deadline : Deadline) (xs : List α)
    (now : Instant) (turn : Turn α) : Prop
  | served {reply : Reply α} (room : wish.blocked c xs = false)
      (ends : turn.outcome = .returns reply) (unrefused : turn.refuses = false)
      (silent : turn.events = [])
  | refused {reply : Reply α} (look : f.phase.look c.rounds deadline now true = .late)
      (ends : turn.outcome = .returns reply) (refused : turn.refuses = true)
      (events : turn.events = f.phase.events wish.verb (wish.brim c) c.bound .late)
  | waits {phase : Phase} (blocked : wish.blocked c xs = true)
      (look : f.phase.look c.rounds deadline now true = .waiting phase)
      (waits : turn.outcome = .waits phase) (unrefused : turn.refuses = false)
      (events : turn.events = f.phase.events wish.verb (wish.brim c) c.bound (.waiting phase))

theorem looks (hc : f.call = .ask wish patience) (hx : c.Fits xs) (now : Instant) :
    f.Looks c wish (patience.deadline f.start) xs now (f.turn c xs now) := by
  have acts := f.turn_acts c xs now
  generalize f.turn c xs now = turn at acts
  cases acts with
  | waits call blocked look =>
    cases hc.symm.trans call
    rw [Wish.length_of_blocked blocked hx]
    exact .waits blocked look rfl rfl rfl
  | refused call blocked look =>
    cases hc.symm.trans call
    rw [Wish.length_of_blocked blocked hx]
    exact .refused look rfl rfl rfl
  | put call room => cases hc.symm.trans call; exact .served room rfl rfl rfl
  | get call held =>
    cases hc.symm.trans call
    exact .served (by simp [Wish.blocked, held]) rfl rfl rfl
  | peek call held =>
    cases hc.symm.trans call
    exact .served (by simp [Wish.blocked, held]) rfl rfl rfl
  | clear call | drain call | size call => cases hc.symm.trans call

/-- Once it has parked, a call reports no more than that its time has passed. -/
theorem events_of_parked (hc : f.call = .ask wish patience) (hp : f.phase = .parked)
    (hx : ∀ g ∈ gs, c.Fits g.items) :
    (f.turns c gs).flatMap Turn.events = lateEvents c wish ((f.turns c gs).any Turn.refuses) := by
  -- The call stays the same one, parked, until the turn in which it ends.
  induction gs generalizing f with
  | nil => rfl
  | cons g gs ih =>
    rw [List.forall_mem_cons] at hx
    have hcause : ∀ g' ∈ (g :: gs).head?, g'.cause = g.cause := by simp
    rw [← turns_wake hp hcause]
    have hcall : (f.wake g.cause).call = .ask wish patience := hc
    have hwoken : (f.wake g.cause).phase = .woken g.cause := rfl
    generalize f.wake g.cause = f at hcall hwoken
    have hawake : f.phase ≠ .parked := by simp [hwoken]
    cases looks hcall hx.1 g.now with
    | served _ ends unrefused silent =>
      simp [turns_returns hawake rfl ends, silent, unrefused, lateEvents]
    | refused _ ends refused events =>
      simp [turns_returns hawake rfl ends, events, refused, lateEvents, hwoken, Phase.events]
    | @waits phase _ look waits unrefused events =>
      obtain rfl : phase = .parked := by
        rw [hwoken, Phase.look_woken] at look
        split at look <;> cases look
        rfl
      have hrest := ih (f := { f with phase := .parked }) hcall rfl hx.2
      simp [turns_waits hawake rfl waits, events, unrefused, hrest, hwoken, Phase.events]

theorem events_of_resting {n : Nat} (hc : f.call = .ask wish patience) (hp : f.phase = .rest n)
    (hx : ∀ g ∈ gs, c.Fits g.items) :
    parkingEvents c wish n ++ (f.turns c gs).flatMap Turn.events =
      if Outlasts c wish (patience.deadline f.start) n gs then
        parkingEvents c wish 0 ++ lateEvents c wish ((f.turns c gs).any Turn.refuses)
      else [] := by
  induction n generalizing f gs with
  | zero => rw [if_pos (outlasts_zero _), events_of_parked hc hp hx]
  | succ n ih =>
    cases gs with
    | nil => rw [if_neg not_outlasts_nil]; rfl
    | cons g gs =>
      rw [List.forall_mem_cons] at hx
      have hawake : f.phase ≠ .parked := by simp [hp, Phase.rest]
      cases looks hc hx.1 g.now with
      | served room ends _ silent =>
        rw [if_neg (by simp [outlasts_cons, room]), turns_returns hawake rfl ends]
        simp [silent, parkingEvents]
      | refused look ends _ events =>
        rw [hp, Phase.rest, Phase.look_snoozing] at look
        split at look
        · rename_i hexpired
          rw [if_neg (by simp [outlasts_cons, hexpired]), turns_returns hawake rfl ends]
          simp [events, hp, Phase.rest, Phase.events, parkingEvents]
        · cases look
      | @waits phase blocked look waits unrefused events =>
        rw [hp, Phase.rest, Phase.look_snoozing] at look
        split at look
        · cases look
        · rename_i hexpired
          cases look
          have hrest := ih (f := { f with phase := .rest n }) hc rfl hx.2
          rw [hp, Phase.rest, Phase.events_snoozing] at events
          have hsame : Outlasts c wish (patience.deadline f.start) (n + 1) (g :: gs) ↔
              Outlasts c wish (patience.deadline f.start) n gs := by
            simp [outlasts_cons, blocked, hexpired]
          simp only [turns_waits hawake rfl waits, List.flatMap_cons, events, List.any_cons,
            unrefused, Bool.false_or, hsame]
          exact hrest

/-- A call reports that it parks just if it does, and that its time has passed just if it is turned
away after that. -/
theorem events_of_arriving (hc : f.call = .ask wish patience) (hp : f.phase = .arriving)
    (hx : ∀ g ∈ gs, c.Fits g.items) :
    (f.turns c gs).flatMap Turn.events =
      if Parks c f.start wish patience gs then
        parkingEvents c wish 0 ++ lateEvents c wish ((f.turns c gs).any Turn.refuses)
      else [] := by
  cases gs with
  | nil => rfl
  | cons g gs =>
    rw [List.forall_mem_cons] at hx
    have hawake : f.phase ≠ .parked := by simp [hp]
    cases looks hc hx.1 g.now with
    | served room ends _ silent =>
      rw [if_neg (by simp [Parks, room]), turns_returns hawake rfl ends]
      simp [silent]
    | refused look ends _ events =>
      rw [hp, Phase.look_arriving] at look
      split at look
      · rename_i hpoll
        rw [if_neg (by simp [Parks, hpoll]), turns_returns hawake rfl ends]
        simp [events, hp, Phase.events]
      · cases look
    | waits blocked look waits unrefused events =>
      rw [hp, Phase.look_arriving] at look
      split at look
      · cases look
      · rename_i hpoll
        cases look
        have hrest := events_of_resting (f := { f with phase := .rest c.rounds }) hc rfl hx.2
        have hsame : Parks c f.start wish patience (g :: gs) ↔
            Outlasts c wish (patience.deadline f.start) c.rounds gs := by
          simp [Parks, blocked, hpoll]
        rw [hp, Phase.events_arriving] at events
        simp only [turns_waits hawake rfl waits, List.flatMap_cons, events, List.any_cons,
          unrefused, Bool.false_or, hsame]
        exact hrest

end Flight

def Log.eventsBy (t : Nat) (log : List (Entry α)) : List Event :=
  (turnsBy t log).flatMap Turn.events

theorem Call.turns_clear {turn : Turn α} (h : turn ∈ Call.turns c start .clear gs) :
    Call.turns c start .clear gs = [turn] ∧ ∃ vs, turn.outcome = .returns (.cleared vs) := by
  cases gs with
  | nil => cases h
  | cons g gs =>
    rw [List.mem_singleton.mp h]
    exact ⟨rfl, g.items, rfl⟩

theorem Flight.Acts.cleared {turn : Turn α} {vs : List α} (h : f.Acts c xs now turn)
    (ho : turn.outcome = .returns (.cleared vs)) :
    vs = xs ∧ turn.items = [] ∧ turn.events = [.cleared xs.length] := by
  cases h with
  | clear => cases ho; exact ⟨rfl, rfl, rfl⟩
  | _ => cases ho

theorem Call.events_drain (c : Settings) (start : Instant) (gs : List (Glimpse α)) :
    (Call.turns c start .drain gs).flatMap Turn.events = [] := by
  cases gs <;> rfl

theorem Parks.bounded {v : α} (h : Parks c start (.put v) patience gs) : 0 < c.bound := by
  cases gs with
  | nil => cases h
  | cons g gs => exact (Settings.isFull_iff.mp h.2.1).1

namespace Monitor

theorem mem_turnsBy {s last : Monitor α} {ms : List (Move α)} {log : List (Entry α)}
    {x : Moment α} {e : Entry α} (hr : s.run c ms = some (last, log)) (hx : x ∈ moments c s ms)
    (he : x.entry = some e) : e.turn ∈ Log.turnsBy e.thread log := by
  rw [← (run_moments hr).2]
  have hlog := List.mem_filterMap.mpr ⟨x, hx, he⟩
  exact List.mem_map.mpr ⟨e, List.mem_filter.mpr ⟨hlog, beq_self_eq_true _⟩, rfl⟩

/-- The events of a call tell what it did: that it went to park, that its time passed after that,
how many values a clear removed. -/
theorem events_told {c : Settings} {s last : Monitor α} {t : Nat} {call : Call α}
    {ms : List (Move α)} {log : List (Entry α)} (h : Reachable c s)
    (hr : s.run c (.start t call :: ms) = some (last, log)) (hms : ∀ other, .start t other ∉ ms) :
    (∀ wish patience, call = .ask wish patience →
      Log.eventsBy t log =
        (if Parks c s.clock wish patience (met c s (.start t call :: ms) t) then
          .parking wish.verb (wish.brim c) c.bound ::
            if (Log.turnsBy t log).any Turn.refuses then
              [.deadlinePassed wish.verb (wish.brim c)]
            else []
        else []) ∧
      (Parks c s.clock wish patience (met c s (.start t call :: ms) t) →
        ∀ v, wish = .put v → 0 < c.bound)) ∧
    (call = .clear → ∀ x ∈ moments c s (.start t call :: ms), ∀ e, x.entry = some e →
      e.thread = t → e.turn.outcome = .returns (.cleared x.before.items) ∧ x.after.items = [] ∧
        Log.eventsBy t log = [.cleared (x.before.size - x.after.size)]) ∧
    (call = .drain → Log.eventsBy t log = []) ∧
    ∀ x ∈ moments c s (.start t call :: ms), ∀ e, x.entry = some e → e.thread = t →
      ∀ event ∈ e.turn.events, event.count = x.before.size := by
  have hturns := run_start_turnsBy hr hms
  simp only [Log.eventsBy]
  refine ⟨?_, ?_, ?_, ?_⟩
  · rintro wish patience rfl
    have hx : ∀ g ∈ met c s (.start t (.ask wish patience) :: ms) t, c.Fits g.items := by
      intro g hg
      obtain ⟨x, hx, hitems⟩ := mem_met hg
      rw [hitems]
      exact fits_of_moment (fits_of_reachable h) hx
    have hevents :=
      Flight.events_of_arriving (f := ⟨.ask wish patience, s.clock, .arriving⟩) rfl rfl hx
    rw [hturns]
    refine ⟨hevents, ?_⟩
    rintro hp v rfl
    exact hp.bounded
  · rintro rfl x hx e he rfl
    have hmem := mem_turnsBy hr hx he
    rw [hturns] at hmem ⊢
    obtain ⟨hone, vs, ho⟩ := Call.turns_clear hmem
    have hsteps := steps_of_moment hx
    rw [he] at hsteps
    obtain ⟨rfl, hitems, hevents⟩ := hsteps.taken.2.2.cleared ho
    have hafter := hsteps.items.trans hitems
    refine ⟨ho, hafter, ?_⟩
    rw [hone, Monitor.size, Monitor.size, hafter]
    simp [hevents]
  · rintro rfl
    rw [hturns]
    exact Call.events_drain c _ _
  · intro x hx e he _ event hevent
    have hsteps := steps_of_moment hx
    rw [he] at hsteps
    exact hsteps.taken.2.2.events_count hevent

/-- A put snoozes, parks and is woken in vain, and its time passes. Then the queue is cleared. -/
theorem events_told_after_barging :
    ∃ s : Monitor Nat, ∃ late cleared, Reachable ⟨1, 1⟩ s ∧
      s.run ⟨1, 1⟩ [.start 0 (.putWithin 5 ⟨7⟩), .turn 0 none, .start 1 .get, .turn 1 none,
        .start 1 (.put 2), .turn 1 none, .turn 0 none, .start 1 .get, .turn 1 (some 0),
        .start 2 (.put 4), .turn 2 none, .pass 8, .turn 0 none] = some late ∧
      Log.eventsBy 0 late.2 = [.parking .put 1 1, .deadlinePassed .put 1] ∧
      s.items = [1] ∧ s.run ⟨1, 1⟩ [.start 0 .clear, .turn 0 none] = some cleared ∧
      cleared.1.items = [] ∧ Log.eventsBy 0 cleared.2 = [.cleared 1] := by
  have h : Reachable ⟨1, 1⟩ (⟨[1], [none, none, none], 3⟩ : Monitor Nat) :=
    @Reachable.run Nat _ _ _ [.start 1 (.put 1), .turn 1 none] _ (.idle 3 3) rfl
  have hput := (@events_told Nat _ _ _ 0 (.putWithin 5 ⟨7⟩) [.turn 0 none, .start 1 .get,
    .turn 1 none, .start 1 (.put 2), .turn 1 none, .turn 0 none, .start 1 .get, .turn 1 (some 0),
    .start 2 (.put 4), .turn 2 none, .pass 8, .turn 0 none] _ h rfl (by simp)).1 _ _ rfl
  obtain ⟨_, hempty, hclear⟩ := (@events_told Nat _ _ _ 0 .clear [.turn 0 none] _ h rfl
    (by simp)).2.1 rfl _ (List.mem_cons_of_mem _ List.mem_cons_self) _ rfl rfl
  exact ⟨_, _, _, h, rfl, hput.1, rfl, rfl, hempty, hclear⟩

end Monitor

end BoundedBuffer.Queue
