import BoundedBuffer.Proofs.Queue.Linearizability
import BoundedBuffer.Proofs.Queue.Termination
import BoundedBuffer.Proofs.Queue.Wakeups
import BoundedBuffer.Queue.Schedule

namespace BoundedBuffer

theorem Time.Deadline.unexpired_of_le {deadline : Time.Deadline} {now later : Time.Instant}
    (hle : now ≤ later) (h : deadline.expired later = false) : deadline.expired now = false := by
  cases deadline with
  | poll => cases h
  | never => rfl
  | due i =>
    simp only [Time.Deadline.expired, decide_eq_false_iff_not] at h ⊢
    intro hi
    exact h (Nat.le_trans hi hle)

namespace Queue

open Time

variable {α : Type u} {c : Settings} {s next last : Monitor α} {m : Move α} {ms : List (Move α)}
  {entry : Option (Entry α)} {log rest : List (Entry α)} {now : Instant}

theorem Log.received_toList (entry : Option (Entry α)) :
    Log.received entry.toList = ((entry.bind Entry.ended?).bind Ended.got?).toList := by
  rw [Log.received, Log.ended, filterMap_toList, filterMap_toList]

theorem Log.accepted_toList (entry : Option (Entry α)) :
    Log.accepted entry.toList = ((entry.bind Entry.ended?).bind Ended.put?).toList := by
  rw [Log.accepted, Log.ended, filterMap_toList, filterMap_toList]

theorem Flight.Acts.served {f : Flight α} {xs : List α} {turn : Turn α} {reply : Reply α}
    (h : f.Acts c xs now turn) (hr : turn.outcome.reply? = some reply)
    (hd : f.deadline.expired now = false) :
    (∃ wish patience, f.call = .ask wish patience) ∧ ∀ refusal, reply ≠ .refused refusal := by
  cases h with
  | waits => cases hr
  | refused call _ look =>
    have hexpired := Phase.look_late look
    simp [deadline, call, hexpired] at hd
  | put call => cases hr; exact ⟨⟨_, _, call⟩, by simp⟩
  | get call => cases hr; exact ⟨⟨_, _, call⟩, by simp⟩
  | peek call => cases hr; exact ⟨⟨_, _, call⟩, by simp⟩
  | clear call => simp [deadline, call, Deadline.expired] at hd
  | drain call => simp [deadline, call, Deadline.expired] at hd
  | size call => simp [deadline, call, Deadline.expired] at hd

theorem Flight.awake_of_restless {f : Flight α} {xs : List α} (h : f.restless c xs = true) :
    f.phase ≠ .parked := by
  intro hp
  simp [restless, hp] at h

theorem Flight.condition?_of_gets :
    {f : Flight α} → f.call.gets = true → f.condition? = some .notEmpty
  | ⟨.ask .get _, _, _⟩, _ => rfl

theorem Flight.condition?_of_puts :
    {f : Flight α} → f.call.puts = true → f.condition? = some .notFull
  | ⟨.ask (.put _) _, _, _⟩, _ => rfl

theorem Flight.blocked_openings {f : Flight α} {xs : List α} {q : Condition}
    (hb : f.blocked c xs = true) (hq : f.condition? = some q) : c.openings xs q = 0 := by
  cases hc : f.call with
  | ask wish patience =>
    rw [condition?_ask hc] at hq
    cases hq
    apply Wish.blocked_openings
    simpa [blocked, hc] using hb
  | _ => simp [blocked, hc] at hb

/-- Unless it is turned away, a get removes a value and a put adds one; no other waiting call does
either. -/
theorem Sequential.moved {xs ys : List α} {d : Ended α} {wish : Wish α} {patience : Patience}
    (h : Sequential c xs d.call d.reply ys) (hc : d.call = .ask wish patience)
    (hr : ∀ refusal, d.reply ≠ .refused refusal) :
    d.got?.toList.length = (if d.call.gets then 1 else 0) ∧
      d.put?.toList.length = (if d.call.puts then 1 else 0) := by
  obtain ⟨t, call, reply⟩ := d
  cases hc
  cases h with
  | put => exact ⟨rfl, rfl⟩
  | get => exact ⟨rfl, rfl⟩
  | peek => exact ⟨rfl, rfl⟩
  | full => exact absurd rfl (hr _)
  | getEmpty => exact absurd rfl (hr _)
  | peekEmpty => exact absurd rfl (hr _)

namespace Monitor

/-- The number of calls of a kind under way. -/
def inFlight (p : Call α → Bool) (s : Monitor α) : Nat :=
  s.calls.countP (Option.any p)

/-- Every call under way may wait, and its time has not come. -/
def Unhurried (s : Monitor α) (now : Instant) : Prop :=
  ∀ f, some f ∈ s.threads → f.deadline.expired now = false

theorem Unhurried.earlier {later : Instant} (h : s.Unhurried later) (hle : now ≤ later) :
    s.Unhurried now :=
  fun f hf => Deadline.unexpired_of_le hle (h f hf)

theorem Steps.unhurried (h : Steps c s m next entry) (hm : ∀ t call, m ≠ .start t call)
    (hu : s.Unhurried now) : next.Unhurried now := by
  apply h.flights ?_ ?_ ?_ hu
  · intro t call he
    exact absurd he (hm t call)
  · intro f xs now' turn phase hf _ _
    exact hf
  · intro f cause hf _
    exact hf

theorem Steps.clock_le (h : Steps c s m next entry) : s.clock ≤ next.clock := by
  cases h with
  | pass => exact Nat.le_add_right _ _
  | _ => exact Nat.le_refl _

theorem run_clock_le (hr : s.run c ms = some (last, log)) : s.clock ≤ last.clock := by
  induction ms generalizing s log with
  | nil =>
    cases hr
    exact Nat.le_refl _
  | cons m ms ih =>
    obtain ⟨next, entry, rest, hs, hr, _⟩ := run_cons.mp hr
    exact Nat.le_trans (steps_of_step hs).clock_le (ih hr)

theorem Steps.served {d : Ended α} (h : Steps c s m next entry) (hu : s.Unhurried s.clock)
    (he : entry.bind Entry.ended? = some d) :
    (∃ wish patience, d.call = .ask wish patience) ∧ ∀ refusal, d.reply ≠ .refused refusal := by
  cases h with
  | turn found awake acts =>
    obtain ⟨reply, hr, rfl⟩ := Option.map_eq_some_iff.mp he
    exact acts.served hr (hu _ (List.mem_of_getElem? found))
  | _ => cases he

/-- The gets and puts that are gone were served, and account for the values. -/
structure Balanced (s last : Monitor α) (log : List (Entry α)) : Prop where
  gets : last.inFlight Call.gets + (Log.received log).length = s.inFlight Call.gets
  puts : last.inFlight Call.puts + (Log.accepted log).length = s.inFlight Call.puts
  size : last.size + (Log.received log).length = s.size + (Log.accepted log).length

theorem Balanced.trans (h : Balanced s next log) (h' : Balanced next last rest) :
    Balanced s last (log ++ rest) := by
  have hgets := h.gets
  have hputs := h.puts
  have hsize := h.size
  have hgets' := h'.gets
  have hputs' := h'.puts
  have hsize' := h'.size
  constructor <;>
  · simp only [Log.received, Log.accepted, Log.ended, List.filterMap_append,
      List.length_append] at *
    omega

theorem Steps.balanced (h : Steps c s m next entry) (hx : c.Fits s.items)
    (hm : ∀ t call, m ≠ .start t call) (hu : s.Unhurried s.clock) :
    Balanced s next entry.toList := by
  have hreceived := Log.received_toList entry
  have haccepted := Log.accepted_toList entry
  cases effect_of_steps h hx with
  | begun move => exact absurd move (hm _ _)
  | quiet _ quiet items calls =>
    simp only [quiet, Option.bind_none, Option.toList_none] at hreceived haccepted
    constructor <;> simp [hreceived, haccepted, inFlight, Monitor.size, items, calls]
  | @ended d _ _ ended lawful flying calls =>
    obtain ⟨⟨wish, patience, hcall⟩, hr⟩ := h.served hu ended
    obtain ⟨hgot, hput⟩ := lawful.moved hcall hr
    have hgets := countP_set_add (p := Option.any Call.gets) none flying
    have hputs := countP_set_add (p := Option.any Call.puts) none flying
    have hsize := (hcall ▸ lawful).balance hr
    rw [← hcall] at hsize
    simp only [Option.any_some, Option.any_none, Bool.false_eq_true, if_false] at hgets hputs
    simp only [ended, Option.bind_some] at hreceived haccepted
    constructor <;>
    · simp only [hreceived, haccepted, inFlight, calls, Monitor.size]
      omega

theorem run_balanced (hr : s.run c ms = some (last, log)) (hx : c.Fits s.items)
    (hm : ∀ t call, .start t call ∉ ms) (hu : s.Unhurried last.clock) : Balanced s last log := by
  induction ms generalizing s log with
  | nil =>
    cases hr
    exact ⟨rfl, rfl, rfl⟩
  | cons m ms ih =>
    have hclock := run_clock_le hr
    obtain ⟨next, entry, rest, hs, hrest, rfl⟩ := run_cons.mp hr
    have hsteps := steps_of_step hs
    have hmove : ∀ t call, m ≠ .start t call := by
      intro t call he
      exact hm t call (he ▸ List.mem_cons_self)
    have hfirst := hsteps.balanced hx hmove (hu.earlier hclock)
    have hnext := (effect_of_steps hsteps hx).fits hx
    have hlater := ih hrest hnext (fun t call hmem => hm t call (List.mem_cons_of_mem m hmem))
      (hsteps.unhurried hmove hu)
    exact hfirst.trans hlater

/-- No call would get anywhere if it took its turn now. -/
def Settled (c : Settings) (s : Monitor α) : Prop :=
  ∀ f, some f ∈ s.threads → f.restless c s.items = false

/-- A queue that has not settled has a turn to take, and each turn leaves fewer to come. -/
theorem exists_settled (c : Settings) (s : Monitor α) :
    ∃ ms last log, s.run c ms = some (last, log) ∧ (∀ m ∈ ms, ∃ t waiter, m = .turn t waiter) ∧
      last.Settled c := by
  -- A turn takes away from what is left to do, even if it wakes others.
  induction hn : s.toil c using Nat.strongRecOn generalizing s with
  | _ n ih =>
    by_cases hs : s.Settled c
    · exact ⟨[], s, [], rfl, by simp, hs⟩
    · simp only [Settled, Classical.not_forall] at hs
      obtain ⟨f, hf, hrestless⟩ := hs
      have hp := Flight.awake_of_restless (by simpa using hrestless)
      obtain ⟨t, ht⟩ := List.mem_iff_getElem?.mp hf
      obtain ⟨waiter, ⟨next, entry⟩, hstep⟩ := turn_possible (c := c) ht hp
      have hless := toil_turn (steps_of_step hstep)
      obtain ⟨ms, last, log, hr, hms, hsettled⟩ := ih _ (hn ▸ hless) next rfl
      refine ⟨.turn t waiter :: ms, last, _, run_cons.mpr ⟨next, entry, log, hstep, hr, rfl⟩, ?_,
        hsettled⟩
      intro m hm
      rcases List.mem_cons.mp hm with rfl | hm
      · exact ⟨t, waiter, rfl⟩
      · exact hms m hm

/-- A call that is under way in a settled queue has looked, and could not be served. -/
theorem Settled.unserved (hs : s.Settled c) (h : Reachable c s) {f : Flight α} {q : Condition}
    (hf : some f ∈ s.threads) (hq : f.condition? = some q) :
    f.phase ≠ .arriving ∧ c.openings s.items q = 0 := by
  have hrest := hs f hf
  cases hp : f.phase with
  | arriving => simp [Flight.restless, hp] at hrest
  | woken cause => simp [Flight.restless, hp] at hrest
  | snoozing more =>
    have hb : f.blocked c s.items = true := by simpa [Flight.restless, hp] using hrest
    exact ⟨by simp, Flight.blocked_openings hb hq⟩
  | parked =>
    refine ⟨by simp, unserved_of_unsignalled h ?_ hf hp hq⟩
    intro g hg hw
    have hrest := hs g hg
    simp [Flight.restless, hw] at hrest

theorem Settled.readers (hs : s.Settled c) (h : Reachable c s) {f : Flight α}
    (hf : some f ∈ s.threads) (hq : f.condition? = some .notEmpty) : s.items = [] :=
  List.eq_nil_of_length_eq_zero (hs.unserved h hf hq).2

theorem Settled.writers (hs : s.Settled c) (h : Reachable c s) {f : Flight α}
    (hf : some f ∈ s.threads) (hq : f.condition? = some .notFull) : s.isFull c = true := by
  obtain ⟨hp, hzero⟩ := hs.unserved h hf hq
  have hbound := bounded_of_waiting h hf hp hq
  simp only [Settings.openings] at hzero
  rw [isFull, Settings.isFull_iff, Monitor.size]
  omega

theorem exists_inFlight {p : Call α → Bool} (h : 0 < s.inFlight p) :
    ∃ f, some f ∈ s.threads ∧ p f.call = true := by
  obtain ⟨call, hcall, hp⟩ := List.countP_pos_iff.mp h
  obtain ⟨thread, hthread, rfl⟩ := List.mem_map.mp hcall
  cases thread with
  | none => cases hp
  | some f => exact ⟨f, hthread, hp⟩

def gettable (s : Monitor α) : Nat :=
  min (s.inFlight Call.gets) (s.size + s.inFlight Call.puts)

/-- How many of the puts under way can be served, when as many gets are as can be. -/
def puttable (c : Settings) (s : Monitor α) : Nat :=
  if c.bound = 0 then s.inFlight Call.puts
  else min (s.inFlight Call.puts) (c.bound - s.size + s.gettable)

/-- What has become of the calls under way when the queue has settled. -/
structure Settlement (c : Settings) (s last : Monitor α) (log : List (Entry α)) : Prop where
  gets : (Log.received log).length = s.gettable
  puts : (Log.accepted log).length = s.puttable c
  size : last.size = s.size + s.puttable c - s.gettable
  getsLeft : last.inFlight Call.gets = s.inFlight Call.gets - s.gettable
  putsLeft : last.inFlight Call.puts = s.inFlight Call.puts - s.puttable c
  readers : ∀ f, some f ∈ last.threads → f.condition? = some .notEmpty → last.items = []
  writers : ∀ f, some f ∈ last.threads → f.condition? = some .notFull → last.isFull c = true
  oneSided : ∀ f g, some f ∈ last.threads → some g ∈ last.threads →
    f.condition? = some .notEmpty → g.condition? ≠ some .notFull

/-- A get that is left finds no value and a put no room, and that settles the counts. -/
theorem Balanced.settlement (hb : Balanced s last log) (hx : c.Fits s.items)
    (hs : last.Settled c) (h : Reachable c last) : Settlement c s last log := by
  have hgets := hb.gets
  have hputs := hb.puts
  have hsize := hb.size
  have hlast := fits_of_reachable h
  have hempty : 0 < last.inFlight Call.gets → last.size = 0 := by
    intro hpos
    obtain ⟨f, hf, hget⟩ := exists_inFlight hpos
    rw [Monitor.size, hs.readers h hf (Flight.condition?_of_gets hget), List.length_nil]
  have hfull : 0 < last.inFlight Call.puts → 0 < c.bound ∧ c.bound ≤ last.size := by
    intro hpos
    obtain ⟨f, hf, hput⟩ := exists_inFlight hpos
    exact Settings.isFull_iff.mp (hs.writers h hf (Flight.condition?_of_puts hput))
  simp only [Settings.Fits] at hx hlast
  -- The balance and the two facts above leave one value for each count.
  have hgettable : (Log.received log).length = s.gettable := by
    simp only [gettable, Monitor.size] at *
    omega
  have hputtable : (Log.accepted log).length = s.puttable c := by
    simp only [puttable, ← hgettable, Monitor.size] at *
    split <;> omega
  refine ⟨hgettable, hputtable, by omega, by omega, by omega, fun f hf => hs.readers h hf,
    fun f hf => hs.writers h hf, ?_⟩
  intro f g hf hg hreader hwriter
  have hnil := hs.readers h hf hreader
  have hbound := Settings.isFull_iff.mp (hs.writers h hg hwriter)
  rw [Monitor.size, hnil, List.length_nil] at hbound
  omega

/-- Left to themselves, the calls under way can settle, and whoever is woken first the same number
of gets and puts is served. -/
theorem settles_alike {c : Settings} {s : Monitor α} (h : Reachable c s) :
    (∃ ms last log, s.run c ms = some (last, log) ∧ (∀ m ∈ ms, ∃ t waiter, m = .turn t waiter) ∧
      last.Settled c) ∧
    ∀ ms last log, s.run c ms = some (last, log) → (∀ t call, .start t call ∉ ms) →
      s.Unhurried last.clock → last.Settled c → Settlement c s last log := by
  refine ⟨exists_settled c s, ?_⟩
  intro ms last log hr hms hu hs
  have hx := fits_of_reachable h
  exact (run_balanced hr hx hms hu).settlement hx hs (h.run hr)

/-- A put wakes a peek, which passes the signal on to a get, and that makes room for a put. -/
theorem settles_alike_through_peek :
    ∃ s last : Monitor Nat, ∃ log, Reachable ⟨1, 0⟩ s ∧ s.items = [] ∧
      s.inFlight Call.gets = 1 ∧ s.inFlight Call.puts = 3 ∧
      s.run ⟨1, 0⟩ [.turn 2 (some 0), .turn 3 none, .turn 4 none, .turn 0 (some 1), .pass 5,
        .turn 1 (some 4), .turn 4 none] = some (last, log) ∧
      Log.received log = [7] ∧ Log.accepted log = [7, 9] ∧ last.items = [9] ∧
      Settlement ⟨1, 0⟩ s last log := by
  have h : Reachable ⟨1, 0⟩ (⟨[], [some ⟨.peek, 0, .parked⟩, some ⟨.get, 0, .parked⟩,
      some ⟨.put 7, 0, .arriving⟩, some ⟨.putWithin 8 ⟨9⟩, 0, .arriving⟩,
      some ⟨.put 9, 0, .arriving⟩], 0⟩ : Monitor Nat) :=
    @Reachable.run Nat _ _ _ [.start 0 .peek, .turn 0 none, .start 1 .get, .turn 1 none,
      .start 2 (.put 7), .start 3 (.putWithin 8 ⟨9⟩), .start 4 (.put 9)] _ (.idle 5 0) rfl
  have hlast := (settles_alike h).2 [.turn 2 (some 0), .turn 3 none, .turn 4 none,
    .turn 0 (some 1), .pass 5, .turn 1 (some 4), .turn 4 none]
    ⟨[9], [none, none, none, some ⟨.putWithin 8 ⟨9⟩, 0, .parked⟩, none], 5⟩ _ rfl (by simp)
    (by simp [Unhurried]; decide) (by simp [Settled]; decide)
  exact ⟨_, _, _, h, rfl, rfl, rfl, rfl, rfl, rfl, rfl, hlast⟩

end Monitor

end Queue

end BoundedBuffer
