import BoundedBuffer.Proofs.Queue.Refusals
import BoundedBuffer.Proofs.Queue.Settling
import BoundedBuffer.Queue.Session
import BoundedBuffer.Queue.Workload

namespace BoundedBuffer.Queue

open Time

variable {α : Type u} {c : Settings} {s next last : Monitor α} {m : Move α} {ms ms' : List (Move α)}
  {entry : Option (Entry α)} {log log' : List (Entry α)} {p q r : Play α} {t n : Nat}
  {f g : Flight α} {starters : List Nat}

/-- A blocked call whose time has not come leaves the queue as it is and uses up one round. -/
theorem Flight.turn_snoozing {xs : List α} {now : Instant} (hp : f.phase = .snoozing (n + 1))
    (hb : f.blocked c xs = true) (hd : f.deadline.expired now = false) :
    f.turn c xs now = Turn.wait xs (.snoozing n) := by
  obtain ⟨call, start, phase⟩ := f
  cases call with
  | ask wish patience =>
    simp only [blocked, deadline] at hp hb hd
    subst hp
    simp [turn, askTurn, Phase.look, Phase.rest, Phase.events, Turn.after, Turn.wait, hb, hd]
  | _ => simp [blocked] at hb

/-- A call that goes on waiting would get nowhere if it took another turn at once. -/
theorem Flight.Acts.rests {xs : List α} {now : Instant} {turn : Turn α} {phase : Phase}
    (h : f.Acts c xs now turn) (ho : turn.outcome = .waits phase) :
    ({ f with phase } : Flight α).restless c xs = false := by
  cases h with
  | waits call blocked look =>
    cases ho
    obtain ⟨_ | more, rfl⟩ := Phase.look_waiting look
    · rfl
    · simp [restless, Flight.blocked, Phase.rest, call, blocked]
  | _ => cases ho

theorem Flight.unexpired_at_start (h : f.deadline ≠ .poll) : f.deadline.expired f.start = false := by
  obtain ⟨call, start, phase⟩ := f
  cases call with
  | ask wish patience =>
    rw [Bool.eq_false_iff]
    intro hexpired
    rcases Patience.poll_or_runsOut hexpired with hpoll | ⟨d, _, hd, _, hle⟩
    · exact h hpoll
    · exact hd (Nat.le_zero.mp (Nat.le_of_add_le_add_left (a := start) hle))
  | _ => exact absurd rfl h

namespace Monitor

theorem flight?_setFlight (h : s.flight? t = some f) : (s.setFlight t g).flight? t = some g := by
  obtain ⟨ht, _⟩ := List.getElem?_eq_some_iff.mp (flight?_eq_some.mp h)
  exact flight?_eq_some.mpr (List.getElem?_set_self ht)

theorem setFlight_setFlight (s : Monitor α) (t : Nat) (f g : Flight α) :
    (s.setFlight t f).setFlight t g = s.setFlight t g := by
  simp [setFlight]

theorem step_snoozing (hf : s.flight? t = some f) (hp : f.phase = .snoozing (n + 1))
    (hb : f.blocked c s.items = true) (hd : f.deadline.expired s.clock = false) :
    s.step c (.turn t none) =
      some (s.setFlight t { f with phase := .snoozing n },
        some ⟨t, f, Turn.wait s.items (.snoozing n)⟩) := by
  simp [step, entry?, hf, hp, f.turn_snoozing hp hb hd, after?, Turn.wait, deliver,
    Outcome.flight?, setFlight]

/-- A blocked call that is left alone goes through its rounds without a trace. -/
theorem run_snoozing (hf : s.flight? t = some f) (hp : f.phase = .snoozing n)
    (hb : f.blocked c s.items = true) (hd : f.deadline.expired s.clock = false) :
    ∃ log, s.run c (List.replicate n (.turn t none)) =
        some (s.setFlight t { f with phase := .snoozing 0 }, log) ∧
      Log.ended log = [] ∧ Log.events log = [] := by
  induction n generalizing s f with
  | zero =>
    refine ⟨[], ?_, rfl, rfl⟩
    have he : s.threads.set t (some f) = s.threads := by
      obtain ⟨ht, hg⟩ := List.getElem?_eq_some_iff.mp (flight?_eq_some.mp hf)
      rw [← hg, List.set_getElem_self]
    obtain ⟨call, start, phase⟩ := f
    simp only at hp
    subst hp
    simp [run, setFlight, he]
  | succ n ih =>
    have hg := flight?_setFlight (g := { f with phase := .snoozing n }) hf
    obtain ⟨log, hr, he, hv⟩ := ih hg rfl hb hd
    rw [setFlight_setFlight] at hr
    refine ⟨⟨t, f, Turn.wait s.items (.snoozing n)⟩ :: log, ?_, ?_, ?_⟩
    · exact run_cons.mpr ⟨_, _, log, step_snoozing hf hp hb hd, hr, rfl⟩
    · simpa [Log.ended, Entry.ended?, Turn.wait, Outcome.reply?] using he
    · simpa [Log.events, Turn.wait] using hv

theorem Steps.turned {waiter : Option Nat} {e : Entry α}
    (h : Steps c s (.turn t waiter) next (some e)) : e.thread = t ∧ next.clock = s.clock := by
  cases h
  exact ⟨rfl, rfl⟩

end Monitor

namespace Play

/-- The play goes on by moves in which only these threads start calls, and its log tells what the
turns taken tell. -/
def Follows (c : Settings) (starters : List Nat) (p q : Play α) : Prop :=
  ∃ ms log, p.monitor.run c ms = some (q.monitor, log) ∧
    (∀ t call, .start t call ∈ ms → t ∈ starters) ∧
    Log.ended q.log = Log.ended p.log ++ Log.ended log ∧
    Log.events q.log = Log.events p.log ++ Log.events log

namespace Follows

theorem refl (p : Play α) : Follows c starters p p :=
  ⟨[], [], rfl, by simp, by simp [Log.ended], by simp [Log.events]⟩

theorem trans (h : Follows c starters p q) (h' : Follows c starters q r) :
    Follows c starters p r := by
  obtain ⟨ms, log, hr, hms, he, hv⟩ := h
  obtain ⟨ms', log', hr', hms', he', hv'⟩ := h'
  refine ⟨ms ++ ms', log ++ log', Monitor.run_append hr hr', ?_, ?_, ?_⟩
  · intro t call hmem
    rcases List.mem_append.mp hmem with hmem | hmem
    · exact hms t call hmem
    · exact hms' t call hmem
  · rw [he', he, List.append_assoc]
    simp only [Log.ended, List.filterMap_append]
  · rw [hv', hv, List.append_assoc]
    simp only [Log.events, List.flatMap_append]

theorem of_step (hs : p.monitor.step c m = some (next, entry))
    (hm : ∀ t call, m = .start t call → t ∈ starters) :
    Follows c starters p ⟨next, p.log ++ entry.toList⟩ := by
  refine ⟨[m], entry.toList, ?_, ?_, ?_, ?_⟩
  · exact Monitor.run_cons.mpr ⟨next, entry, [], hs, rfl, (List.append_nil _).symm⟩
  · intro t call hmem
    exact hm t call (List.mem_singleton.mp hmem).symm
  · simp only [Log.ended, List.filterMap_append]
  · simp only [Log.events, List.flatMap_append]

theorem move (p : Play α) (hm : ∀ t call, m = .start t call → t ∈ starters) :
    Follows c starters p (p.move c m) := by
  unfold Play.move
  split
  · rename_i hs
    exact of_step hs hm
  · exact refl p

end Follows

theorem turn_cases (c : Settings) (p : Play α) (t : Nat) :
    p.turn c t = p ∨ ∃ waiter next e, p.monitor.step c (.turn t waiter) = some (next, some e) ∧
      p.turn c t = ⟨next, p.log ++ [e]⟩ := by
  unfold turn
  split
  · rename_i e he
    split
    · rename_i next hnext
      exact Or.inr ⟨waiter? p.monitor.threads e.turn.signal, next, e,
        by simp [Monitor.step, he, hnext], rfl⟩
    · exact Or.inl rfl
  · exact Or.inl rfl

namespace Follows

theorem turn (p : Play α) (t : Nat) : Follows c starters p (p.turn c t) := by
  rcases turn_cases c p t with he | ⟨waiter, next, e, hs, he⟩
  · rw [he]
    exact refl p
  · rw [he]
    exact of_step hs (by simp)

theorem settleWithin (n : Nat) (p : Play α) : Follows c starters p (p.settleWithin c n) := by
  induction n generalizing p with
  | zero => exact refl p
  | succ n ih =>
    unfold Play.settleWithin
    split
    · exact (turn p _).trans (ih _)
    · exact refl p

theorem settle (p : Play α) : Follows c starters p (p.settle c) :=
  settleWithin _ p

theorem lapse (p : Play α) (t : Nat) : Follows c starters p (p.lapse c t) := by
  unfold Play.lapse
  split
  · split
    · exact ((move p (by simp)).trans (move _ (by simp))).trans (turn _ t)
    · exact refl p
    · exact refl p
  · exact refl p

theorem serve (p : Play α) (t : Nat) (call : Call α) : Follows c [t] p (p.serve c t call) := by
  have hfirst : Follows c [t] p ((p.move c (.start t call)).turn c t) :=
    (move p (by simp)).trans (turn _ t)
  unfold Play.serve
  dsimp only
  split
  · exact hfirst
  · exact (hfirst.trans (settle _)).trans (lapse _ t)

/-- The rounds that are passed over could have been gone through. -/
theorem skipRounds (hf : p.monitor.flight? t = some f) (hp : f.phase = .snoozing n)
    (hb : f.blocked c p.monitor.items = true) (hd : f.deadline.expired p.monitor.clock = false) :
    Follows c starters p (p.skipRounds t) := by
  obtain ⟨log, hr, he, hv⟩ := Monitor.run_snoozing hf hp hb hd
  obtain ⟨call, start, phase⟩ := f
  simp only at hp
  subst hp
  have hskip : p.skipRounds t =
      { p with monitor := p.monitor.setFlight t ⟨call, start, .snoozing 0⟩ } := by
    simp only [Play.skipRounds, hf]
  rw [hskip]
  exact ⟨_, log, hr, by simp, by simp [he], by simp [hv]⟩

end Follows

/-- A call that its first turn leaves between snooze rounds is blocked and in time. -/
theorem turn_arriving {call : Call α}
    (hf : p.monitor.flight? t = some ⟨call, p.monitor.clock, .arriving⟩)
    (hg : (p.turn c t).monitor.flight? t = some g) (hp : g.phase = .snoozing n) :
    g.blocked c (p.turn c t).monitor.items = true ∧
      g.deadline.expired (p.turn c t).monitor.clock = false := by
  rcases turn_cases c p t with he | ⟨waiter, next, e, hs, he⟩
  · rw [he, hf] at hg
    cases hg
    cases hp
  · rw [he] at hg ⊢
    have hsteps := Monitor.steps_of_step hs
    obtain ⟨hthread, hclock⟩ := hsteps.turned
    rw [Monitor.flight?_eq_some] at hf hg
    cases hsteps.fares hf with
    | stays others => exact absurd hthread (others e rfl)
    | wakes others => exact absurd hthread (others e rfl)
    | ends _ _ _ _ gone =>
      rw [gone] at hg
      cases hg
    | waits _ acts waiting items same =>
      rw [same] at hg
      cases hg
      simp only at hp
      subst hp
      obtain ⟨hsame, _, hdeadline⟩ := acts.of_waits waiting
      have hrests := acts.rests waiting
      simp only [items, hsame, hclock]
      exact ⟨by simpa [Flight.restless] using hrests, Flight.unexpired_at_start (hdeadline rfl)⟩

theorem launch_rests {call : Call α} (hn : p.monitor.flight? t = none)
    (hg : ((p.move c (.start t call)).turn c t).monitor.flight? t = some g)
    (hp : g.phase = .snoozing n) :
    g.blocked c ((p.move c (.start t call)).turn c t).monitor.items = true ∧
      g.deadline.expired ((p.move c (.start t call)).turn c t).monitor.clock = false := by
  cases hs : p.monitor.step c (.start t call) with
  | none =>
    -- The thread does not exist, so there is no call to speak of.
    have hmove : p.move c (.start t call) = p := by simp only [move, hs]
    have hturn : p.turn c t = p := by simp only [turn, Monitor.entry?, hn]
    rw [hmove, hturn, hn] at hg
    cases hg
  | some result =>
    obtain ⟨next, entry⟩ := result
    have hmove : (p.move c (.start t call)).monitor = next := by simp only [move, hs]
    have hstarted : (p.move c (.start t call)).monitor.flight? t =
        some ⟨call, (p.move c (.start t call)).monitor.clock, .arriving⟩ := by
      rw [hmove]
      cases Monitor.steps_of_step hs with
      | start idle =>
        obtain ⟨hlt, _⟩ := List.getElem?_eq_some_iff.mp idle
        exact Monitor.flight?_eq_some.mpr (List.getElem?_set_self hlt)
    exact turn_arriving hstarted hg hp

theorem Follows.launch (hn : p.monitor.flight? t = none) (call : Call α) :
    Follows c [t] p (p.launch c t call) := by
  have hfirst : Follows c [t] p ((p.move c (.start t call)).turn c t) :=
    (Follows.move p (by simp)).trans (Follows.turn _ t)
  unfold Play.launch
  dsimp only
  split
  · rename_i hg
    obtain ⟨hb, hd⟩ := launch_rests hn hg rfl
    exact (hfirst.trans (Follows.skipRounds hg rfl hb hd)).trans (Follows.turn _ t)
  · exact hfirst

end Play

namespace Monitor

/-- A bound on the turns until the queue has settled: each ends a call, or leaves one restless call
less. -/
def restlessness (c : Settings) (s : Monitor α) : Nat :=
  s.pending * (s.threads.length + 1) +
    s.threads.countP (Option.any (Flight.restless c s.items))

theorem restlessness_lt (c : Settings) (s : Monitor α) : s.restlessness c < Play.unrest s := by
  have hle := List.countP_le_length (p := Option.any (Flight.restless c s.items)) (l := s.threads)
  simp only [restlessness, Play.unrest, Nat.succ_mul]
  omega

theorem pending_eq_calls (s : Monitor α) : s.pending = s.calls.countP Option.isSome := by
  rw [pending, calls, List.countP_map]
  apply List.countP_congr
  intro thread _
  cases thread <;> simp

theorem restlessness_turn {waiter : Option Nat} {e : Entry α}
    (h : Steps c s (.turn t waiter) next (some e)) (hf : s.threads[t]? = some (some f))
    (hr : f.restless c s.items = true) : next.restlessness c < s.restlessness c := by
  cases h with
  | @turn _ _ g turn threads found awake acts delivered =>
    rw [hf] at found
    cases found
    have hlength := delivered.length
    rw [List.length_set] at hlength
    cases ho : turn.outcome with
    | waits phase =>
      obtain ⟨hitems, hsignal, _⟩ := acts.of_waits ho
      have hrests := acts.rests ho
      rw [hsignal, ho] at delivered
      cases delivered
      have hpending := countP_set_add (p := Option.isSome) (some { f with phase }) hf
      have hcount := countP_set_add (p := Option.any (Flight.restless c s.items))
        (some { f with phase }) hf
      simp only [Option.any_some, hr, hrests, if_true, Bool.false_eq_true, if_false] at hcount
      simp only [Option.isSome_some, if_true, Nat.add_right_cancel_iff] at hpending
      simp only [restlessness, pending, hitems, Outcome.flight?, List.length_set, hpending]
      omega
    | returns reply =>
      rw [ho] at delivered
      have hcalls := delivered.calls
      rw [List.map_set] at hcalls
      have hpending := countP_set_add (p := Option.isSome) none (calls_found hf)
      have hle := List.countP_le_length (p := Option.any (Flight.restless c turn.items))
        (l := threads)
      simp only [Option.isSome_some, if_true, Option.isSome_none, Bool.false_eq_true, if_false,
        Nat.add_zero] at hpending
      simp only [restlessness, pending_eq_calls, calls] at *
      simp only [Outcome.flight?, Option.map_none] at hcalls
      rw [hcalls, ← hpending, hlength, Nat.succ_mul]
      omega

/-- The first waiter that fits is one to whom the signal of a turn can be delivered. -/
theorem deliver_waiter? {threads : List (Option (Flight α))} (hf : threads[t]? = some (some f))
    (hp : f.phase ≠ .parked) (signal : Option Signal) :
    ∃ threads', deliver (threads.set t none) (Play.waiter? threads signal) signal = some threads' := by
  rcases signal with _ | condition | condition
  · exact ⟨_, rfl⟩
  · cases hw : threads.findIdx? (parkedOn condition) with
    | none =>
      have hnobody : (threads.set t none).any (parkedOn condition) = false := by
        rw [List.any_eq_false]
        intro thread hthread
        rcases List.mem_or_eq_of_mem_set hthread with hmem | rfl
        · simp [List.findIdx?_eq_none_iff.mp hw thread hmem]
        · simp [parkedOn]
      exact ⟨_, by simp [Play.waiter?, hw, deliver, hnobody]; rfl⟩
    | some w =>
      obtain ⟨hlt, hparked, _⟩ := List.findIdx?_eq_some_iff_getElem.mp hw
      have hne : t ≠ w := by
        rintro rfl
        rw [List.getElem?_eq_getElem hlt] at hf
        rw [Option.some.inj hf] at hparked
        exact hp (parkedOn_some_iff.mp hparked).1
      have hfound : (threads.set t none)[w]? = some threads[w] := by
        rw [List.getElem?_set_ne hne, List.getElem?_eq_getElem hlt]
      exact ⟨_, by simp [Play.waiter?, hw, deliver, hfound, hparked]; rfl⟩
  · exact ⟨_, rfl⟩

end Monitor

namespace Play

theorem turn_taken (hf : p.monitor.threads[t]? = some (some f)) (hp : f.phase ≠ .parked) :
    ∃ waiter next e, p.monitor.step c (.turn t waiter) = some (next, some e) ∧
      p.turn c t = ⟨next, p.log ++ [e]⟩ := by
  have hentry : p.monitor.entry? c t =
      some ⟨t, f, f.turn c p.monitor.items p.monitor.clock⟩ := by
    simp only [Monitor.entry?, Monitor.flight?_eq_some.mpr hf, if_neg hp]
  have acts := f.turn_acts c p.monitor.items p.monitor.clock
  generalize f.turn c p.monitor.items p.monitor.clock = turn at hentry acts
  have hafter : ∃ next, p.monitor.after? ⟨t, f, turn⟩ (waiter? p.monitor.threads turn.signal) =
      some next := by
    cases ho : turn.outcome with
    | waits phase =>
      rw [Monitor.after?, (acts.of_waits ho).2.1]
      exact ⟨_, rfl⟩
    | returns reply =>
      obtain ⟨threads, hd⟩ := Monitor.deliver_waiter? hf hp turn.signal
      simp only [Monitor.after?, ho, Outcome.flight?, hd]
      exact ⟨_, rfl⟩
  obtain ⟨next, hnext⟩ := hafter
  refine ⟨waiter? p.monitor.threads turn.signal, next, ⟨t, f, turn⟩, ?_, ?_⟩
  · simp [Monitor.step, hentry, hnext]
  · simp [Play.turn, hentry, hnext]

theorem restless?_some (h : p.restless? c = some t) :
    ∃ f, p.monitor.threads[t]? = some (some f) ∧ f.restless c p.monitor.items = true := by
  obtain ⟨hlt, hrestless, _⟩ := List.findIdx?_eq_some_iff_getElem.mp h
  obtain ⟨f, hf, hrestless⟩ := (Option.any_eq_true ..).mp hrestless
  exact ⟨f, by rw [List.getElem?_eq_getElem hlt, hf], hrestless⟩

theorem restless?_none (h : p.restless? c = none) : p.monitor.Settled c := by
  intro f hf
  simpa using List.findIdx?_eq_none_iff.mp h _ hf

theorem settleWithin_settled (h : p.monitor.restlessness c < n) :
    (settleWithin c n p).monitor.Settled c := by
  induction n generalizing p with
  | zero => cases h
  | succ n ih =>
    unfold settleWithin
    split
    · rename_i t ht
      obtain ⟨f, hf, hrestless⟩ := restless?_some ht
      obtain ⟨waiter, next, e, hs, hturn⟩ :=
        turn_taken (c := c) hf (Flight.awake_of_restless hrestless)
      have hless := Monitor.restlessness_turn (Monitor.steps_of_step hs) hf hrestless
      rw [hturn]
      exact ih (Nat.lt_of_lt_of_le hless (Nat.le_of_lt_succ h))
    · rename_i hnobody
      exact restless?_none hnobody

/-- Calls that go on until none would get anywhere have settled. -/
theorem settle_settled (c : Settings) (p : Play α) : (p.settle c).monitor.Settled c :=
  settleWithin_settled (Monitor.restlessness_lt c p.monitor)

end Play

namespace Play.Follows

theorem vacant (h : Follows c starters p q) (hn : p.monitor.flight? t = none)
    (ht : t ∉ starters) : q.monitor.flight? t = none := by
  obtain ⟨ms, log, hr, hms, _⟩ := h
  exact Monitor.run_vacant hr hn fun call hmem => ht (hms t call hmem)

theorem after (log : List (Entry α)) (h : Follows c starters ⟨s, []⟩ q) :
    Follows c starters ⟨s, log⟩ ⟨q.monitor, log ++ q.log⟩ := by
  obtain ⟨ms, taken, hr, hms, he, hv⟩ := h
  refine ⟨ms, taken, hr, hms, ?_, ?_⟩
  · simp only [Log.ended, List.filterMap_append, List.filterMap_nil, List.nil_append] at he ⊢
    rw [he]
  · simp only [Log.events, List.flatMap_append, List.flatMap_nil, List.nil_append] at hv ⊢
    rw [hv]

end Play.Follows

namespace Session

/-- The helpers that have yet to be called on are in no call. -/
structure Ready (s : Session α) : Prop where
  helper : 0 < s.helper
  idle : ∀ t, s.helper ≤ t → s.monitor.flight? t = none

theorem begin_ready (settings : Settings) (helpers : Nat) :
    (begin settings helpers : Session α).Ready where
  helper := Nat.one_pos
  idle t _ := by
    simp only [begin, Monitor.idle, Monitor.flight?, List.getElem?_replicate]
    split <;> rfl

theorem serve_follows (c : Settings) (p : Play α) (call : Call α) :
    Play.Follows c [0] p (serve c p call).1 :=
  (Play.Follows.serve ⟨p.monitor, []⟩ 0 call).after p.log

theorem serveAll_follows (c : Settings) (p : Play α) (calls : List (Call α)) :
    Play.Follows c [0] p (serveAll c p calls).1 := by
  induction calls generalizing p with
  | nil => exact .refl p
  | cons call calls ih => exact (serve_follows c p call).trans (ih _)

variable {s : Session α}

def callers (s : Session α) : Step α → List Nat
  | .calls _ => [0]
  | .spawn .. => [s.helper]

theorem step_follows (h : s.Ready) (step : Step α) :
    Play.Follows s.settings (s.callers step) ⟨s.monitor, []⟩
        ⟨(s.step step).1.monitor, (s.step step).2.log⟩ ∧
      (s.step step).1.monitor.Settled s.settings := by
  cases step with
  | calls calls =>
    have hserved := serveAll_follows s.settings ⟨s.monitor, []⟩ calls
    exact ⟨hserved.trans (.settle _), Play.settle_settled _ _⟩
  | spawn call spins =>
    have hfirst : Play.Follows s.settings [s.helper] ⟨s.monitor, []⟩
        (if spins then Play.move s.settings ⟨s.monitor, []⟩ (.start s.helper call)
          else Play.launch s.settings ⟨s.monitor, []⟩ s.helper call) := by
      split
      · exact .move _ (by simp)
      · exact .launch (h.idle _ (Nat.le_refl _)) call
    exact ⟨hfirst.trans (.settle _), Play.settle_settled _ _⟩

theorem step_ready (h : s.Ready) (step : Step α) : (s.step step).1.Ready := by
  have hhelper := h.helper
  have hlater : s.helper ≤ (s.step step).1.helper := by
    cases step with
    | calls => exact Nat.le_refl _
    | spawn => exact Nat.le_succ _
  refine ⟨Nat.lt_of_lt_of_le hhelper hlater, ?_⟩
  intro t ht
  refine (step_follows h step).1.vacant (h.idle t (Nat.le_trans hlater ht)) ?_
  cases step with
  | calls => simp [callers]; omega
  | spawn => simp [callers]; exact Nat.ne_of_gt ht

def run (s : Session α) : List (Step α) → Session α × List (Report α)
  | [] => (s, [])
  | step :: steps =>
    let (next, report) := s.step step
    let (last, reports) := run next steps
    (last, report :: reports)

theorem run_follows (h : s.Ready) (steps : List (Step α)) :
    ∃ ms log, s.monitor.run s.settings ms = some ((s.run steps).1.monitor, log) ∧
      Log.ended log = (s.run steps).2.flatMap (Log.ended ·.log) ∧
      Log.events log = (s.run steps).2.flatMap (Log.events ·.log) := by
  induction steps generalizing s with
  | nil => exact ⟨[], [], rfl, rfl, rfl⟩
  | cons step steps ih =>
    obtain ⟨⟨ms, log, hr, _, he, hv⟩, _⟩ := step_follows h step
    obtain ⟨ms', log', hr', he', hv'⟩ := ih (step_ready h step)
    have hsettings : (s.step step).1.settings = s.settings := by cases step <;> rfl
    rw [hsettings] at hr'
    refine ⟨ms ++ ms', log ++ log', Monitor.run_append hr hr', ?_, ?_⟩
    · simp only [Log.ended, List.filterMap_nil, List.nil_append] at he
      simp only [Log.ended, List.filterMap_append, run, List.flatMap_cons, ← he]
      exact congrArg _ he'
    · simp only [Log.events, List.flatMap_nil, List.nil_append] at hv
      simp only [Log.events, List.flatMap_append, run, List.flatMap_cons, ← hv]
      exact congrArg _ hv'

/-- A session is a run of the machine from idle, and its reports tell what the turns of that run
tell. -/
theorem is_run (settings : Settings) (helpers : Nat) (steps : List (Step α)) :
    ∃ ms log, (Monitor.idle (helpers + 1) 0).run settings ms =
        some (((begin settings helpers).run steps).1.monitor, log) ∧
      Log.ended log = ((begin settings helpers).run steps).2.flatMap (Log.ended ·.log) ∧
      Log.events log = ((begin settings helpers).run steps).2.flatMap (Log.events ·.log) :=
  run_follows (begin_ready settings helpers) steps

end Session

namespace Workload

theorem workWithin_run (c : Settings) (n : Nat) (w : Workload α) :
    ∃ ms, w.run c ms = some (w.workWithin c n) := by
  induction n generalizing w with
  | zero => exact ⟨[], rfl⟩
  | succ n ih =>
    unfold workWithin
    split
    · rename_i t _
      split
      · rename_i next entry hs
        obtain ⟨ms, hr⟩ := ih next
        exact ⟨.next t :: ms, by simp [run, hs, hr]⟩
      · exact ⟨[], rfl⟩
    · dsimp only
      split
      · rename_i t _
        rcases Play.turn_cases c ⟨w.monitor, []⟩ t with he | ⟨waiter, next, e, hs, he⟩
        · obtain ⟨ms, hr⟩ := ih w
          exact ⟨ms, by rw [he]; simpa using hr⟩
        · obtain ⟨ms, hr⟩ := ih { w with monitor := next }
          exact ⟨.turn t waiter :: ms, by simp [run, step, hs, he, hr]⟩
      · exact ⟨[], rfl⟩

/-- What a workload does by itself is a run of it. -/
theorem work_run (c : Settings) (w : Workload α) : ∃ ms, w.run c ms = some (w.work c) :=
  workWithin_run c w.effort w

end Workload

end BoundedBuffer.Queue
