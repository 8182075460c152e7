import Mathlib.Data.List.Forall2
import BoundedBuffer.Proofs.Queue.Bodies
import BoundedBuffer.Proofs.Queue.Steps

namespace BoundedBuffer.Queue

open Time

section

variable {α : Type u} {c : Settings} {f g : Flight α} {xs : List α} {now start : Instant}
  {t : Nat} {m m' : Move α} {ms : List (Move α)} {s s' : Monitor α}
  {threads threads' : List (Option (Flight α))}

theorem rel_cases {β : Type v} {γ : Type w} {r : β → γ → Prop} {o : Option β} {o' : Option γ}
    (h : Option.Rel r o o') :
    (o = none ∧ o' = none) ∨ ∃ x y, o = some x ∧ o' = some y ∧ r x y := by
  cases h with
  | none => exact Or.inl ⟨rfl, rfl⟩
  | some hr => exact Or.inr ⟨_, _, rfl, rfl, hr⟩

/-- Started at this time, the calls want the same and wait for it up to the same deadline. -/
inductive Call.Alike (start : Instant) : Call α → Call α → Prop
  | refl (call : Call α) : Alike start call call
  | ask {wish : Wish α} {p q : Patience} (deadline : p.deadline start = q.deadline start) :
      Alike start (.ask wish p) (.ask wish q)

namespace Flight

structure Alike (f g : Flight α) : Prop where
  call : f.call.Alike f.start g.call
  start : f.start = g.start
  phase : f.phase = g.phase

theorem Alike.refl (f : Flight α) : f.Alike f := ⟨.refl _, rfl, rfl⟩

theorem Alike.enter (h : f.Alike g) (phase : Phase) :
    Alike { f with phase } { g with phase } :=
  ⟨h.call, h.start, rfl⟩

/-- What one call may do in a turn, another with the same deadline may do too. -/
theorem Alike.acts {turn : Turn α} (h : f.Alike g) (acts : f.Acts c xs now turn) :
    g.Acts c xs now turn := by
  obtain ⟨call, start, phase⟩ := f
  obtain ⟨call', start', phase'⟩ := g
  obtain ⟨hcall, hstart, hphase⟩ := h
  dsimp only at hcall hstart hphase
  subst hstart hphase
  cases hcall with
  | refl => exact acts
  | @ask wish p q hd =>
    cases acts with
    | waits call blocked look =>
      cases call
      rw [hd] at look
      exact .waits rfl blocked look
    | refused call blocked look =>
      cases call
      rw [hd] at look
      refine .refused rfl blocked look ?_
      rintro rfl
      exact phase.look_endless_ne_late _ _ _ _ look
    | put call room => cases call; exact .put rfl room
    | get call held => cases call; exact .get rfl held
    | peek call held => cases call; exact .peek rfl held
    | clear call | drain call | size call => cases call

theorem Alike.turn (h : f.Alike g) (c : Settings) (xs : List α) (now : Instant) :
    f.turn c xs now = g.turn c xs now :=
  (h.acts (f.turn_acts c xs now)).eq_turn

theorem Alike.deadline (h : f.Alike g) : f.deadline = g.deadline := by
  obtain ⟨call, start, phase⟩ := f
  obtain ⟨call', start', phase'⟩ := g
  obtain ⟨hcall, hstart, _⟩ := h
  dsimp only at hcall hstart
  subst hstart
  cases hcall with
  | refl => rfl
  | ask hd => exact hd

theorem Alike.parkedOn? (h : f.Alike g) : f.parkedOn? = g.parkedOn? := by
  have hc : f.condition? = g.condition? := by
    obtain ⟨call, start, phase⟩ := f
    obtain ⟨call', start', phase'⟩ := g
    cases h.call <;> rfl
  rw [Flight.parkedOn?, Flight.parkedOn?, hc, h.phase]

theorem Alike.turns (h : f.Alike g) (c : Settings) (gs : List (Glimpse α)) :
    f.turns c gs = g.turns c gs := by
  induction gs generalizing f g with
  | nil => rfl
  | cons glimpse gs ih =>
    have hroused := h.enter (f.phase.roused glimpse.cause)
    rw [h.phase] at hroused
    have hturn := hroused.turn c glimpse.items glimpse.now
    simp only [Flight.turns, h.phase, hturn]
    split
    · rfl
    · exact congrArg _ (ih (h.enter _))

end Flight

namespace Monitor

abbrev AllAlike : List (Option (Flight α)) → List (Option (Flight α)) → Prop :=
  List.Forall₂ (Option.Rel Flight.Alike)

theorem AllAlike.refl (threads : List (Option (Flight α))) : AllAlike threads threads := by
  rw [AllAlike, List.forall₂_same]
  intro thread _
  cases thread with
  | none => exact .none
  | some f => exact .some (.refl f)

theorem AllAlike.getElem? (h : AllAlike threads threads') (t : Nat) :
    Option.Rel (Option.Rel Flight.Alike) threads[t]? threads'[t]? := by
  induction h generalizing t with
  | nil => exact .none
  | cons first _ ih =>
    cases t with
    | zero => exact .some first
    | succ t => simpa using ih t

theorem AllAlike.set {new new' : Option (Flight α)} (h : AllAlike threads threads') (t : Nat)
    (hn : Option.Rel Flight.Alike new new') :
    AllAlike (threads.set t new) (threads'.set t new') := by
  induction h generalizing t with
  | nil => exact .nil
  | cons first rest ih =>
    cases t with
    | zero => exact .cons hn rest
    | succ t => exact .cons first (ih t)

theorem parkedOn_alike {thread thread' : Option (Flight α)} (q : Condition)
    (h : Option.Rel Flight.Alike thread thread') : parkedOn q thread = parkedOn q thread' := by
  cases h with
  | none => rfl
  | some h => simp [parkedOn, h.parkedOn?]

theorem map_wake_alike {thread thread' : Option (Flight α)} (cause : Cause)
    (h : Option.Rel Flight.Alike thread thread') :
    Option.Rel Flight.Alike (thread.map (.wake cause)) (thread'.map (.wake cause)) := by
  cases h with
  | none => exact .none
  | some h => exact .some (h.enter _)

theorem AllAlike.wakeAll (h : AllAlike threads threads') (q : Condition) :
    AllAlike (wakeAll q threads) (wakeAll q threads') := by
  induction h with
  | nil => exact .nil
  | cons first _ ih =>
    refine .cons ?_ ih
    simp only [parkedOn_alike q first]
    split
    · exact map_wake_alike _ first
    · exact first

theorem AllAlike.any_parkedOn (h : AllAlike threads threads') (q : Condition) :
    threads.any (parkedOn q) = threads'.any (parkedOn q) := by
  induction h with
  | nil => rfl
  | cons first _ ih => rw [List.any_cons, List.any_cons, parkedOn_alike q first, ih]

theorem AllAlike.deliver (h : AllAlike threads threads') (waiter : Option Nat)
    (signal : Option Signal) :
    Option.Rel AllAlike (deliver threads waiter signal) (deliver threads' waiter signal) := by
  rcases signal with _ | condition | condition
  · exact .some h
  · cases waiter with
    | none =>
      simp only [Monitor.deliver, h.any_parkedOn condition]
      split
      · exact .none
      · exact .some h
    | some w =>
      rcases rel_cases (h.getElem? w) with ⟨ht, ht'⟩ | ⟨thread, thread', ht, ht', halike⟩
      · simp only [Monitor.deliver, ht, ht']
        exact .none
      · simp only [Monitor.deliver, ht, ht', parkedOn_alike condition halike]
        split
        · exact .some (h.set w (map_wake_alike _ halike))
        · exact .none
  · exact .some (h.wakeAll condition)

structure Alike (s s' : Monitor α) : Prop where
  items : s.items = s'.items
  threads : AllAlike s.threads s'.threads
  clock : s.clock = s'.clock

theorem Alike.flight? (h : s.Alike s') (t : Nat) :
    Option.Rel Flight.Alike (s.flight? t) (s'.flight? t) := by
  rcases rel_cases (h.threads.getElem? t) with ⟨ht, ht'⟩ | ⟨thread, thread', ht, ht', halike⟩
  · rw [Monitor.flight?, Monitor.flight?, ht, ht']
    exact .none
  · rw [Monitor.flight?, Monitor.flight?, ht, ht']
    exact halike

theorem Alike.setFlight (h : s.Alike s') (t : Nat) (hf : f.Alike g) :
    (s.setFlight t f).Alike (s'.setFlight t g) :=
  ⟨h.items, h.threads.set t (.some hf), h.clock⟩

end Monitor

structure Entry.Alike (e e' : Entry α) : Prop where
  thread : e.thread = e'.thread
  flight : e.flight.Alike e'.flight
  turn : e.turn = e'.turn

inductive Move.Alike (clock : Instant) : Move α → Move α → Prop
  | refl (m : Move α) : Alike clock m m
  | start {t : Nat} {call call' : Call α} (h : call.Alike clock call') :
      Alike clock (.start t call) (.start t call')

namespace Monitor

theorem Alike.entry? (h : s.Alike s') (c : Settings) (t : Nat) :
    Option.Rel Entry.Alike (s.entry? c t) (s'.entry? c t) := by
  rcases rel_cases (h.flight? t) with ⟨hf, hf'⟩ | ⟨f, f', hf, hf', halike⟩
  · simp only [Monitor.entry?, hf, hf']
    exact .none
  · simp only [Monitor.entry?, hf, hf', halike.phase]
    split
    · exact .none
    · refine .some ⟨rfl, halike, ?_⟩
      dsimp only
      rw [halike.turn, h.items, h.clock]

theorem Alike.after? {e e' : Entry α} (h : s.Alike s') (he : e.Alike e') (waiter : Option Nat) :
    Option.Rel Alike (s.after? e waiter) (s'.after? e' waiter) := by
  have hflight : Option.Rel Flight.Alike (e'.turn.outcome.flight? e.flight)
      (e'.turn.outcome.flight? e'.flight) := by
    cases e'.turn.outcome with
    | returns => exact .none
    | waits phase => exact .some (he.flight.enter phase)
  simp only [Monitor.after?, he.thread, he.turn]
  rcases rel_cases ((h.threads.set e'.thread hflight).deliver waiter e'.turn.signal) with
    ⟨hd, hd'⟩ | ⟨_, _, hd, hd', halike⟩
  · rw [hd, hd']
    exact .none
  · rw [hd, hd']
    exact .some ⟨rfl, halike, h.clock⟩

def StepAlike (r r' : Monitor α × Option (Entry α)) : Prop :=
  r.1.Alike r'.1 ∧ Option.Rel Entry.Alike r.2 r'.2

def RunAlike (r r' : Monitor α × List (Entry α)) : Prop :=
  r.1.Alike r'.1 ∧ List.Forall₂ Entry.Alike r.2 r'.2

/-- The same moves are possible in states that are alike, and lead to states that are alike. -/
theorem Alike.step (h : s.Alike s') (hm : m.Alike s.clock m') (c : Settings) :
    Option.Rel StepAlike (s.step c m) (s'.step c m') := by
  have hstart : ∀ t {call call' : Call α}, call.Alike s.clock call' →
      Option.Rel StepAlike (s.step c (.start t call)) (s'.step c (.start t call')) := by
    intro t call call' hcall
    rcases rel_cases (h.threads.getElem? t) with ⟨ht, ht'⟩ | ⟨thread, thread', ht, ht', halike⟩
    · simp only [Monitor.step, ht, ht']
      exact .none
    · simp only [Monitor.step, ht, ht']
      cases halike with
      | none => exact .some ⟨h.setFlight t ⟨hcall, h.clock, rfl⟩, .none⟩
      | some => exact .none
  cases hm with
  | start hcall => exact hstart _ hcall
  | refl =>
    cases m with
    | start t call => exact hstart t (.refl call)
    | turn t waiter =>
      rcases rel_cases (h.entry? c t) with ⟨ht, ht'⟩ | ⟨e, e', ht, ht', he⟩
      · simp only [Monitor.step, ht, ht']
        exact .none
      · simp only [Monitor.step, ht, ht']
        rcases rel_cases (h.after? he waiter) with ⟨ha, ha'⟩ | ⟨next, next', ha, ha', hnext⟩
        · rw [ha, ha']
          exact .none
        · rw [ha, ha']
          exact .some ⟨hnext, .some he⟩
    | expire t =>
      rcases rel_cases (h.flight? t) with ⟨hf, hf'⟩ | ⟨f, f', hf, hf', halike⟩
      · simp only [Monitor.step, hf, hf']
        exact .none
      · simp only [Monitor.step, hf, hf', halike.phase, halike.deadline, h.clock]
        split
        · exact .some ⟨h.setFlight t (halike.enter _), .none⟩
        · exact .none
    | stray t =>
      rcases rel_cases (h.flight? t) with ⟨hf, hf'⟩ | ⟨f, f', hf, hf', halike⟩
      · simp only [Monitor.step, hf, hf']
        exact .none
      · simp only [Monitor.step, hf, hf', halike.phase]
        split
        · exact .some ⟨h.setFlight t (halike.enter _), .none⟩
        · exact .none
    | pass span => exact .some ⟨⟨h.items, h.threads, congrArg (· + span) h.clock⟩, .none⟩

theorem run_cons_alike (hs : Option.Rel StepAlike (s.step c m) (s'.step c m'))
    (hr : ∀ next next' : Monitor α, next.Alike next' →
      Option.Rel RunAlike (next.run c ms) (next'.run c ms)) :
    Option.Rel RunAlike (s.run c (m :: ms)) (s'.run c (m' :: ms)) := by
  rcases rel_cases hs with ⟨hm, hm'⟩ | ⟨⟨next, entry⟩, ⟨next', entry'⟩, hm, hm', hnext, hentry⟩
  · simp only [run, hm, hm']
    exact .none
  · simp only [run, hm, hm']
    rcases rel_cases (hr next next' hnext) with ⟨hl, hl'⟩ | ⟨_, _, hl, hl', hlast, hlog⟩
    · rw [hl, hl']
      exact .none
    · rw [hl, hl']
      refine .some ⟨hlast, ?_⟩
      cases hentry with
      | none => exact hlog
      | some he => exact .cons he hlog

theorem Alike.run (h : s.Alike s') (c : Settings) (ms : List (Move α)) :
    Option.Rel RunAlike (s.run c ms) (s'.run c ms) := by
  induction ms generalizing s s' with
  | nil => exact .some ⟨h, .nil⟩
  | cons m ms ih => exact run_cons_alike (h.step (.refl m) c) fun _ _ hn => ih hn

/-- What a run shows, apart from the calls in it. -/
def shown (r : Monitor α × List (Entry α)) : List α × Instant × List (Nat × Turn α) :=
  (r.1.items, r.1.clock, r.2.map fun e => (e.thread, e.turn))

theorem RunAlike.shown {r r' : Monitor α × List (Entry α)} (h : RunAlike r r') :
    shown r = shown r' := by
  have hlog : ∀ {log log' : List (Entry α)}, List.Forall₂ Entry.Alike log log' →
      (log.map fun e => (e.thread, e.turn)) = log'.map fun e => (e.thread, e.turn) := by
    intro log log' hl
    induction hl with
    | nil => rfl
    | cons first _ ih => rw [List.map_cons, List.map_cons, first.thread, first.turn, ih]
  rw [Monitor.shown, Monitor.shown, h.1.items, h.1.clock, hlog h.2]

theorem run_start_alike {call call' : Call α} (h : call.Alike s.clock call') (c : Settings)
    (t : Nat) (ms : List (Move α)) :
    (s.run c (.start t call :: ms)).map shown = (s.run c (.start t call' :: ms)).map shown := by
  have hs : s.Alike s := ⟨rfl, .refl _, rfl⟩
  have hfirst := hs.step (.start (t := t) h) c
  rcases rel_cases (run_cons_alike hfirst fun _ _ hn => hn.run c ms) with
    ⟨hr, hr'⟩ | ⟨_, _, hr, hr', hlast⟩
  · rw [hr, hr']
  · rw [hr, hr']
    exact congrArg some hlast.shown

end Monitor

theorem Flight.mem_turns {turn : Turn α} {gs : List (Glimpse α)} (h : turn ∈ f.turns c gs) :
    ∃ g ∈ gs, ∃ phase, turn = Flight.turn c { f with phase } g.items g.now := by
  induction gs generalizing f with
  | nil => cases h
  | cons g gs ih =>
    simp only [Flight.turns] at h
    split at h
    · exact ⟨g, List.mem_cons_self, _, List.mem_singleton.mp h⟩
    · rcases List.mem_cons.mp h with rfl | h
      · exact ⟨g, List.mem_cons_self, _, rfl⟩
      · obtain ⟨g', hg, phase, hturn⟩ := ih h
        exact ⟨g', List.mem_cons_of_mem g hg, phase, hturn⟩

theorem Call.turns_endless_unrefused {wish : Wish α} {turn : Turn α} {gs : List (Glimpse α)}
    (h : turn ∈ Call.turns c start (.ask wish .endless) gs) (refusal : Refusal α) :
    turn.outcome ≠ .returns (.refused refusal) := by
  obtain ⟨g, _, phase, rfl⟩ := Flight.mem_turns h
  have acts := Flight.turn_acts c ⟨.ask wish .endless, start, phase⟩ g.items g.now
  intro ho
  generalize Flight.turn c _ g.items g.now = turn at ho acts
  cases acts with
  | refused call _ _ limited => cases call; exact limited rfl
  | _ => cases ho

end

variable {α : Type} {c : Settings} {start : Instant}

/-- No limit, in each of the ways to say so, or one past the clock's last reading. -/
inductive Unending (start : Instant) : Limit → Prop
  | forever : Unending start .forever
  | negative {n : Int} (negative : n < 0) : Unending start (.ofMillis n)
  | absent : Unending start (.ofOption none)
  | default : Unending start (default : Limit)
  | beyond {d : Span} (positive : d.nanoseconds ≠ 0) (beyond : horizon < start + d.nanoseconds) :
      Unending start (.within d)

theorem Unending.deadline {limit : Limit} (h : Unending start limit) :
    Deadline.after start limit = .never := by
  cases h with
  | forever => rfl
  | @negative n hn =>
    cases n with
    | ofNat n => exact absurd hn (Int.not_lt.mpr (Int.natCast_nonneg n))
    | negSucc n => rfl
  | absent => rfl
  | default => rfl
  | beyond positive beyond => simp [Deadline.after, positive, Nat.not_le.mpr beyond]

namespace Form

variable {f g : Form α} {wish : Wish α} {p q : Patience}

/-- Started at this time, either form may stand in the place of the other, alone and in a run. -/
structure Interchangeable (c : Settings) (start : Instant) (f g : Form α) : Prop where
  bodies : ∀ gs, ∃ course course', (f.body c start).course gs = some course ∧
    (g.body c start).course gs = some course' ∧ course.stretches = course'.stretches
  turns : ∀ gs, f.call.turns c start gs = g.call.turns c start gs
  runs : ∀ (s : Monitor α) (t : Nat) (ms : List (Move α)), s.clock = start →
    (s.run c (.start t f.call :: ms)).map Monitor.shown =
      (s.run c (.start t g.call :: ms)).map Monitor.shown

theorem Takes.interchangeable (hf : f.Takes c start wish p) (hg : g.Takes c start wish q)
    (hd : p.deadline start = q.deadline start) : f.Interchangeable c start g := by
  have halike : Call.Alike start (.ask wish p) (.ask wish q) := .ask hd
  have hturns : ∀ gs, Call.turns c start (.ask wish p) gs = Call.turns c start (.ask wish q) gs :=
    fun gs => Flight.Alike.turns (f := ⟨.ask wish p, start, .arriving⟩)
      (g := ⟨.ask wish q, start, .arriving⟩) ⟨halike, rfl, rfl⟩ c gs
  constructor
  · intro gs
    obtain ⟨_, _, hfcourse⟩ := hf.course gs
    obtain ⟨_, _, hgcourse⟩ := hg.course gs
    refine ⟨_, _, hfcourse, hgcourse, ?_⟩
    dsimp only
    rw [hturns, hd]
  · rw [hf.call, hg.call]
    exact hturns
  · intro s t ms hs
    rw [hf.call, hg.call]
    exact Monitor.run_start_alike (hs ▸ halike) c t ms

/-- The body comes to one wait at most, and the call is not turned away. -/
def WaitsOnce (c : Settings) (start : Instant) (f : Form α) : Prop :=
  ∀ gs, ∃ course, (f.body c start).course gs = some course ∧ course.waits ≤ 1 ∧
    ∀ s ∈ course.stretches, ∀ refusal, s.ending ≠ .returns (.refused refusal)

theorem Takes.waitsOnce (h : f.Takes c start wish .endless) : f.WaitsOnce c start := by
  intro gs
  obtain ⟨n, hn, hcourse⟩ := h.course gs
  refine ⟨_, hcourse, hn, ?_⟩
  rw [List.forall_mem_map]
  intro turn hturn refusal hending
  have hunrefused := Call.turns_endless_unrefused hturn refusal
  cases ho : turn.outcome with
  | returns reply =>
    simp only [Turn.stretch, ho, Ending.returns.injEq] at hending
    exact hunrefused (ho.trans (congrArg Outcome.returns hending))
  | waits phase => simp [Turn.stretch, ho] at hending

end Form

namespace Forms

structure Interchangeable (c : Settings) (start : Instant) (fs gs : Forms α) : Prop where
  put : fs.put.Interchangeable c start gs.put
  get : fs.get.Interchangeable c start gs.get
  peek : fs.peek.Interchangeable c start gs.peek

theorem Take.interchangeable {v : α} {p q : Patience} {fs gs : Forms α} (hf : fs.Take c start v p)
    (hg : gs.Take c start v q) (h : p.deadline start = q.deadline start) :
    fs.Interchangeable c start gs where
  put := hf.put.interchangeable hg.put h
  get := hf.get.interchangeable hg.get h
  peek := hf.peek.interchangeable hg.peek h

end Forms

/-- Forms with the same time to wait are the same call, and the loops of those without an end are as
good as a single wait. -/
theorem forms_interchangeable (c : Settings) (start : Instant) (v : α) :
    (∀ limit, Unending start limit →
      (Forms.endless v).Interchangeable c start (.under v limit)) ∧
    (∀ limit ∈ [Limit.within ⟨0⟩, .ofOption (some ⟨0⟩), .ofMillis 0, .nonBlocking],
      (Forms.atOnce v).Interchangeable c start (.under v limit)) ∧
    (Forms.atOnce v).Interchangeable c start (.within v ⟨0⟩) ∧
    (∀ limit, (Form.putNow v).Interchangeable c start (.putUnder v false limit)) ∧
    (∀ d, ∀ limit ∈ [Limit.within d, .ofOption (some d)],
      (Forms.within v d).Interchangeable c start (.under v limit)) ∧
    ∀ f ∈ [Form.put v, .get, .peek], f.WaitsOnce c start := by
  obtain ⟨hendless, hatOnce, hwithin, hunder, hblockless⟩ := Forms.take c start v
  refine ⟨?_, ?_, ?_, ?_, ?_, ?_⟩
  · intro limit hl
    exact hendless.interchangeable (hunder limit) hl.deadline.symm
  · intro limit hl
    refine hatOnce.interchangeable (hunder limit) ?_
    simp only [List.mem_cons, List.not_mem_nil, or_false] at hl
    rcases hl with rfl | rfl | rfl | rfl <;> rfl
  · exact hatOnce.interchangeable (hwithin ⟨0⟩) rfl
  · intro limit
    exact hatOnce.put.interchangeable (hblockless limit) rfl
  · intro d limit hl
    refine (hwithin d).interchangeable (hunder limit) ?_
    simp only [List.mem_cons, List.not_mem_nil, or_false] at hl
    rcases hl with rfl | rfl <;> rfl
  · simp only [List.forall_mem_cons]
    exact ⟨hendless.put.waitsOnce, hendless.get.waitsOnce, hendless.peek.waitsOnce, by simp⟩

/-- A get under a negative number of milliseconds snoozes, parks, wakes for no reason and is served,
just as one without a limit. -/
theorem forms_interchangeable_through_park :
    Unending 3 (.ofMillis (-5)) ∧ Unending 3 (.within ⟨horizon⟩) ∧
    (∃ course, ((Form.getUnder (.ofMillis (-5)) : Form Nat).body ⟨1, 1⟩ 3).course
        [⟨[], 3, .stray⟩, ⟨[], 4, .stray⟩, ⟨[], 9, .stray⟩, ⟨[8], 12, .signal⟩] = some course ∧
      course.stretches = [⟨[], [], [], .pauses (.snooze 0)⟩,
        ⟨[], [], [.parking .get 0 1], .pauses (.sleep .notEmpty none)⟩,
        ⟨[], [], [], .pauses (.sleep .notEmpty none)⟩,
        ⟨[], [.one .notFull], [], .returns (.value 8)⟩]) ∧
    ∃ turns, ((⟨[], [none, none], 3⟩ : Monitor Nat).run ⟨1, 1⟩
        [.start 0 (.getUnder (.within ⟨horizon⟩)), .turn 0 none, .turn 0 none, .start 1 (.put 8),
          .turn 1 (some 0), .turn 0 none]).map Monitor.shown = some ([], 3, turns) ∧
      turns.map Prod.fst = [0, 0, 1, 0] := by
  have hnegative : Unending 3 (.ofMillis (-5)) := .negative (by decide)
  have hbeyond : Unending 3 (.within ⟨horizon⟩) := .beyond (by decide) (by decide)
  obtain ⟨course, course', hget, hunder, hsame⟩ :=
    ((forms_interchangeable ⟨1, 1⟩ 3 8).1 _ hnegative).get.bodies
      [⟨[], 3, .stray⟩, ⟨[], 4, .stray⟩, ⟨[], 9, .stray⟩, ⟨[8], 12, .signal⟩]
  cases hget
  have hruns := ((forms_interchangeable ⟨1, 1⟩ 3 8).1 _ hbeyond).get.runs ⟨[], [none, none], 3⟩ 0
    [.turn 0 none, .turn 0 none, .start 1 (.put 8), .turn 1 (some 0), .turn 0 none] rfl
  exact ⟨hnegative, hbeyond, ⟨course', hunder, hsame.symm⟩, _, hruns.symm, rfl⟩

end BoundedBuffer.Queue
