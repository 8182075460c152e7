import BoundedBuffer.Proofs.Queue.Effects

namespace BoundedBuffer.Queue

open Time

variable {α : Type u} {c : Settings} {s next last : Monitor α} {m : Move α} {ms : List (Move α)}
  {entry : Option (Entry α)} {log : List (Entry α)}

namespace Ended

def put? : Ended α → Option α
  | ⟨_, .ask (.put v) _, .accepted⟩ => some v
  | _ => none

def taken : Ended α → List α
  | ⟨_, .ask .get _, .value v⟩ => [v]
  | ⟨_, .drain, .drained vs⟩ => vs
  | ⟨_, .clear, .cleared vs⟩ => vs
  | _ => []

end Ended

namespace Log

def accepted (log : List (Entry α)) : List α :=
  (ended log).filterMap Ended.put?

/-- The values that gets, drains and clears took out, in that order. -/
def taken (log : List (Entry α)) : List α :=
  (ended log).flatMap Ended.taken

end Log

/-- Calls that nobody disturbs, one after the other. -/
inductive Legal (c : Settings) : List α → List (Ended α) → List α → Prop
  | nil {xs : List α} : Legal c xs [] xs
  | cons {xs ys zs : List α} {d : Ended α} {ds : List (Ended α)}
      (first : Sequential c xs d.call d.reply ys) (rest : Legal c ys ds zs) :
      Legal c xs (d :: ds) zs

/-- No value is lost, doubled or overtaken. -/
theorem Legal.conserves {xs ys : List α} {ds : List (Ended α)} (h : Legal c xs ds ys) :
    xs ++ ds.filterMap Ended.put? = ds.flatMap Ended.taken ++ ys := by
  induction h with
  | nil => simp
  | @cons xs ys zs d ds first rest ih =>
    obtain ⟨t, call, reply⟩ := d
    cases first with
    | put => simpa [List.filterMap_cons, Ended.put?, Ended.taken] using ih
    | get => simpa [List.filterMap_cons, Ended.put?, Ended.taken] using ih
    | clear => simpa [List.filterMap_cons, Ended.put?, Ended.taken] using ih
    | drain => simpa [List.filterMap_cons, Ended.put?, Ended.taken] using ih
    | _ => exact ih

theorem Legal.lawful {xs ys : List α} {ds : List (Ended α)} (h : Legal c xs ds ys) {d : Ended α}
    (hd : d ∈ ds) : ∃ before after, Sequential c before d.call d.reply after := by
  induction h with
  | nil => cases hd
  | cons first _ ih =>
    rcases List.mem_cons.mp hd with rfl | hd
    · exact ⟨_, _, first⟩
    · exact ih hd

/-- A step of a run, with the states around it and the turn taken in it, if any. -/
structure Moment (α : Type u) where
  before : Monitor α
  move : Move α
  entry : Option (Entry α)
  after : Monitor α

namespace Moment

def ended? (m : Moment α) : Option (Ended α) :=
  m.entry.bind Entry.ended?

def Borders (t : Nat) (m : Moment α) : Prop :=
  (∃ call, m.move = .start t call) ∨ ∃ d, m.ended? = some d ∧ d.thread = t

/-- The last thing that the thread did on this path, apart from waiting, was to start this call. -/
def Started (t : Nat) (call : Call α) (path : List (Moment α)) : Prop :=
  ∃ prior first since, path = prior ++ first :: since ∧ first.move = .start t call ∧
    ∀ x ∈ since, ¬ x.Borders t

/-- Values change only in a turn in which a call ends, and as it would change them alone. -/
def Sound (c : Settings) (path : List (Moment α)) (m : Moment α) : Prop :=
  match m.ended? with
  | none => m.after.items = m.before.items
  | some d =>
    (∃ waiter, m.move = .turn d.thread waiter) ∧
      Sequential c m.before.items d.call d.reply m.after.items ∧ Started d.thread d.call path

end Moment

namespace Monitor

def moments (c : Settings) (s : Monitor α) : List (Move α) → List (Moment α)
  | [] => []
  | m :: ms =>
    match s.step c m with
    | none => []
    | some (next, entry) => ⟨s, m, entry, next⟩ :: moments c next ms

theorem moments_cons (h : s.step c m = some (next, entry)) (ms : List (Move α)) :
    moments c s (m :: ms) = ⟨s, m, entry, next⟩ :: moments c next ms := by
  simp [moments, h]

theorem run_moments (h : s.run c ms = some (last, log)) :
    (moments c s ms).map Moment.move = ms ∧ (moments c s ms).filterMap Moment.entry = log := by
  induction ms generalizing s log with
  | nil =>
    cases h
    exact ⟨rfl, rfl⟩
  | cons m ms ih =>
    obtain ⟨next, entry, rest, hs, hr, rfl⟩ := run_cons.mp h
    obtain ⟨hm, hl⟩ := ih hr
    rw [moments_cons hs]
    cases entry with
    | none => exact ⟨by simp [hm], by simpa using hl⟩
    | some e => exact ⟨by simp [hm], by simpa using hl⟩

theorem run_legal (h : s.run c ms = some (last, log)) (hx : c.Fits s.items) :
    Legal c s.items (Log.ended log) last.items := by
  induction ms generalizing s log with
  | nil =>
    cases h
    exact .nil
  | cons m ms ih =>
    obtain ⟨next, entry, rest, hs, hr, rfl⟩ := run_cons.mp h
    have he := effect_of_step hs hx
    have hl := ih hr (he.fits hx)
    rw [Log.ended_append]
    cases he with
    | begun _ quiet items => rw [quiet]; rwa [items] at hl
    | quiet _ quiet items => rw [quiet]; rwa [items] at hl
    | ended _ ended lawful => rw [ended]; exact .cons lawful hl

/-- After a path the thread is in this call, since its start or from the first. -/
def Underway (s : Monitor α) (t : Nat) (call : Call α) (path : List (Moment α)) : Prop :=
  (s.calls[t]? = some (some call) ∧ ∀ x ∈ path, ¬ x.Borders t) ∨ Moment.Started t call path

theorem Effect.not_borders {t : Nat} {call : Call α} (h : Effect c s m next entry)
    (hn : next.calls[t]? = some (some call)) (hm : m ≠ .start t call) :
    s.calls[t]? = some (some call) ∧ ¬ Moment.Borders t ⟨s, m, entry, next⟩ := by
  cases h with
  | @begun u call' move quiet _ idle calls =>
    subst move quiet
    rw [calls] at hn
    by_cases hu : u = t
    · subst hu
      obtain ⟨hu, _⟩ := List.getElem?_eq_some_iff.mp idle
      rw [List.getElem?_set_self hu] at hn
      cases hn
      exact absurd rfl hm
    · rw [List.getElem?_set_ne hu] at hn
      refine ⟨hn, ?_⟩
      rintro (⟨call, hc⟩ | ⟨d, hd, _⟩)
      · cases hc; exact hu rfl
      · cases hd
  | quiet move quiet _ calls =>
    rw [calls] at hn
    refine ⟨hn, ?_⟩
    rintro (⟨call, hc⟩ | ⟨d, hd, _⟩)
    · exact move t call hc
    · exact absurd (quiet.symm.trans hd) (by simp)
  | @ended d waiter move ended _ flying calls =>
    rw [calls] at hn
    by_cases hu : d.thread = t
    · subst hu
      obtain ⟨hu, _⟩ := List.getElem?_eq_some_iff.mp flying
      rw [List.getElem?_set_self hu] at hn
      cases hn
    · rw [List.getElem?_set_ne hu] at hn
      refine ⟨hn, ?_⟩
      rintro (⟨call, hc⟩ | ⟨d', hd, rfl⟩)
      · rw [move] at hc; cases hc
      · rw [Option.some.inj (ended.symm.trans hd)] at hu
        exact hu rfl

theorem Underway.extend {t : Nat} {call : Call α} {path : List (Moment α)}
    (he : Effect c s m next entry) (h : Underway next t call path) :
    Underway s t call (⟨s, m, entry, next⟩ :: path) := by
  rcases h with ⟨hn, hp⟩ | ⟨prior, first, since, rfl, hf, hs⟩
  · by_cases hm : m = .start t call
    · exact Or.inr ⟨[], _, path, rfl, hm, hp⟩
    · obtain ⟨hc, hb⟩ := he.not_borders hn hm
      refine Or.inl ⟨hc, ?_⟩
      intro x hx
      rcases List.mem_cons.mp hx with rfl | hx
      · exact hb
      · exact hp x hx
  · exact Or.inr ⟨_ :: prior, first, since, rfl, hf, hs⟩

theorem underway_of_run {path later : List (Moment α)} {m : Moment α} {d : Ended α}
    (hx : c.Fits s.items) (h : moments c s ms = path ++ m :: later) (hd : m.ended? = some d) :
    Underway s d.thread d.call path := by
  induction ms generalizing s path with
  | nil => cases path <;> cases h
  | cons mv ms ih =>
    cases hs : s.step c mv with
    | none => cases path <;> simp [moments, hs] at h
    | some p =>
      obtain ⟨next, entry⟩ := p
      have he := effect_of_step hs hx
      rw [moments_cons hs] at h
      cases path with
      | nil =>
        obtain ⟨rfl, _⟩ := List.cons.inj h
        cases he with
        | begun _ quiet => rw [Moment.ended?, quiet] at hd; cases hd
        | quiet _ quiet => exact absurd (quiet.symm.trans hd) (by simp)
        | ended _ ended _ flying =>
          cases ended.symm.trans hd
          exact Or.inl ⟨flying, by simp⟩
      | cons x path =>
        obtain ⟨rfl, ht⟩ := List.cons.inj h
        exact (ih (he.fits hx) ht).extend he

/-- What every step keeps holds before each moment of a run, and each moment is a step. -/
theorem moment_keeps {p : Monitor α → Prop} {m : Moment α} (hs : p s)
    (keeps : ∀ s m next entry, p s → s.step c m = some (next, entry) → p next)
    (h : m ∈ moments c s ms) :
    p m.before ∧ m.before.step c m.move = some (m.after, m.entry) := by
  induction ms generalizing s with
  | nil => cases h
  | cons mv ms ih =>
    cases hstep : s.step c mv with
    | none => simp [moments, hstep] at h
    | some r =>
      obtain ⟨next, entry⟩ := r
      rw [moments_cons hstep] at h
      rcases List.mem_cons.mp h with rfl | h
      · exact ⟨hs, hstep⟩
      · exact ih (keeps s mv next entry hs hstep) h

theorem fits_of_moment {m : Moment α} (hx : c.Fits s.items) (h : m ∈ moments c s ms) :
    c.Fits m.before.items :=
  (moment_keeps (p := fun s => c.Fits s.items) hx
    (fun _ _ _ _ hx hs => (effect_of_step hs hx).fits hx) h).1

theorem steps_of_moment {m : Moment α} (h : m ∈ moments c s ms) :
    Steps c m.before m.move m.after m.entry :=
  steps_of_step (moment_keeps (p := fun _ => True) trivial (fun _ _ _ _ _ _ => trivial) h).2

theorem effect_of_moment {m : Moment α} (hx : c.Fits s.items) (h : m ∈ moments c s ms) :
    Effect c m.before m.move m.after m.entry :=
  effect_of_steps (steps_of_moment h) (fits_of_moment hx h)

theorem moment_sound {n : Nat} {clock : Instant} {path later : List (Moment α)} {m : Moment α}
    (h : moments c (idle n clock) ms = path ++ m :: later) : m.Sound c path := by
  have hx := fits_idle (α := α) c n clock
  have he := effect_of_moment hx (m := m) (by rw [h]; simp)
  cases hd : m.ended? with
  | none =>
    simp only [Moment.Sound, hd]
    cases he with
    | begun _ _ items => exact items
    | quiet _ _ items => exact items
    | ended _ ended => exact absurd (ended.symm.trans hd) (by simp)
  | some d =>
    have hstart : Moment.Started d.thread d.call path := by
      rcases underway_of_run hx h hd with ⟨hc, _⟩ | hs
      · simp [calls, idle, List.getElem?_replicate] at hc
      · exact hs
    simp only [Moment.Sound, hd]
    cases he with
    | begun _ quiet => rw [Moment.ended?, quiet] at hd; cases hd
    | quiet _ quiet => exact absurd (quiet.symm.trans hd) (by simp)
    | ended move ended lawful =>
      cases ended.symm.trans hd
      exact ⟨⟨_, move⟩, lawful, hstart⟩

/-- The calls that ended in a run, each in its last turn, are a sequential history, and nothing else
changes the values. -/
theorem run_linearizable {c : Settings} {n : Nat} {clock : Instant} {ms : List (Move α)}
    {s : Monitor α} {log : List (Entry α)} (h : (idle n clock).run c ms = some (s, log)) :
    Legal c [] (Log.ended log) s.items ∧
      Log.accepted log = Log.taken log ++ s.items ∧
      (moments c (idle n clock) ms).map Moment.move = ms ∧
      (moments c (idle n clock) ms).filterMap Moment.entry = log ∧
      ∀ path m later, moments c (idle n clock) ms = path ++ m :: later → m.Sound c path := by
  have hl := run_legal h (fits_idle c n clock)
  obtain ⟨hm, he⟩ := run_moments h
  exact ⟨hl, hl.conserves, hm, he, fun _ _ _ => moment_sound⟩

/-- A get is signalled, but another call takes its value; a put that finds the queue full is served
after a clear. -/
theorem barging_run_linearizable :
    ∃ s log, (idle 3 0 : Monitor Nat).run ⟨1, 1⟩ [.start 0 .get, .turn 0 none, .turn 0 none,
        .start 1 (.put 7), .turn 1 (some 0), .start 2 .getNow, .turn 2 none, .turn 0 none,
        .start 1 (.put 8), .turn 1 (some 0), .start 1 (.put 9), .turn 1 none, .turn 1 none,
        .start 2 .clear, .turn 2 none, .turn 1 none] = some (s, log) ∧
      Log.accepted log = [7, 8, 9] ∧ Log.taken log = [7, 8] ∧ s.items = [9] ∧
      Legal ⟨1, 1⟩ [] (Log.ended log) s.items ∧ Log.accepted log = Log.taken log ++ s.items :=
  have h := @run_linearizable Nat ⟨1, 1⟩ 3 0 [.start 0 .get, .turn 0 none, .turn 0 none,
    .start 1 (.put 7), .turn 1 (some 0), .start 2 .getNow, .turn 2 none, .turn 0 none,
    .start 1 (.put 8), .turn 1 (some 0), .start 1 (.put 9), .turn 1 none, .turn 1 none,
    .start 2 .clear, .turn 2 none, .turn 1 none] _ _ rfl
  ⟨_, _, rfl, rfl, rfl, rfl, h.1, h.2.1⟩

end Monitor

end BoundedBuffer.Queue
