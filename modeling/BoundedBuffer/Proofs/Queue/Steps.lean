import BoundedBuffer.Proofs.Queue.Turns
import BoundedBuffer.Queue.Log

namespace BoundedBuffer.Queue

open Time

variable {α : Type u} {c : Settings} {s next last : Monitor α} {m : Move α} {ms ms' : List (Move α)}
  {entry : Option (Entry α)} {log log' : List (Entry α)} {threads threads' : List (Option (Flight α))}
  {signal : Option Signal}

namespace Monitor

theorem flight?_eq_some {t : Nat} {f : Flight α} :
    s.flight? t = some f ↔ s.threads[t]? = some (some f) := by
  cases h : s.threads[t]? <;> simp [flight?, h]

theorem parkedOn_some_iff {q : Condition} {f : Flight α} :
    parkedOn q (some f) = true ↔ f.phase = .parked ∧ f.condition? = some q := by
  simp only [parkedOn, Option.bind_some, Flight.parkedOn?]
  split <;> simp_all

/-- What a signal does to the threads. One for a single call is lost only if nobody is parked. -/
inductive Delivered (threads : List (Option (Flight α))) :
    Option Signal → List (Option (Flight α)) → Prop
  | silent : Delivered threads none threads
  | all (condition : Condition) :
      Delivered threads (some (.all condition)) (wakeAll condition threads)
  | lost {condition : Condition} (nobody : threads.countP (parkedOn condition) = 0) :
      Delivered threads (some (.one condition)) threads
  | one {condition : Condition} {w : Nat} {f : Flight α}
      (found : threads[w]? = some (some f)) (parked : parkedOn condition (some f) = true) :
      Delivered threads (some (.one condition)) (threads.set w (some (f.wake .signal)))

theorem delivered_of_deliver {waiter : Option Nat}
    (h : deliver threads waiter signal = some threads') : Delivered threads signal threads' := by
  rcases signal with _ | condition | condition
  · cases h; exact .silent
  · cases waiter with
    | none =>
      simp only [deliver] at h
      split at h
      · cases h
      · rename_i hn
        cases h
        exact .lost (List.countP_eq_zero.mpr (by simpa using hn))
    | some w =>
      simp only [deliver] at h
      split at h
      · rename_i t ht
        split at h
        · rename_i hp
          cases h
          cases t with
          | none => simp [parkedOn] at hp
          | some f => exact .one ht hp
        · cases h
      · cases h
  · cases h; exact .all condition

theorem Delivered.length (h : Delivered threads signal threads') :
    threads'.length = threads.length := by
  cases h <;> simp [wakeAll]

theorem deliver_exists (threads : List (Option (Flight α))) (signal : Option Signal) :
    ∃ waiter threads', deliver threads waiter signal = some threads' := by
  rcases signal with _ | condition | condition
  · exact ⟨none, threads, rfl⟩
  · cases hn : threads.any (parkedOn condition) with
    | false => exact ⟨none, threads, by simp [deliver, hn]⟩
    | true =>
      obtain ⟨t, ht, hp⟩ := List.any_eq_true.mp hn
      obtain ⟨w, hw, he⟩ := List.getElem_of_mem ht
      exact ⟨some w, _, by simp [deliver, List.getElem?_eq_getElem hw, he, hp]; rfl⟩
  · exact ⟨none, wakeAll condition threads, rfl⟩

/-- All that can happen in a move. -/
inductive Steps (c : Settings) (s : Monitor α) :
    Move α → Monitor α → Option (Entry α) → Prop
  | start {t : Nat} {call : Call α} (idle : s.threads[t]? = some none) :
      Steps c s (.start t call) (s.setFlight t ⟨call, s.clock, .arriving⟩) none
  | turn {t : Nat} {waiter : Option Nat} {f : Flight α} {turn : Turn α}
      {threads : List (Option (Flight α))}
      (found : s.threads[t]? = some (some f)) (awake : f.phase ≠ .parked)
      (acts : f.Acts c s.items s.clock turn)
      (delivered : Delivered (s.threads.set t (turn.outcome.flight? f)) turn.signal threads) :
      Steps c s (.turn t waiter) { s with items := turn.items, threads } (some ⟨t, f, turn⟩)
  | expire {t : Nat} {f : Flight α} (found : s.threads[t]? = some (some f))
      (parked : f.phase = .parked) (due : f.deadline.expired s.clock = true) :
      Steps c s (.expire t) (s.setFlight t (f.wake .expiry)) none
  | stray {t : Nat} {f : Flight α} (found : s.threads[t]? = some (some f))
      (parked : f.phase = .parked) :
      Steps c s (.stray t) (s.setFlight t (f.wake .stray)) none
  | pass {span : Nat} : Steps c s (.pass span) { s with clock := s.clock + span } none

theorem steps_of_step (h : s.step c m = some (next, entry)) : Steps c s m next entry := by
  cases m with
  | start t call =>
    simp only [step] at h
    split at h
    · rename_i ht
      cases h
      exact .start ht
    · cases h
  | turn t waiter =>
    simp only [step] at h
    split at h
    · rename_i e he
      obtain ⟨s', ha, hs⟩ := Option.map_eq_some_iff.mp h
      cases hs
      unfold entry? at he
      split at he
      · rename_i f hf
        split at he
        · cases he
        · rename_i hp
          cases he
          obtain ⟨threads, hd, rfl⟩ := Option.map_eq_some_iff.mp ha
          exact .turn (flight?_eq_some.mp hf) hp (f.turn_acts c _ _) (delivered_of_deliver hd)
      · cases he
    · cases h
  | expire t =>
    simp only [step] at h
    split at h
    · rename_i f hf
      split at h
      · rename_i hp
        cases h
        exact .expire (flight?_eq_some.mp hf) hp.1 hp.2
      · cases h
    · cases h
  | stray t =>
    simp only [step] at h
    split at h
    · rename_i f hf
      split at h
      · rename_i hp
        cases h
        exact .stray (flight?_eq_some.mp hf) hp
      · cases h
    · cases h
  | pass span => cases h; exact .pass

theorem Steps.length (h : Steps c s m next entry) : next.threads.length = s.threads.length := by
  cases h with
  | turn _ _ _ delivered => exact delivered.length.trans (List.length_set ..)
  | pass => rfl
  | _ => exact List.length_set ..

theorem turn_possible {t : Nat} {f : Flight α} (hf : s.threads[t]? = some (some f))
    (hp : f.phase ≠ .parked) : ∃ waiter next, s.step c (.turn t waiter) = some next := by
  obtain ⟨waiter, threads, hd⟩ := deliver_exists
    (s.threads.set t ((f.turn c s.items s.clock).outcome.flight? f))
    (f.turn c s.items s.clock).signal
  exact ⟨waiter, _, by simp [step, entry?, flight?_eq_some.mpr hf, hp, after?, hd]; rfl⟩

theorem run_cons :
    s.run c (m :: ms) = some (last, log) ↔ ∃ next entry rest,
      s.step c m = some (next, entry) ∧ next.run c ms = some (last, rest) ∧
      log = entry.toList ++ rest := by
  simp only [run]
  cases h : s.step c m with
  | none => simp
  | some p =>
    obtain ⟨next, entry⟩ := p
    simp only [Option.map_eq_some_iff, Option.some.injEq, Prod.mk.injEq, Prod.exists]
    constructor
    · rintro ⟨l, rest, hr, rfl, rfl⟩
      exact ⟨next, entry, rest, ⟨rfl, rfl⟩, hr, rfl⟩
    · rintro ⟨_, _, rest, ⟨rfl, rfl⟩, hr, rfl⟩
      exact ⟨last, rest, hr, rfl, rfl⟩

theorem run_append (h : s.run c ms = some (next, log)) (h' : next.run c ms' = some (last, log')) :
    s.run c (ms ++ ms') = some (last, log ++ log') := by
  induction ms generalizing s log with
  | nil =>
    cases h
    exact h'
  | cons m ms ih =>
    obtain ⟨mid, entry, rest, hs, hr, rfl⟩ := run_cons.mp h
    rw [List.append_assoc]
    exact run_cons.mpr ⟨mid, entry, _, hs, ih hr, rfl⟩

theorem run_length (hr : s.run c ms = some (last, log)) :
    last.threads.length = s.threads.length := by
  induction ms generalizing s log with
  | nil =>
    cases hr
    rfl
  | cons m ms ih =>
    obtain ⟨next, entry, rest, hs, hr, _⟩ := run_cons.mp hr
    exact (ih hr).trans (steps_of_step hs).length

theorem Reachable.run (h : Reachable c s) (hr : s.run c ms = some (last, log)) :
    Reachable c last := by
  induction ms generalizing s log with
  | nil =>
    cases hr
    exact h
  | cons m ms ih =>
    obtain ⟨next, entry, rest, hs, hr, _⟩ := run_cons.mp hr
    exact ih (h.step m hs) hr

theorem Delivered.getElem? (h : Delivered threads signal threads') (t : Nat) :
    threads'[t]? = threads[t]? ∨ ∃ f, threads[t]? = some (some f) ∧ f.phase = .parked ∧
      threads'[t]? = some (some (f.wake .signal)) := by
  cases h with
  | silent => exact Or.inl rfl
  | lost => exact Or.inl rfl
  | all condition =>
    simp only [wakeAll, List.getElem?_map]
    cases ht : threads[t]? with
    | none => exact Or.inl rfl
    | some thread =>
      simp only [Option.map_some]
      split
      · rename_i hp
        cases thread with
        | none => cases hp
        | some f => exact Or.inr ⟨f, rfl, (parkedOn_some_iff.mp hp).1, rfl⟩
      · exact Or.inl rfl
  | @one condition w f found parked =>
    by_cases hw : w = t
    · subst hw
      obtain ⟨hlt, _⟩ := List.getElem?_eq_some_iff.mp found
      exact Or.inr ⟨f, found, (parkedOn_some_iff.mp parked).1, List.getElem?_set_self hlt⟩
    · exact Or.inl (List.getElem?_set_ne hw)

theorem Delivered.mem {g : Flight α} (h : Delivered threads signal threads')
    (hg : some g ∈ threads') :
    some g ∈ threads ∨ ∃ f, some f ∈ threads ∧ f.phase = .parked ∧ g = f.wake .signal := by
  obtain ⟨t, ht⟩ := List.mem_iff_getElem?.mp hg
  rcases h.getElem? t with he | ⟨f, hf, hp, he⟩
  · exact Or.inl (List.mem_of_getElem? (he ▸ ht))
  · rw [he] at ht
    cases ht
    exact Or.inr ⟨f, List.mem_of_getElem? hf, hp, rfl⟩

/-- What holds of a call at its start, and is kept by waiting and waking, is kept by a move. -/
theorem Steps.flights {p : Flight α → Prop}
    (start : ∀ t call, m = .start t call → p ⟨call, s.clock, .arriving⟩)
    (wait : ∀ f xs now turn phase, p f → f.Acts c xs now turn → turn.outcome = .waits phase →
      p { f with phase })
    (wake : ∀ f cause, p f → f.phase = .parked → p (f.wake cause)) (h : Steps c s m next entry)
    (hp : ∀ f, some f ∈ s.threads → p f) : ∀ f, some f ∈ next.threads → p f := by
  have hset : ∀ {t : Nat} {new : Option (Flight α)}, (∀ g, new = some g → p g) →
      ∀ f, some f ∈ s.threads.set t new → p f := by
    intro t new hnew f hf
    rcases List.mem_or_eq_of_mem_set hf with hf | he
    · exact hp f hf
    · exact hnew f he.symm
  cases h with
  | start => exact hset (fun g hg => Option.some.inj hg ▸ start _ _ rfl)
  | @turn t _ f turn _ found awake acts delivered =>
    have hnew : ∀ g, some g ∈ s.threads.set t (turn.outcome.flight? f) → p g := by
      apply hset
      intro g hg
      cases ho : turn.outcome with
      | returns => rw [ho] at hg; cases hg
      | waits phase =>
        rw [ho] at hg
        cases hg
        exact wait f _ _ turn phase (hp f (List.mem_of_getElem? found)) acts ho
    intro f hf
    rcases delivered.mem hf with hf | ⟨g, hg, hparked, rfl⟩
    · exact hnew f hf
    · exact wake g _ (hnew g hg) hparked
  | expire found parked =>
    exact hset (fun g hg => Option.some.inj hg ▸
      wake _ _ (hp _ (List.mem_of_getElem? found)) parked)
  | stray found parked =>
    exact hset (fun g hg => Option.some.inj hg ▸
      wake _ _ (hp _ (List.mem_of_getElem? found)) parked)
  | pass => exact hp

theorem Reachable.flights {p : Flight α → Prop} (start : ∀ call clock, p ⟨call, clock, .arriving⟩)
    (wait : ∀ f xs now turn phase, p f → f.Acts c xs now turn → turn.outcome = .waits phase →
      p { f with phase })
    (wake : ∀ f cause, p f → f.phase = .parked → p (f.wake cause)) (h : Reachable c s) :
    ∀ f, some f ∈ s.threads → p f := by
  induction h with
  | idle n clock =>
    intro f hf
    simp [Monitor.idle] at hf
  | step m _ hs ih =>
    exact (steps_of_step hs).flights (fun _ call _ => start call _) wait wake ih

end Monitor

end BoundedBuffer.Queue
