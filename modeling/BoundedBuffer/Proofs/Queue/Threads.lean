import BoundedBuffer.Proofs.Queue.Steps

namespace BoundedBuffer.Queue

open Time

variable {α : Type u} {c : Settings} {s next last : Monitor α} {m : Move α} {ms : List (Move α)}
  {entry : Option (Entry α)} {log : List (Entry α)} {t : Nat} {f : Flight α}
  {threads threads' : List (Option (Flight α))} {signal : Option Signal}

namespace Flight

/-- A call that goes on waiting changes nothing and signals nobody. -/
theorem Acts.of_waits {xs : List α} {now : Instant} {turn : Turn α} {phase : Phase}
    (h : f.Acts c xs now turn) (ho : turn.outcome = .waits phase) :
    turn.items = xs ∧ turn.signal = none ∧ (f.phase = .arriving → f.deadline ≠ .poll) := by
  cases h with
  | @waits wish patience _ call _ look =>
    refine ⟨rfl, rfl, ?_⟩
    intro hp hd
    simp only [deadline, call] at hd
    simp [hp, hd, Phase.look] at look
  | _ => cases ho

end Flight

namespace Monitor

theorem Delivered.idle (h : Delivered threads signal threads') (ht : threads[t]? = some none) :
    threads'[t]? = some none := by
  rcases h.getElem? t with he | ⟨f, hf, _⟩
  · rw [he, ht]
  · rw [ht] at hf
    cases hf

/-- In a move a call stays as it is, is woken, or takes its turn and waits on or ends. -/
inductive Fares (c : Settings) (t : Nat) (f : Flight α) (s next : Monitor α)
    (entry : Option (Entry α)) : Prop
  | stays (others : ∀ e, entry = some e → e.thread ≠ t) (same : next.threads[t]? = some (some f))
  | wakes {cause : Cause} (others : ∀ e, entry = some e → e.thread ≠ t)
      (parked : f.phase = .parked) (awake : next.threads[t]? = some (some (f.wake cause)))
  | waits {turn : Turn α} {phase : Phase} (taken : entry = some ⟨t, f, turn⟩)
      (acts : f.Acts c s.items s.clock turn) (waiting : turn.outcome = .waits phase)
      (items : next.items = turn.items) (same : next.threads[t]? = some (some { f with phase }))
  | ends {turn : Turn α} {reply : Reply α} (taken : entry = some ⟨t, f, turn⟩)
      (acts : f.Acts c s.items s.clock turn) (ended : turn.outcome = .returns reply)
      (items : next.items = turn.items) (gone : next.threads[t]? = some none)

theorem Steps.fares (h : Steps c s m next entry) (hf : s.threads[t]? = some (some f)) :
    Fares c t f s next entry := by
  obtain ⟨hlt, _⟩ := List.getElem?_eq_some_iff.mp hf
  have hwake : ∀ {u : Nat} {g : Flight α} (cause : Cause), s.threads[u]? = some (some g) →
      g.phase = .parked → Fares c t f s (s.setFlight u (g.wake cause)) none := by
    intro u g cause found parked
    by_cases hu : u = t
    · subst hu
      rw [hf] at found
      cases found
      exact .wakes (by simp) parked (List.getElem?_set_self hlt)
    · exact .stays (by simp) ((List.getElem?_set_ne hu).trans hf)
  cases h with
  | @start u call idle =>
    have hu : u ≠ t := by
      intro hu
      rw [hu, hf] at idle
      cases idle
    exact .stays (by simp) ((List.getElem?_set_ne hu).trans hf)
  | @turn u waiter g turn threads found awake acts delivered =>
    by_cases hu : u = t
    · subst hu
      obtain rfl : g = f := by
        rw [hf] at found
        cases found
        rfl
      have hset := List.getElem?_set_self (a := turn.outcome.flight? g) hlt
      cases ho : turn.outcome with
      | returns reply =>
        rw [ho] at delivered hset
        exact .ends rfl acts ho rfl (delivered.idle hset)
      | waits phase =>
        rw [ho] at delivered hset
        rw [(acts.of_waits ho).2.1] at delivered
        cases delivered
        exact .waits rfl acts ho rfl hset
    · have hset : (s.threads.set u (turn.outcome.flight? g))[t]? = some (some f) :=
        (List.getElem?_set_ne hu).trans hf
      have hothers : ∀ e, some (⟨u, g, turn⟩ : Entry α) = some e → e.thread ≠ t := by
        intro e he
        cases he
        exact hu
      rcases delivered.getElem? t with he | ⟨g', hg, hp, he⟩
      · exact .stays hothers (he.trans hset)
      · rw [hset] at hg
        cases hg
        exact .wakes hothers hp he
  | expire found parked => exact hwake _ found parked
  | stray found parked => exact hwake _ found parked
  | pass => exact .stays (by simp) hf

theorem Steps.idle (h : Steps c s m next entry) (hn : s.threads[t]? = some none)
    (hm : ∀ call, m ≠ .start t call) : next.threads[t]? = some none := by
  have hset : ∀ {u : Nat} {f : Flight α} (new : Option (Flight α)),
      s.threads[u]? = some (some f) → (s.threads.set u new)[t]? = some none := by
    intro u f new hf
    have hu : u ≠ t := by
      intro hu
      rw [hu, hn] at hf
      cases hf
    exact (List.getElem?_set_ne hu).trans hn
  cases h with
  | @start u call =>
    have hu : u ≠ t := by
      intro hu
      exact hm call (hu ▸ rfl)
    exact (List.getElem?_set_ne hu).trans hn
  | turn found _ _ delivered => exact delivered.idle (hset _ found)
  | expire found => exact hset _ found
  | stray found => exact hset _ found
  | pass => exact hn

theorem run_idle (hr : s.run c ms = some (last, log)) (hn : s.threads[t]? = some none)
    (hms : ∀ call, .start t call ∉ ms) : last.threads[t]? = some none := by
  induction ms generalizing s log with
  | nil =>
    cases hr
    exact hn
  | cons m ms ih =>
    obtain ⟨next, entry, rest, hs, hr, _⟩ := run_cons.mp hr
    have hnext := (steps_of_step hs).idle hn (fun call he => hms call (he ▸ List.mem_cons_self))
    exact ih hr hnext (fun call hc => hms call (List.mem_cons_of_mem m hc))

theorem run_vacant (hr : s.run c ms = some (last, log)) (hn : s.flight? t = none)
    (hms : ∀ call, .start t call ∉ ms) : last.flight? t = none := by
  cases ht : s.threads[t]? with
  | none =>
    have hlength := List.getElem?_eq_none_iff.mp ht
    rw [← run_length hr] at hlength
    simp [flight?, List.getElem?_eq_none hlength]
  | some thread =>
    obtain rfl : thread = none := by simpa [flight?, ht] using hn
    simp [flight?, run_idle hr ht hms]

end Monitor

end BoundedBuffer.Queue
