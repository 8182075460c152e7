import BoundedBuffer.Proofs.Queue.Linearizability
import BoundedBuffer.Proofs.Queue.Threads

namespace BoundedBuffer.Queue

open Time

variable {α : Type u} {c : Settings} {s next last : Monitor α} {m : Move α} {ms : List (Move α)}
  {entry : Option (Entry α)} {log : List (Entry α)} {t : Nat} {v : α} {xs ys : List α}

theorem Sequential.extends {d : Ended α} (h : Sequential c xs d.call d.reply ys)
    (hd : d.taken = []) : ys = xs ++ d.put?.toList := by
  have hsame := (Legal.cons h .nil).conserves
  rw [List.flatMap_singleton, hd, List.nil_append] at hsame
  rw [← hsame]
  cases hp : d.put? <;> simp [hp]

theorem Sequential.peeks {p : Patience} {reply : Reply α}
    (h : Sequential c xs (.ask .peek p) reply ys) (hv : xs.head? = some v) : reply = .value v := by
  cases h with
  | peek => cases hv; rfl
  | peekEmpty => cases hv

theorem Sequential.front_of_peek {p : Patience}
    (h : Sequential c xs (.ask .peek p) (.value v) ys) : ys.head? = some v := by
  cases h
  rfl

theorem not_blocked_of_front (hv : xs.head? = some v) : Wish.get.blocked c xs = false := by
  cases xs with
  | nil => cases hv
  | cons => rfl

namespace Monitor

/-- The value is the first in the queue, and a get of the thread has yet to look. -/
structure Announced (t : Nat) (v : α) (s : Monitor α) : Prop where
  front : s.items.head? = some v
  fresh : ∀ f q, s.threads[t]? = some (some f) → f.call = .ask .get q → f.phase = .arriving

theorem Effect.front (he : Effect c s m next entry)
    (still : ∀ d, entry.bind Entry.ended? = some d → d.taken = [])
    (hv : s.items.head? = some v) : next.items.head? = some v := by
  cases he with
  | begun _ _ items => rwa [items]
  | quiet _ _ items => rwa [items]
  | ended _ ended lawful =>
    rw [lawful.extends (still _ ended), List.head?_append, hv, Option.some_or]

/-- A get that has just started cannot be woken, and does not wait when it looks. -/
theorem Steps.fresh (hs : Steps c s m next entry) (h : Announced t v s) :
    ∀ f q, next.threads[t]? = some (some f) → f.call = .ask .get q → f.phase = .arriving := by
  intro f q hf hq
  cases ht : s.threads[t]? with
  | none =>
    have hlt := (List.getElem?_eq_some_iff.mp hf).1
    rw [hs.length] at hlt
    exact absurd hlt (Nat.not_lt.mpr (List.getElem?_eq_none_iff.mp ht))
  | some thread =>
    cases thread with
    | none =>
      by_cases hm : ∃ call, m = .start t call
      · obtain ⟨call, rfl⟩ := hm
        cases hs with
        | start idle =>
          obtain ⟨hlt, _⟩ := List.getElem?_eq_some_iff.mp ht
          rw [setFlight, List.getElem?_set_self hlt] at hf
          cases hf
          rfl
      · rw [hs.idle ht (fun call he => hm ⟨call, he⟩)] at hf
        cases hf
    | some g =>
      cases hs.fares ht with
      | stays _ same =>
        rw [same] at hf
        cases hf
        exact h.fresh f q ht hq
      | wakes _ parked awake =>
        rw [awake] at hf
        cases hf
        cases parked.symm.trans (h.fresh g q ht hq)
      | waits _ acts waiting _ same =>
        rw [same] at hf
        cases hf
        cases acts with
        | waits call blocked =>
          cases hq.symm.trans call
          exact absurd blocked (by simp [not_blocked_of_front h.front])
        | _ => cases waiting
      | ends _ _ _ _ gone =>
        rw [gone] at hf
        cases hf

theorem Announced.step (h : Announced t v s) (hx : c.Fits s.items)
    (hs : s.step c m = some (next, entry))
    (still : ∀ d, entry.bind Entry.ended? = some d → d.taken = []) : Announced t v next where
  front := (effect_of_step hs hx).front still h.front
  fresh := (steps_of_step hs).fresh h

/-- What is announced stays announced until a value is taken out, and until then every peek sees
it. -/
theorem Announced.run (h : Announced t v s) (hx : c.Fits s.items)
    (hr : s.run c ms = some (last, log)) (still : ∀ d ∈ Log.ended log, d.taken = []) :
    Announced t v last ∧
      ∀ d ∈ Log.ended log, ∀ q, d.call = .ask .peek q → d.reply = .value v := by
  induction ms generalizing s log with
  | nil =>
    cases hr
    exact ⟨h, by simp [Log.ended]⟩
  | cons m ms ih =>
    obtain ⟨next, entry, rest, hs, hrest, rfl⟩ := run_cons.mp hr
    rw [Log.ended_append] at still ⊢
    obtain ⟨hnow, hlater⟩ := List.forall_mem_append.mp still
    have he := effect_of_step hs hx
    have hnext := h.step hx hs (fun d hd => hnow d (by simp [hd]))
    obtain ⟨hlast, hpeeks⟩ := ih hnext (he.fits hx) hrest hlater
    refine ⟨hlast, List.forall_mem_append.mpr ⟨?_, hpeeks⟩⟩
    intro d hd q hq
    cases he with
    | begun _ quiet => simp [quiet] at hd
    | quiet _ quiet => simp [quiet] at hd
    | ended _ ended lawful =>
      rw [ended, Option.toList_some, List.mem_singleton] at hd
      subst hd
      rw [hq] at lawful
      exact lawful.peeks h.front

theorem announced_of_peek {e : Entry α} {p : Patience} (hs : s.step c m = some (next, some e))
    (hx : c.Fits s.items) (he : e.ended? = some ⟨t, .ask .peek p, .value v⟩) :
    Announced t v next := by
  cases effect_of_step hs hx with
  | begun _ quiet => cases quiet
  | quiet _ quiet => exact absurd (quiet.symm.trans he) (by simp)
  | ended _ ended lawful flying calls =>
    cases ended.symm.trans he
    refine ⟨lawful.front_of_peek, ?_⟩
    intro f q hf
    have hgone := calls_found hf
    obtain ⟨hlt, _⟩ := List.getElem?_eq_some_iff.mp flying
    rw [calls, List.getElem?_set_self hlt] at hgone
    cases hgone

/-- A get that comes to an announced value takes it at its first look. -/
theorem Announced.get (h : Announced t v s) {f : Flight α} {q : Patience} {waiter : Option Nat}
    (hf : s.threads[t]? = some (some f)) (hq : f.call = .ask .get q)
    (hs : s.step c (.turn t waiter) = some (next, entry)) :
    entry.bind Entry.ended? = some ⟨t, .ask .get q, .value v⟩ ∧ s.items = v :: next.items := by
  have hsteps := steps_of_step hs
  generalize hm : Move.turn t waiter = m at hsteps
  cases hsteps with
  | turn found awake acts =>
    cases hm
    cases hf.symm.trans found
    cases acts with
    | get call held =>
      have hitems := h.front
      rw [held] at hitems
      cases hitems
      cases hq.symm.trans call
      exact ⟨by simp [Entry.ended?, Outcome.reply?, hq], held⟩
    | waits call blocked | refused call blocked =>
      cases hq.symm.trans call
      exact absurd blocked (by simp [not_blocked_of_front h.front])
    | put call | peek call => cases hq.symm.trans call
    | clear call | drain call | size call => cases hq.symm.trans call
  | _ => cases hm

/-- When one thread alone takes values out, what a peek of it sees is what its next get returns, at
its first look. -/
theorem peek_announces_get {c : Settings} {s next last : Monitor α} {m : Move α} {e : Entry α}
    {ms : List (Move α)} {log : List (Entry α)} {t : Nat} {p : Patience} {v : α}
    (h : Reachable c s) (hpeek : s.step c m = some (next, some e))
    (seen : e.ended? = some ⟨t, .ask .peek p, .value v⟩) (hr : next.run c ms = some (last, log))
    (lone : ∀ d ∈ Log.ended log, d.taken ≠ [] → d.thread = t)
    (still : ∀ d ∈ Log.ended log, d.thread = t → d.taken = []) :
    (∀ d ∈ Log.ended log, ∀ q, d.call = .ask .peek q → d.reply = .value v) ∧
      ∀ f q, last.threads[t]? = some (some f) → f.call = .ask .get q →
        f.phase = .arriving ∧
        (∃ waiter after, last.step c (.turn t waiter) = some after) ∧
        ∀ waiter after entry, last.step c (.turn t waiter) = some (after, entry) →
          entry.bind Entry.ended? = some ⟨t, .ask .get q, .value v⟩ ∧
          last.items = v :: after.items := by
  have hx := fits_of_reachable h
  have hnext := fits_of_reachable (h.step m hpeek)
  have huntouched : ∀ d ∈ Log.ended log, d.taken = [] := by
    intro d hd
    by_cases ht : d.taken = []
    · exact ht
    · exact still d hd (lone d hd ht)
  obtain ⟨hlast, hpeeks⟩ := (announced_of_peek hpeek hx seen).run hnext hr huntouched
  refine ⟨hpeeks, ?_⟩
  intro f q hf hq
  have hphase := hlast.fresh f q hf hq
  have hawake : f.phase ≠ .parked := by simp [hphase]
  obtain ⟨waiter, after, hturn⟩ := turn_possible (c := c) hf hawake
  exact ⟨hphase, ⟨waiter, after, hturn⟩, fun _ _ _ hs => hlast.get hf hq hs⟩

/-- A peek is woken by a put and wakes another, and puts come behind the value that it saw. -/
theorem peek_announces_get_past_puts :
    ∃ s next last : Monitor Nat, ∃ e log after taken, Reachable ⟨2, 1⟩ s ∧
      s.step ⟨2, 1⟩ (.turn 0 (some 2)) = some (next, some e) ∧
      next.run ⟨2, 1⟩ [.turn 2 none, .start 1 (.put 8), .turn 1 none, .start 2 (.put 9),
        .turn 2 none, .start 0 .peekNow, .turn 0 none, .start 0 .getNow] = some (last, log) ∧
      (Log.ended log).filterMap Ended.peeked? = [7, 7] ∧
      last.step ⟨2, 1⟩ (.turn 0 none) = some (after, taken) ∧
      taken.bind Entry.ended? = some ⟨0, .getNow, .value 7⟩ ∧ last.items = 7 :: after.items := by
  have h : Reachable ⟨2, 1⟩ (⟨[7], [some ⟨.peek, 0, .woken .signal⟩, none,
      some ⟨.peek, 0, .parked⟩], 0⟩ : Monitor Nat) :=
    @Reachable.run Nat _ _ _ [.start 0 .peek, .turn 0 none, .turn 0 none, .start 2 .peek,
      .turn 2 none, .turn 2 none, .start 1 (.put 7), .turn 1 (some 0)] _ (.idle 3 0) rfl
  have hget := (@peek_announces_get Nat ⟨2, 1⟩ _ _ _ (.turn 0 (some 2)) _ [.turn 2 none,
    .start 1 (.put 8), .turn 1 none, .start 2 (.put 9), .turn 2 none, .start 0 .peekNow,
    .turn 0 none, .start 0 .getNow] _ 0 .endless 7 h rfl rfl rfl (by decide) (by decide)).2
    ⟨.getNow, 0, .arriving⟩ .none rfl rfl
  exact ⟨_, _, _, _, _, _, _, h, rfl, rfl, rfl, rfl, hget.2.2 none _ _ rfl⟩

end Monitor

end BoundedBuffer.Queue
