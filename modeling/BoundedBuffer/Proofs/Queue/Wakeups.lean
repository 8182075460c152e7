import BoundedBuffer.Proofs.Queue.Steps

namespace BoundedBuffer.Queue

open Time

variable {α : Type u} {c : Settings} {s next : Monitor α} {m : Move α} {entry : Option (Entry α)}
  {threads threads' : List (Option (Flight α))} {signal : Option Signal}

/-- The condition for which the call was signalled, if it has not looked since. -/
def Flight.signalledOn? (f : Flight α) : Option Condition :=
  if f.phase = .woken .signal then f.condition? else none

@[simp] theorem Flight.wake_phase (f : Flight α) (cause : Cause) :
    (f.wake cause).phase = .woken cause := rfl

/-- How many of the calls that wait for a condition could be served. -/
def Settings.openings (c : Settings) (xs : List α) : Condition → Nat
  | .notEmpty => xs.length
  | .notFull => c.bound - xs.length

theorem Wish.blocked_openings {xs : List α} {wish : Wish α} (h : wish.blocked c xs = true) :
    c.openings xs wish.condition = 0 := by
  cases wish with
  | put v =>
    simp only [blocked, Settings.isFull, Bool.and_eq_true, decide_eq_true_eq] at h
    exact Nat.sub_eq_zero_of_le h.2
  | get => simpa [blocked, condition, Settings.openings] using h
  | peek => simpa [blocked, condition, Settings.openings] using h

theorem countP_set_add {β : Type v} {p : β → Bool} {l : List β} {i : Nat} {x : β} (y : β)
    (h : l[i]? = some x) :
    (l.set i y).countP p + (if p x then 1 else 0) = l.countP p + (if p y then 1 else 0) := by
  obtain ⟨hi, rfl⟩ := List.getElem?_eq_some_iff.mp h
  have hle := List.boole_getElem_le_countP (p := p) hi
  rw [List.countP_set hi]
  omega

namespace Monitor

def signalledOn (condition : Condition) (thread : Option (Flight α)) : Bool :=
  thread.bind Flight.signalledOn? == some condition

/-- The number of calls parked on a condition that no signal has reached. -/
def parked (condition : Condition) (s : Monitor α) : Nat :=
  s.threads.countP (parkedOn condition)

/-- The number of calls that were signalled for a condition and have not looked since. -/
def signalled (condition : Condition) (s : Monitor α) : Nat :=
  s.threads.countP (signalledOn condition)

@[simp] theorem parkedOn_none (q : Condition) : parkedOn q (none : Option (Flight α)) = false := rfl

@[simp] theorem signalledOn_none (q : Condition) :
    signalledOn q (none : Option (Flight α)) = false := rfl

theorem signalledOn_some_iff {q : Condition} {f : Flight α} :
    signalledOn q (some f) = true ↔ f.phase = .woken .signal ∧ f.condition? = some q := by
  simp only [signalledOn, Option.bind_some, Flight.signalledOn?]
  split <;> simp_all

theorem parkedOn_awake {q : Condition} {f : Flight α} (h : f.phase ≠ .parked) :
    parkedOn q (some f) = false := by
  rw [← Bool.not_eq_true, parkedOn_some_iff]
  exact fun hp => h hp.1

theorem signalledOn_unsignalled {q : Condition} {f : Flight α} (h : f.phase ≠ .woken .signal) :
    signalledOn q (some f) = false := by
  rw [← Bool.not_eq_true, signalledOn_some_iff]
  exact fun hs => h hs.1

theorem uncounted {q : Condition} {f : Flight α} (h : f.condition? ≠ some q) :
    parkedOn q (some f) = false ∧ signalledOn q (some f) = false := by
  rw [← Bool.not_eq_true, ← Bool.not_eq_true, parkedOn_some_iff, signalledOn_some_iff]
  exact ⟨fun hp => h hp.2, fun hs => h hs.2⟩

theorem Delivered.one_counts {q : Condition} (h : Delivered threads (some (.one q)) threads') :
    threads'.countP (parkedOn q) ≤ threads.countP (parkedOn q) ∧
      (threads'.countP (parkedOn q) = 0 ∨
        threads'.countP (signalledOn q) = threads.countP (signalledOn q) + 1) := by
  cases h with
  | lost nobody => exact ⟨Nat.le_refl _, Or.inl nobody⟩
  | @one _ w f found parked =>
    obtain ⟨hp, hc⟩ := parkedOn_some_iff.mp parked
    have hparked := countP_set_add (p := parkedOn q) (some (f.wake .signal)) found
    have hsignal := countP_set_add (p := signalledOn q) (some (f.wake .signal)) found
    have hnot : signalledOn q (some f) = false := signalledOn_unsignalled (by simp [hp])
    have hnow : signalledOn q (some (f.wake .signal)) = true := signalledOn_some_iff.mpr ⟨rfl, hc⟩
    have hawake : parkedOn q (some (f.wake .signal)) = false := parkedOn_awake (by simp)
    rw [hnot, hnow] at hsignal
    rw [hawake] at hparked
    simp only [Bool.false_eq_true, if_false, if_true] at hsignal hparked
    exact ⟨by omega, Or.inr hsignal⟩

theorem Delivered.all_counts {q : Condition} (h : Delivered threads (some (.all q)) threads') :
    threads'.countP (parkedOn q) = 0 := by
  cases h
  apply List.countP_eq_zero.mpr
  intro t ht
  obtain ⟨u, _, rfl⟩ := List.mem_map.mp ht
  split
  · cases u <;> simp [parkedOn, Flight.parkedOn?, Flight.wake]
  · assumption

theorem Delivered.other_counts {q q' : Condition} (h : Delivered threads signal threads')
    (hs : signal = none ∨ signal = some (.one q') ∨ signal = some (.all q')) (hq : q' ≠ q) :
    threads'.countP (parkedOn q) = threads.countP (parkedOn q) ∧
      threads'.countP (signalledOn q) = threads.countP (signalledOn q) := by
  have hwake : ∀ f : Flight α, parkedOn q' (some f) = true →
      (parkedOn q (some f) = false ∧ signalledOn q (some f) = false) ∧
      parkedOn q (some (f.wake .signal)) = false ∧
        signalledOn q (some (f.wake .signal)) = false := by
    intro f hf
    have hc : f.condition? ≠ some q := by
      rw [(parkedOn_some_iff.mp hf).2]
      simpa using hq
    exact ⟨uncounted hc, uncounted (f := f.wake .signal) hc⟩
  cases h with
  | silent => exact ⟨rfl, rfl⟩
  | lost => exact ⟨rfl, rfl⟩
  | all condition =>
    have he : condition = q' := by simpa using hs
    subst he
    simp only [wakeAll, List.countP_map]
    constructor <;>
    · apply List.countP_congr
      intro t _
      cases t with
      | none => rfl
      | some f =>
        simp only [Function.comp_apply]
        split
        · rename_i hp
          simp [hwake f hp]
        · rfl
  | @one condition w f found parked =>
    have he : condition = q' := by simpa using hs
    subst he
    obtain ⟨⟨h1, h2⟩, h3, h4⟩ := hwake f parked
    have hparked := countP_set_add (p := parkedOn q) (some (f.wake .signal)) found
    have hsignal := countP_set_add (p := signalledOn q) (some (f.wake .signal)) found
    rw [h1, h3] at hparked
    rw [h2, h4] at hsignal
    exact ⟨hparked, hsignal⟩

/-- The signals for a condition that the call uses up when it takes its turn: one or none. -/
def claim (q : Condition) (f : Flight α) : Nat :=
  if signalledOn q (some f) then 1 else 0

theorem claim_le (q : Condition) (f : Flight α) : claim q f ≤ 1 := by
  unfold claim
  split <;> omega

theorem claim_other {q : Condition} {f : Flight α} (h : f.condition? ≠ some q) :
    claim q f = 0 := by
  simp [claim, (uncounted h).2]

theorem claim_unsignalled {q : Condition} {f : Flight α} (h : f.phase ≠ .woken .signal) :
    claim q f = 0 := by
  simp [claim, signalledOn_unsignalled h]

theorem set_counts {t : Nat} {f : Flight α} (q : Condition) (new : Option (Flight α))
    (found : threads[t]? = some (some f)) (awake : f.phase ≠ .parked)
    (unsignalled : signalledOn q new = false) :
    (threads.set t new).countP (parkedOn q) =
        threads.countP (parkedOn q) + (if parkedOn q new then 1 else 0) ∧
      (threads.set t new).countP (signalledOn q) + claim q f =
        threads.countP (signalledOn q) := by
  have hp := countP_set_add (p := parkedOn q) new found
  have hs := countP_set_add (p := signalledOn q) new found
  rw [parkedOn_awake awake] at hp
  rw [unsignalled] at hs
  exact ⟨hp, hs⟩

/-- A turn's signal makes up, for those who wait for a condition, for the values that it takes and
the signal that it uses up. -/
inductive Covered (c : Settings) (f : Flight α) (xs ys : List α) (signal : Option Signal)
    (q : Condition) : Prop
  | shut (closed : c.openings ys q = 0)
  | silent (signal : signal = none) (kept : c.openings ys q ≤ c.openings xs q - claim q f)
  | other {q' : Condition} (signal : signal = some (.one q')) (ne : q' ≠ q)
      (kept : c.openings ys q ≤ c.openings xs q - claim q f)
  | one (signal : signal = some (.one q))
      (kept : c.openings ys q + claim q f ≤ c.openings xs q + 1)
  | all (signal : signal = some (.all q))

theorem Covered.of_blocked {f : Flight α} {xs : List α} {wish : Wish α} {patience : Patience}
    (call : f.call = .ask wish patience) (hb : wish.blocked c xs = true) (q : Condition) :
    Covered c f xs xs none q := by
  by_cases hq : wish.condition = q
  · exact .shut (hq ▸ Wish.blocked_openings hb)
  · have hc := claim_other (q := q) (f := f) (by simpa [Flight.condition?_ask call] using hq)
    exact .silent rfl (by rw [hc]; exact Nat.le_refl _)

/-- Every turn covers both conditions. A peek that was woken hands its signal on, for a get may
still be parked. -/
theorem covered_of_acts {f : Flight α} {xs : List α} {now : Instant} {turn : Turn α}
    (acts : f.Acts c xs now turn) (q : Condition) : Covered c f xs turn.items turn.signal q := by
  have hle := claim_le q f
  cases acts with
  | waits call hb => exact .of_blocked call hb q
  | refused call hb => exact .of_blocked call hb q
  | put call =>
    have hf := Flight.condition?_ask call
    cases q with
    | notEmpty => exact .one rfl (by simp [claim_other, hf, Wish.condition, Settings.openings])
    | notFull =>
      refine .other rfl (by simp) ?_
      simp only [Settings.openings, List.length_append, List.length_singleton]
      omega
  | get call held =>
    subst held
    have hf := Flight.condition?_ask call
    cases q with
    | notEmpty =>
      refine .other rfl (by simp) ?_
      simp only [Settings.openings, List.length_cons]
      omega
    | notFull =>
      refine .one rfl ?_
      rw [claim_other (by simp [hf, Wish.condition])]
      simp only [Settings.openings, List.length_cons]
      omega
  | peek call =>
    have hf := Flight.condition?_ask call
    by_cases hp : f.phase = .arriving
    · exact .silent (by simp [hp]) (by simp [claim_unsignalled, hp])
    · cases q with
      | notEmpty => exact .one (by simp [hp]) (Nat.add_le_add_left hle _)
      | notFull =>
        have hone : (if f.phase = .arriving then none else some (.one .notEmpty)) =
            some (Signal.one .notEmpty) := if_neg hp
        exact .other hone (by simp) (by simp [claim_other, hf, Wish.condition])
  | clear =>
    cases q with
    | notEmpty => exact .shut rfl
    | notFull => exact .all rfl
  | drain =>
    cases q with
    | notEmpty => exact .shut rfl
    | notFull => exact .all rfl
  | size call => exact .silent rfl (by simp [claim_other, Flight.condition?, call])

/-- While a call is parked unsignalled, as many others are signalled as could be served. -/
def Attended (c : Settings) (xs : List α) (threads : List (Option (Flight α))) : Prop :=
  ∀ q, 0 < threads.countP (parkedOn q) → c.openings xs q ≤ threads.countP (signalledOn q)

theorem Attended.replace {xs ys : List α} {t : Nat} {f : Flight α} {new : Option (Flight α)}
    (h : Attended c xs threads) (found : threads[t]? = some (some f)) (awake : f.phase ≠ .parked)
    (unsignalled : ∀ q, signalledOn q new = false)
    (closed : ∀ q, parkedOn q new = true → c.openings ys q = 0)
    (covered : ∀ q, Covered c f xs ys signal q)
    (delivered : Delivered (threads.set t new) signal threads') : Attended c ys threads' := by
  intro q hq
  cases hn : parkedOn q new with
  | true => rw [closed q hn]; exact Nat.zero_le _
  | false =>
    have hold := h q
    obtain ⟨hp, hs⟩ := set_counts q new found awake (unsignalled q)
    simp only [hn, Bool.false_eq_true, if_false, Nat.add_zero] at hp
    cases covered q with
    | shut closed => omega
    | silent signal kept =>
      subst signal
      cases delivered
      omega
    | other signal ne kept =>
      obtain ⟨hp', hs'⟩ := delivered.other_counts (Or.inr (Or.inl signal)) ne
      omega
    | one signal kept =>
      subst signal
      obtain ⟨hle, hz | hone⟩ := delivered.one_counts <;> omega
    | all signal =>
      subst signal
      have hz := delivered.all_counts
      omega

theorem Attended.turn {xs : List α} {t : Nat} {f : Flight α} {now : Instant} {turn : Turn α}
    (h : Attended c xs threads) (found : threads[t]? = some (some f)) (awake : f.phase ≠ .parked)
    (acts : f.Acts c xs now turn)
    (delivered : Delivered (threads.set t (turn.outcome.flight? f)) turn.signal threads') :
    Attended c turn.items threads' := by
  apply h.replace found awake ?_ ?_ (covered_of_acts acts) delivered
  · intro q
    cases acts with
    | waits _ _ look => exact signalledOn_unsignalled (Phase.look_waiting_ne_woken look .signal)
    | _ => rfl
  · intro q hq
    cases acts with
    | @waits _ _ phase call hb look =>
      have hc : Flight.condition? { f with phase } = _ := Flight.condition?_ask call
      have hw := hc.symm.trans (parkedOn_some_iff.mp hq).2
      cases hw
      exact Wish.blocked_openings hb
    | _ => cases hq

theorem Attended.stir {xs : List α} {t : Nat} {old : Option (Flight α)} {f : Flight α}
    (h : Attended c xs threads) (found : threads[t]? = some old)
    (unsignalled : ∀ q, signalledOn q old = false) (awake : f.phase ≠ .parked) :
    Attended c xs (threads.set t (some f)) := by
  intro q hq
  have hp := countP_set_add (p := parkedOn q) (some f) found
  have hs := countP_set_add (p := signalledOn q) (some f) found
  rw [parkedOn_awake awake] at hp
  rw [unsignalled] at hs
  simp only [Bool.false_eq_true, if_false, Nat.add_zero] at hp hs
  have hold := h q (by omega)
  omega

theorem Attended.step (h : Attended c s.items s.threads) (hs : Steps c s m next entry) :
    Attended c next.items next.threads := by
  cases hs with
  | start idle => exact h.stir idle (fun _ => rfl) (by simp)
  | turn found awake acts delivered => exact h.turn found awake acts delivered
  | expire found parked =>
    exact h.stir found (fun _ => signalledOn_unsignalled (by simp [parked])) (by simp)
  | stray found parked =>
    exact h.stir found (fun _ => signalledOn_unsignalled (by simp [parked])) (by simp)
  | pass => exact h

theorem attended_of_reachable (h : Reachable c s) : Attended c s.items s.threads := by
  induction h with
  | idle n clock =>
    intro q hq
    simp [idle, List.countP_replicate] at hq
  | step m _ hs ih => exact ih.step (steps_of_step hs)

/-- Nobody waits for room in a queue without a bound. -/
theorem bounded_of_waiting (h : Reachable c s) {f : Flight α} (hf : some f ∈ s.threads)
    (hp : f.phase ≠ .arriving) (hc : f.condition? = some .notFull) : 0 < c.bound := by
  refine Reachable.flights (p := fun f => f.phase ≠ .arriving → f.condition? = some .notFull →
    0 < c.bound) ?_ ?_ ?_ h f hf hp hc
  · intro call clock hn
    exact absurd rfl hn
  · intro f xs now turn phase _ acts ho _ hq
    cases acts with
    | @waits wish patience _ call hb =>
      have hw : wish.condition = .notFull :=
        Option.some.inj ((Flight.condition?_ask call).symm.trans hq)
      cases wish with
      | put v => simp_all [Wish.blocked, Settings.isFull]
      | get => cases hw
      | peek => cases hw
    | _ => cases ho
  · intro f cause hb hphase _ hq
    exact hb (by simp [hphase]) hq

theorem unserved_of_unsignalled (h : Reachable c s)
    (hall : ∀ f, some f ∈ s.threads → f.phase ≠ .woken .signal) {f : Flight α} {q : Condition}
    (hf : some f ∈ s.threads) (hp : f.phase = .parked) (hq : f.condition? = some q) :
    c.openings s.items q = 0 := by
  have hparked : 0 < s.threads.countP (parkedOn q) :=
    List.countP_pos_iff.mpr ⟨some f, hf, parkedOn_some_iff.mpr ⟨hp, hq⟩⟩
  have hsignalled : s.threads.countP (signalledOn q) = 0 := by
    apply List.countP_eq_zero.mpr
    intro t ht
    cases t with
    | none => simp
    | some g => simp [signalledOn_unsignalled (hall g ht)]
  have ha := attended_of_reachable h q hparked
  omega

/-- While a get or a peek is parked unsignalled, no fewer are signalled than there are values. So
none is left beside a value. -/
theorem readers_attended {c : Settings} {s : Monitor α} (h : Reachable c s) :
    (0 < s.parked .notEmpty → s.size ≤ s.signalled .notEmpty) ∧
      (s.signalled .notEmpty = 0 → s.items ≠ [] → s.parked .notEmpty = 0) := by
  have ha : 0 < s.parked .notEmpty → s.size ≤ s.signalled .notEmpty :=
    attended_of_reachable h .notEmpty
  refine ⟨ha, ?_⟩
  intro hs hi
  have hlen : 0 < s.size := List.length_pos_iff.mpr hi
  omega

/-- A peek and a get are on their way to two values when a third call takes one of them. -/
theorem readers_attended_after_barging :
    ∃ s : Monitor Nat, Reachable ⟨0, 0⟩ s ∧ s.parked .notEmpty = 1 ∧ s.items = [2] ∧
      s.size ≤ s.signalled .notEmpty :=
  have h := @Reachable.run Nat ⟨0, 0⟩ _ _ [.start 0 .peek, .turn 0 none, .start 1 .get,
    .turn 1 none, .start 2 .get, .turn 2 none, .start 3 (.put 1), .turn 3 (some 0),
    .start 3 (.put 2), .turn 3 (some 1), .start 4 .getNow, .turn 4 none] _ (.idle 5 0) rfl
  ⟨_, h, rfl, rfl, (readers_attended h).1 (by decide)⟩

/-- While a put is parked unsignalled, no fewer are signalled than there are places. So none is left
beside a free place. -/
theorem writers_attended {c : Settings} {s : Monitor α} (h : Reachable c s) :
    (0 < s.parked .notFull → c.bound - s.size ≤ s.signalled .notFull) ∧
      (s.signalled .notFull = 0 → s.isFull c = false → s.parked .notFull = 0) := by
  have ha : 0 < s.parked .notFull → c.bound - s.size ≤ s.signalled .notFull :=
    attended_of_reachable h .notFull
  refine ⟨ha, ?_⟩
  intro hs hroom
  rcases Nat.eq_zero_or_pos (s.parked .notFull) with hz | hp
  · exact hz
  · obtain ⟨t, ht, hq⟩ := List.countP_pos_iff.mp hp
    cases t with
    | none => cases hq
    | some f =>
      obtain ⟨hphase, hcond⟩ := parkedOn_some_iff.mp hq
      have hb := bounded_of_waiting h ht (by simp [hphase]) hcond
      simp [isFull, Settings.isFull] at hroom
      omega

/-- Of two puts that a drain woke one has yet to look, and two more have parked, when a get makes
room. -/
theorem writers_attended_after_drain :
    ∃ s : Monitor Nat, Reachable ⟨1, 0⟩ s ∧ s.parked .notFull = 1 ∧ s.items = [] ∧
      1 - s.size ≤ s.signalled .notFull :=
  have h : Reachable ⟨1, 0⟩ ⟨[], [some ⟨.put 4, 0, .woken .signal⟩,
      some ⟨.put 3, 0, .woken .signal⟩, some ⟨.put 5, 0, .parked⟩, none], 0⟩ :=
    @Reachable.run Nat _ _ _ [.start 3 (.put 1), .turn 3 none, .start 0 (.put 2), .turn 0 none,
      .start 1 (.put 3), .turn 1 none, .start 3 .drain, .turn 3 none, .turn 0 none,
      .start 0 (.put 4), .turn 0 none, .start 2 (.put 5), .turn 2 none, .start 3 .get,
      .turn 3 (some 0)] _ (.idle 4 0) rfl
  ⟨_, h, rfl, rfl, (writers_attended h).1 (by decide)⟩

end Monitor

end BoundedBuffer.Queue
