import BoundedBuffer.Proofs.Queue.Turns
import BoundedBuffer.Queue.Body

namespace BoundedBuffer.Queue

open Time

variable {α β γ : Type} {c : Settings} {wish : Wish α} {patience : Patience} {deadline : Deadline}
  {start : Instant} {blocked : List α → Bool}

def Phase.pause (condition : Condition) (deadline : Deadline) : Phase → Pause
  | .snoozing more => .snooze more
  | .arriving | .parked | .woken _ => .sleep condition deadline.instant?

/-- The turn as a stretch of a call that sleeps on this condition, up to this deadline. -/
def Turn.stretch (condition : Condition) (deadline : Deadline) (t : Turn α) :
    Stretch α (Reply α) where
  items := t.items
  signals := t.signal.toList
  events := t.events
  ending :=
    match t.outcome with
    | .returns reply => .returns reply
    | .waits phase => .pauses (phase.pause condition deadline)

theorem Work.paused_course (w : Work α) (p : Pause) (rest : List (Stretch α β)) :
    (w.paused p).course rest = w.course (⟨w.items, w.signals, w.events, .pauses p⟩ :: rest) := by
  simp [Work.course, Work.paused, Stretch.ofPause]

theorem Work.resumed_course (w : Work α) (g : Glimpse α) (gs : List (Glimpse α))
    (rest : List (Stretch α β)) : (w.resumed g gs).course rest = w.course rest :=
  rfl

namespace Body

theorem after_items (k : List α → Body α β) (w : Work α) :
    (items >>= k).after w = (k w.items).after w :=
  rfl

theorem after_report (e : Event) (k : Unit → Body α β) (w : Work α) :
    (report e >>= k).after w = (k ()).after { w with events := w.events ++ [e] } :=
  rfl

theorem after_countWait (k : Unit → Body α β) (w : Work α) :
    (countWait >>= k).after w = (k ()).after { w with waits := w.waits + 1 } :=
  rfl

theorem after_expired (deadline : Deadline) (k : Bool → Body α β) (w : Work α) :
    (expired deadline >>= k).after w = (k (deadline.expired w.now)).after w :=
  rfl

theorem after_pause_nil {w : Work α} (h : w.ahead = []) (p : Pause) (k : Unit → Body α β) :
    (pause p >>= k).after w = some ((w.paused p).course []) := by
  obtain ⟨xs, now, signals, events, past, ahead, waits⟩ := w
  cases h
  rfl

theorem after_pause_cons {w : Work α} {g : Glimpse α} {gs : List (Glimpse α)} (h : w.ahead = g :: gs)
    (p : Pause) (k : Unit → Body α β) :
    (pause p >>= k).after w = (k ()).after ((w.paused p).resumed g gs) := by
  obtain ⟨xs, now, signals, events, past, ahead, waits⟩ := w
  cases h
  rfl

theorem after_pop_nil {w : Work α} (hw : w.items = []) (k : Option α → Body α β) :
    (pop >>= k).after w = (k none).after w := by
  obtain ⟨xs, now, signals, events, past, ahead, waits⟩ := w
  cases hw
  rfl

theorem after_peek (f : α → β) (w : Work α) :
    (f <$> peek c).after w = (f <$> loop (peekRound c w.items.isEmpty)).after w := by
  rw [peek, map_bind, after_items]

theorem after_loop (step : Body α (Option β)) (k : β → Body α γ) (w : Work α) :
    (loop step >>= k).after w = (loopWithin step (w.ahead.length + 2) >>= k).after w :=
  rfl

theorem loopWithin_succ (step : Body α (Option β)) (n : Nat) (k : β → Body α γ) :
    loopWithin step (n + 1) >>= k = step >>= fun o => o.elim (loopWithin step n >>= k) k := by
  rw [loopWithin, bind_assoc]
  congr
  funext o
  cases o with
  | none => rfl
  | some v => exact pure_bind v k

theorem after_snooze {w : Work α} {g : Glimpse α} {gs : List (Glimpse α)} (hw : w.ahead = g :: gs)
    (n : Nat) (k : Option Bool → Body α β) :
    (snooze deadline blocked (n + 1) >>= k).after w =
      let v := (w.paused (.snooze n)).resumed g gs
      if blocked g.items then
        if deadline.expired g.now then (k (some false)).after v
        else (snooze deadline blocked n >>= k).after v
      else (k (some true)).after v := by
  simp only [snooze, bind_assoc, after_pause_cons hw, after_items, Work.resumed]
  cases blocked g.items with
  | false => rfl
  | true =>
    simp only [Bool.not_true, Bool.false_eq_true, if_false, if_true, bind_assoc, after_expired]
    cases deadline.expired g.now <;> rfl

theorem after_sleep {w : Work α} {g : Glimpse α} {gs : List (Glimpse α)} (hw : w.ahead = g :: gs)
    (condition : Condition) (verb : Verb) (k : Option Bool → Body α β) :
    (sleep condition deadline verb blocked >>= k).after w =
      let v := (w.paused (.sleep condition deadline.instant?)).resumed g gs
      if blocked g.items then
        if deadline.expired g.now then
          (k (some false)).after { v with events := [.deadlinePassed verb g.items.length] }
        else (k none).after v
      else (k (some true)).after v := by
  simp only [sleep, bind_assoc, after_pause_cons hw, after_items, Work.resumed]
  cases blocked g.items with
  | false => rfl
  | true =>
    simp only [Bool.not_true, Bool.false_eq_true, if_false, if_true, bind_assoc, after_expired]
    cases deadline.expired g.now <;> rfl

end Body

/-- The turns of a call from a phase on, as the stretches of what it does. -/
def stretches (c : Settings) (start : Instant) (wish : Wish α) (patience : Patience) (p : Phase)
    (gs : List (Glimpse α)) : List (Stretch α (Reply α)) :=
  (Flight.turns c ⟨.ask wish patience, start, p⟩ gs).map
    (Turn.stretch wish.condition (patience.deadline start))

variable {p q : Phase} {g : Glimpse α} {gs : List (Glimpse α)}

theorem stretches_served (hq : p.roused g.cause = q) (hb : wish.blocked c g.items = false) :
    stretches c start wish patience p (g :: gs) =
      [(wish.finish (q != .arriving) true g.items).stretch wish.condition
        (patience.deadline start)] := by
  have hlook := q.look_ready c.rounds (patience.deadline start) g.now
  have hends : ∃ reply, (wish.finish (q != .arriving) true g.items).outcome = .returns reply := by
    cases wish with
    | put v => exact ⟨_, rfl⟩
    | get | peek =>
      obtain ⟨xs, now, cause⟩ := g
      cases xs with
      | nil => cases hb
      | cons v rest => exact ⟨_, rfl⟩
  obtain ⟨reply, hreply⟩ := hends
  simp [stretches, Flight.turns, hq, Flight.turn, Flight.askTurn, hb, hlook, hreply]

theorem stretches_late (hq : p.roused g.cause = q) (hb : wish.blocked c g.items = true)
    (hlook : q.look c.rounds (patience.deadline start) g.now true = .late) :
    stretches c start wish patience p (g :: gs) =
      [⟨g.items, [], q.events wish.verb g.items.length c.bound .late,
        .returns (.refused wish.refusal)⟩] := by
  have hpatience : patience ≠ .endless := by
    rintro rfl
    exact q.look_endless_ne_late _ _ _ _ hlook
  have hturn := (Flight.Acts.refused (f := ⟨.ask wish patience, start, q⟩) rfl hb hlook
    hpatience).eq_turn
  simp [stretches, Flight.turns, hq, ← hturn, Turn.stretch]

theorem stretches_waiting {r : Phase} (hq : p.roused g.cause = q)
    (hb : wish.blocked c g.items = true)
    (hlook : q.look c.rounds (patience.deadline start) g.now true = .waiting r) :
    stretches c start wish patience p (g :: gs) =
      ⟨g.items, [], q.events wish.verb g.items.length c.bound (.waiting r),
        .pauses (r.pause wish.condition (patience.deadline start))⟩ ::
        stretches c start wish patience r gs := by
  have hturn := (Flight.Acts.waits (f := ⟨.ask wish patience, start, q⟩) rfl hb hlook).eq_turn
  simp [stretches, Flight.turns, hq, ← hturn, Turn.stretch]

namespace Body

/-- What a call does once the wait tells it that it is ready, or late. -/
structure Concludes (c : Settings) (wish : Wish α) (deadline : Deadline) (waited : Bool)
    (k : Bool → Body α (Reply α)) : Prop where
  served : ∀ w : Work α, w.signals = [] → w.events = [] → wish.blocked c w.items = false →
    (k true).after w = some (w.course [(wish.finish waited true w.items).stretch wish.condition
      deadline])
  refused : ∀ w : Work α, w.signals = [] → wish.blocked c w.items = true →
    deadline.expired w.now = true →
    (k false).after w = some (w.course [⟨w.items, [], w.events, .returns (.refused wish.refusal)⟩])

/-- After a pause a call does as in its turn there, if it does so when it goes on waiting. -/
theorem resumed_stretches {k : Bool → Body α (Reply α)}
    (h : Concludes c wish (patience.deadline start) true k) {w : Work α} {p q next : Phase}
    (hq : p.roused g.cause = q) (hwaited : q ≠ .arriving)
    (hlook : q.look c.rounds (patience.deadline start) g.now true =
      if (patience.deadline start).expired g.now then .late else .waiting next)
    {goesOn : Option (Course α (Reply α))}
    (hgoesOn : goesOn = some (w.course (⟨g.items, [], q.events wish.verb g.items.length c.bound
      (.waiting next), .pauses (next.pause wish.condition (patience.deadline start))⟩ ::
        stretches c start wish patience next gs))) :
    (if wish.blocked c g.items then
      if (patience.deadline start).expired g.now then
        (k false).after { w.resumed g gs with
          events := q.events wish.verb g.items.length c.bound .late }
      else goesOn
    else (k true).after (w.resumed g gs)) =
      some (w.course (stretches c start wish patience p (g :: gs))) := by
  rw [← Work.resumed_course w g gs]
  cases hb : wish.blocked c g.items with
  | false =>
    rw [stretches_served hq hb, bne_iff_ne.mpr hwaited]
    exact h.served (w.resumed g gs) rfl rfl hb
  | true =>
    cases he : (patience.deadline start).expired g.now with
    | true =>
      rw [he] at hlook
      rw [stretches_late hq hb hlook]
      exact h.refused { w.resumed g gs with
        events := q.events wish.verb g.items.length c.bound .late } rfl hb he
    | false =>
      rw [he] at hlook
      rw [stretches_waiting hq hb hlook]
      exact hgoesOn

theorem sleep_stretches {k : Bool → Body α (Reply α)}
    (h : Concludes c wish (patience.deadline start) true k) {n : Nat} {w : Work α}
    (hn : w.ahead.length < n) :
    (loopWithin (sleep wish.condition (patience.deadline start) wish.verb (wish.blocked c ·)) n >>=
        k).after w =
      some ((w.paused (.sleep wish.condition (patience.deadline start).instant?)).course
        (stretches c start wish patience .parked w.ahead)) := by
  obtain ⟨n, rfl⟩ := Nat.exists_eq_succ_of_ne_zero (Nat.ne_zero_of_lt hn)
  generalize hgs : w.ahead = gs at hn ⊢
  induction gs generalizing n w with
  | nil =>
    rw [loopWithin_succ, sleep, bind_assoc, after_pause_nil hgs]
    rfl
  | cons g gs ih =>
    obtain ⟨n, rfl⟩ := Nat.exists_eq_succ_of_ne_zero (n := n) (by simp at hn; omega)
    have hrest := ih (w := (w.paused (.sleep wish.condition
      (patience.deadline start).instant?)).resumed g gs) (n := n) rfl (by simpa using hn)
    rw [Work.paused_course] at hrest
    rw [loopWithin_succ, after_sleep hgs]
    exact resumed_stretches h (p := .parked) (q := .woken g.cause) rfl (by simp) rfl hrest

/-- What a blocked call goes on to with so many snooze rounds before it. -/
def lull (c : Settings) (wish : Wish α) (deadline : Deadline) (n : Nat) : Body α Bool := do
  if let some ready ← snooze deadline (wish.blocked c ·) n then return ready
  report (.parking wish.verb (← items).length c.bound)
  loop (sleep wish.condition deadline wish.verb (wish.blocked c ·))

theorem after_lull {w : Work α} {g : Glimpse α} {gs : List (Glimpse α)} (hw : w.ahead = g :: gs)
    (n : Nat) (k : Bool → Body α β) :
    (lull c wish deadline (n + 1) >>= k).after w =
      let v := (w.paused (.snooze n)).resumed g gs
      if wish.blocked c g.items then
        if deadline.expired g.now then (k false).after v else (lull c wish deadline n >>= k).after v
      else (k true).after v := by
  rw [lull, bind_assoc, after_snooze hw, lull, bind_assoc]
  rfl

theorem lull_stretches {k : Bool → Body α (Reply α)}
    (h : Concludes c wish (patience.deadline start) true k) {n : Nat} {w : Work α}
    (hevents : w.events = []) :
    (lull c wish (patience.deadline start) n >>= k).after w =
      some (w.course (⟨w.items, w.signals, Phase.arriving.events wish.verb w.items.length c.bound
          (.waiting (.rest n)), .pauses (Phase.pause wish.condition (patience.deadline start)
            (.rest n))⟩ ::
        stretches c start wish patience (.rest n) w.ahead)) := by
  induction n generalizing w with
  | zero =>
    have hsleep := sleep_stretches h (n := w.ahead.length + 2)
      (w := { w with events := [.parking wish.verb w.items.length c.bound] }) (by simp)
    rw [Work.paused_course] at hsleep
    simp only [lull, snooze, pure_bind, bind_assoc, after_items, after_report, hevents,
      List.nil_append, after_loop]
    exact hsleep
  | succ n ih =>
    have hcourse := w.paused_course (β := Reply α) (.snooze n)
    rw [hevents] at hcourse
    cases hgs : w.ahead with
    | nil =>
      rw [lull, bind_assoc, snooze, bind_assoc, after_pause_nil hgs, hcourse]
      rfl
    | cons g gs =>
      have hrest := ih (w := (w.paused (.snooze n)).resumed g gs) rfl
      have hnext : Phase.arriving.events wish.verb g.items.length c.bound (.waiting (.rest n)) =
          (Phase.snoozing n).events wish.verb g.items.length c.bound (.waiting (.rest n)) := by
        cases n <;> rfl
      refine Eq.trans ?_ (congrArg some (hcourse _))
      rw [after_lull hgs]
      refine resumed_stretches h (p := .snoozing n) (q := .snoozing n) rfl (by simp) rfl ?_
      rw [← hnext]
      exact hrest

theorem after_wait (w : Work α) (k : Bool → Body α β) :
    (wait c wish.condition deadline wish.verb (wish.blocked c ·) >>= k).after w =
      let v := { w with waits := w.waits + 1 }
      if wish.blocked c w.items then
        if deadline = .poll then (k false).after v else (lull c wish deadline c.rounds >>= k).after v
      else (k true).after v := by
  simp only [wait, bind_assoc, after_countWait, after_items]
  by_cases hb : wish.blocked c w.items = true
  · by_cases hp : deadline = .poll
    · simp [hb, hp]
    · simp only [hb, hp, Bool.not_true, Bool.false_eq_true, if_false, if_true]
      rfl
  · simp [hb]

/-- A wait at the first look of a call, and what comes after it, do as the turns of the call. -/
theorem wait_stretches {k : Bool → Body α (Reply α)} {w : Work α}
    (h : Concludes c wish (patience.deadline start) (wish.blocked c w.items) k)
    (hsignals : w.signals = []) (hevents : w.events = []) (cause : Cause) :
    (wait c wish.condition (patience.deadline start) wish.verb (wish.blocked c ·) >>= k).after w =
      some ({ w with waits := w.waits + 1 }.course
        (stretches c start wish patience .arriving (⟨w.items, w.now, cause⟩ :: w.ahead))) := by
  rw [after_wait]
  obtain ⟨xs, now, signals, events, past, ahead, waits⟩ := w
  cases hsignals
  cases hevents
  dsimp only at h ⊢
  cases hb : wish.blocked c xs with
  | false =>
    rw [hb] at h
    rw [stretches_served (g := ⟨xs, now, cause⟩) (q := .arriving) rfl hb]
    exact h.served ⟨xs, now, [], [], past, ahead, waits + 1⟩ rfl rfl hb
  | true =>
    rw [hb] at h
    by_cases hp : patience.deadline start = .poll
    · rw [stretches_late (q := .arriving) rfl hb (by simp [Phase.look, hp])]
      have hlate := h.refused ⟨xs, now, [], [], past, ahead, waits + 1⟩ rfl hb (by rw [hp]; rfl)
      simp only [hp, if_true]
      exact hlate
    · rw [stretches_waiting (q := .arriving) (r := .rest c.rounds) rfl hb
        (by simp [Phase.look, hp])]
      simp only [hp, if_false, if_true]
      exact lull_stretches h (w := ⟨xs, now, [], [], past, ahead, waits + 1⟩) rfl

/-- A loop that waits while it is blocked takes the turns of a call that waits over and over, in one
wait. -/
theorem loop_stretches {round : Body α (Option β)} {told : β → Reply α} {w : Work α}
    (serves : ∀ (v : Work α) (again : Body α (Reply α)), v.signals = [] → v.events = [] →
      wish.blocked c v.items = false →
      (round >>= fun o => o.elim again fun b => pure (told b)).after v =
        some (v.course [(wish.finish (wish.blocked c w.items) true v.items).stretch wish.condition
          .never]))
    (waits : ∀ (v : Work α) (k : Option β → Body α (Reply α)), wish.blocked c v.items = true →
      (round >>= k).after v =
        (wait c wish.condition .never wish.verb (wish.blocked c ·) >>= fun _ => k none).after v)
    (hsignals : w.signals = []) (hevents : w.events = []) (start : Instant) (cause : Cause) :
    ∃ n ≤ 1, (told <$> loop round).after w =
      some ({ w with waits := w.waits + n }.course
        (stretches c start wish .endless .arriving (⟨w.items, w.now, cause⟩ :: w.ahead))) := by
  rw [map_eq_pure_bind, after_loop, loopWithin_succ]
  cases hb : wish.blocked c w.items with
  | false =>
    refine ⟨0, Nat.zero_le 1, ?_⟩
    rw [serves w _ hsignals hevents hb, hb,
      stretches_served (g := ⟨w.items, w.now, cause⟩) (q := .arriving) rfl hb]
    rfl
  | true =>
    refine ⟨1, Nat.le_refl 1, ?_⟩
    rw [waits w _ hb]
    change (wait c wish.condition (Patience.endless.deadline start) wish.verb (wish.blocked c ·) >>=
      _).after w = _
    refine wait_stretches ?_ hsignals hevents cause
    constructor
    · intro v hvs hve hvb
      rw [Option.elim_none, loopWithin_succ]
      exact serves v _ hvs hve hvb
    · intro v _ _ hexpired
      cases hexpired

end Body

/-- Whatever it meets, the form takes the turns of a call with this wish and patience, in one wait
at most. -/
structure Form.Takes (c : Settings) (start : Instant) (wish : Wish α) (patience : Patience)
    (f : Form α) : Prop where
  call : f.call = .ask wish patience
  course : ∀ gs, ∃ n ≤ 1, (f.body c start).course gs =
    some ⟨(Call.turns c start (.ask wish patience) gs).map
      (Turn.stretch wish.condition (patience.deadline start)), n⟩

namespace Form

open Body

theorem takes_of_wait {f : Form α} {k : Bool → Bool → Body α (Reply α)}
    (hcall : f.call = .ask wish patience)
    (hbody : ∀ w : Work α, (f.body c start).after w = (wait c wish.condition
      (patience.deadline start) wish.verb (wish.blocked c ·) >>= k (wish.blocked c w.items)).after w)
    (h : ∀ waited, Concludes c wish (patience.deadline start) waited (k waited)) :
    f.Takes c start wish patience := by
  refine ⟨hcall, ?_⟩
  intro gs
  cases gs with
  | nil => exact ⟨0, Nat.zero_le 1, rfl⟩
  | cons g gs =>
    exact ⟨1, Nat.le_refl 1, (hbody _).trans (wait_stretches (h _) rfl rfl g.cause)⟩

theorem takes_of_loop {f : Form α} (hcall : f.call = .ask wish .endless)
    (h : ∀ (w : Work α) (cause : Cause), w.signals = [] → w.events = [] →
      ∃ n ≤ 1, (f.body c start).after w = some ({ w with waits := w.waits + n }.course
        (stretches c start wish .endless .arriving (⟨w.items, w.now, cause⟩ :: w.ahead)))) :
    f.Takes c start wish .endless := by
  refine ⟨hcall, ?_⟩
  intro gs
  cases gs with
  | nil => exact ⟨0, Nat.zero_le 1, rfl⟩
  | cons g gs =>
    obtain ⟨n, hn, hcourse⟩ := h { items := g.items, now := g.now, ahead := gs } g.cause rfl rfl
    refine ⟨n, hn, hcourse.trans ?_⟩
    simp [Work.course, stretches, Call.turns]

theorem put_takes (c : Settings) (start : Instant) (v : α) :
    (put v).Takes c start (.put v) .endless := by
  refine takes_of_loop rfl ?_
  intro w cause hsignals hevents
  refine loop_stretches ?_ ?_ hsignals hevents start cause
  · rintro ⟨xs, now, signals, events, past, ahead, waits⟩ again rfl rfl hb
    have hroom : c.isFull xs.length = false := hb
    simp only [putRound, bind_assoc, after_items, hroom]
    rfl
  · intro u k hb
    have hfull : c.isFull u.items.length = true := hb
    simp only [putRound, bind_assoc, after_items, hfull, if_true, pure_bind]
    rfl

theorem get_takes (c : Settings) (start : Instant) :
    (get : Form α).Takes c start .get .endless := by
  refine takes_of_loop rfl ?_
  intro w cause hsignals hevents
  refine loop_stretches ?_ ?_ hsignals hevents start cause
  · rintro ⟨xs, now, signals, events, past, ahead, waits⟩ again rfl rfl hb
    cases xs with
    | nil => cases hb
    | cons v rest => rfl
  · intro u k hb
    simp only [getRound, bind_assoc, after_pop_nil (List.isEmpty_iff.mp hb), pure_bind]
    rfl

theorem peek_takes (c : Settings) (start : Instant) :
    (peek : Form α).Takes c start .peek .endless := by
  refine takes_of_loop rfl ?_
  intro w cause hsignals hevents
  simp only [peek, after_peek]
  refine loop_stretches ?_ ?_ hsignals hevents start cause
  · rintro ⟨xs, now, signals, events, past, ahead, waits⟩ again rfl rfl hb
    cases xs with
    | nil => cases hb
    | cons v rest =>
      simp only [Wish.blocked, peekRound, bind_assoc, after_items]
      cases w.items.isEmpty <;> rfl
  · intro u k hb
    simp only [peekRound, bind_assoc, after_items, List.isEmpty_iff.mp hb, List.head?_nil,
      pure_bind]
    rfl

theorem putUntil_takes {f : Form α} {v : α} (hcall : f.call = .ask (.put v) patience)
    (hbody : f.body c start = .ofPut <$> putUntil c v (patience.deadline start)) :
    f.Takes c start (.put v) patience := by
  refine takes_of_wait (k := fun _ ready => .ofPut <$>
    if !ready then pure (.error (.full v)) else push v >>= fun _ => pure (.ok ())) hcall ?_ ?_
  · intro w
    rw [hbody, map_eq_pure_bind, putUntil, bind_assoc]
    rfl
  · intro waited
    constructor
    · rintro ⟨xs, now, signals, events, past, ahead, waits⟩ rfl rfl hb
      rfl
    · rintro ⟨xs, now, signals, events, past, ahead, waits⟩ rfl hb hexpired
      rfl

theorem getUntil_takes {f : Form α} (hcall : f.call = .ask .get patience)
    (hbody : f.body c start = .ofTaken <$> getUntil c (patience.deadline start)) :
    f.Takes c start .get patience := by
  refine takes_of_wait (k := fun _ _ => .ofTaken <$> takeFront) hcall ?_ ?_
  · intro w
    rw [hbody, map_eq_pure_bind, getUntil, bind_assoc]
    rfl
  · intro waited
    constructor
    · rintro ⟨xs, now, signals, events, past, ahead, waits⟩ rfl rfl hb
      cases xs with
      | nil => cases hb
      | cons v rest => rfl
    · rintro ⟨xs, now, signals, events, past, ahead, waits⟩ rfl hb hexpired
      cases List.isEmpty_iff.mp hb
      rfl

theorem peekUntil_takes {f : Form α} (hcall : f.call = .ask .peek patience)
    (hbody : f.body c start = .ofTaken <$> peekUntil c (patience.deadline start)) :
    f.Takes c start .peek patience := by
  refine takes_of_wait (k := fun waited _ => .ofTaken <$> seeFront waited) hcall ?_ ?_
  · intro w
    rw [hbody, map_eq_pure_bind, peekUntil, bind_assoc, after_items, bind_assoc]
    rfl
  · intro waited
    constructor
    · rintro ⟨xs, now, signals, events, past, ahead, waits⟩ rfl rfl hb
      cases xs with
      | nil => cases hb
      | cons v rest => cases waited <;> rfl
    · rintro ⟨xs, now, signals, events, past, ahead, waits⟩ rfl hb hexpired
      cases List.isEmpty_iff.mp hb
      rfl

end Form

/-- The three calls that may wait, each in one of its forms. -/
structure Forms (α : Type) where
  put : Form α
  get : Form α
  peek : Form α

namespace Forms

def endless (v : α) : Forms α := ⟨.put v, .get, .peek⟩

def atOnce (v : α) : Forms α := ⟨.putNow v, .getNow, .peekNow⟩

def within (v : α) (d : Span) : Forms α := ⟨.putWithin v d, .getWithin d, .peekWithin d⟩

def under (v : α) (limit : Limit) : Forms α :=
  ⟨.putUnder v true limit, .getUnder limit, .peekUnder limit⟩

structure Take (c : Settings) (start : Instant) (v : α) (patience : Patience) (fs : Forms α) :
    Prop where
  put : fs.put.Takes c start (.put v) patience
  get : fs.get.Takes c start .get patience
  peek : fs.peek.Takes c start .peek patience

/-- Each form takes the turns of the call that it is a form of. -/
theorem take (c : Settings) (start : Instant) (v : α) :
    (endless v).Take c start v .endless ∧ (atOnce v).Take c start v .none ∧
      (∀ d, (within v d).Take c start v (.limited (.within d))) ∧
      (∀ limit, (under v limit).Take c start v (.limited limit)) ∧
      ∀ limit, (Form.putUnder v false limit).Takes c start (.put v) .none := by
  refine ⟨⟨Form.put_takes c start v, Form.get_takes c start, Form.peek_takes c start⟩, ?_, ?_, ?_,
    ?_⟩
  · exact ⟨Form.putUntil_takes rfl rfl, Form.getUntil_takes rfl rfl, Form.peekUntil_takes rfl rfl⟩
  · intro d
    exact ⟨Form.putUntil_takes rfl rfl, Form.getUntil_takes rfl rfl, Form.peekUntil_takes rfl rfl⟩
  · intro limit
    exact ⟨Form.putUntil_takes rfl rfl, Form.getUntil_takes rfl rfl, Form.peekUntil_takes rfl rfl⟩
  · intro limit
    exact Form.putUntil_takes rfl rfl

end Forms

end BoundedBuffer.Queue
