import BoundedBuffer.Queue.Turn

namespace BoundedBuffer.Queue

open Time

variable {α : Type u}

def Wish.refusal : Wish α → Refusal α
  | .put v => .full v
  | .get | .peek => .empty

namespace Flight

/-- All that a turn can be, with what decides it. -/
inductive Acts (c : Settings) (f : Flight α) (xs : List α) (now : Instant) : Turn α → Prop
  | waits {wish : Wish α} {patience : Patience} {phase : Phase}
      (call : f.call = .ask wish patience) (blocked : wish.blocked c xs = true)
      (look : f.phase.look c.rounds (patience.deadline f.start) now true = .waiting phase) :
      Acts c f xs now ⟨xs, .waits phase, none,
        f.phase.events wish.verb xs.length c.bound (.waiting phase)⟩
  | refused {wish : Wish α} {patience : Patience}
      (call : f.call = .ask wish patience) (blocked : wish.blocked c xs = true)
      (look : f.phase.look c.rounds (patience.deadline f.start) now true = .late)
      (limited : patience ≠ .endless) :
      Acts c f xs now ⟨xs, .returns (.refused wish.refusal), none,
        f.phase.events wish.verb xs.length c.bound .late⟩
  | put {v : α} {patience : Patience}
      (call : f.call = .ask (.put v) patience) (room : c.isFull xs.length = false) :
      Acts c f xs now ⟨xs ++ [v], .returns .accepted, some (.one .notEmpty), []⟩
  | get {v : α} {rest : List α} {patience : Patience}
      (call : f.call = .ask .get patience) (held : xs = v :: rest) :
      Acts c f xs now ⟨rest, .returns (.value v), some (.one .notFull), []⟩
  | peek {v : α} {rest : List α} {patience : Patience}
      (call : f.call = .ask .peek patience) (held : xs = v :: rest) :
      Acts c f xs now ⟨xs, .returns (.value v),
        if f.phase = .arriving then none else some (.one .notEmpty), []⟩
  | clear (call : f.call = .clear) :
      Acts c f xs now ⟨[], .returns (.cleared xs), some (.all .notFull), [.cleared xs.length]⟩
  | drain (call : f.call = .drain) :
      Acts c f xs now ⟨[], .returns (.drained xs), some (.all .notFull), []⟩
  | size (call : f.call = .size) :
      Acts c f xs now ⟨xs, .returns (.size xs.length), none, []⟩

end Flight

theorem Phase.look_late {p : Phase} {rounds : Nat} {deadline : Deadline} {now : Instant} {b : Bool}
    (h : p.look rounds deadline now b = .late) : deadline.expired now = true := by
  cases b with
  | false => cases h
  | true =>
    cases p with
    | arriving =>
      simp only [look, Bool.not_true, Bool.false_eq_true, if_false] at h
      split at h
      · rename_i hp
        rw [hp]
        rfl
      · cases h
    | _ =>
      simp only [look, Bool.not_true, Bool.false_eq_true, if_false] at h
      split at h
      · assumption
      · cases h

/-- A call that waits without end is never late, so its outer loop never comes round again. -/
theorem Phase.look_endless_ne_late (p : Phase) (rounds : Nat) (start now : Instant) (b : Bool) :
    p.look rounds (Patience.endless.deadline start) now b ≠ .late := by
  intro h
  cases Phase.look_late h

theorem Phase.look_ne_ready (p : Phase) (rounds : Nat) (deadline : Deadline) (now : Instant) :
    p.look rounds deadline now true ≠ .ready := by
  cases p <;> simp only [Phase.look, Bool.not_true, Bool.false_eq_true, if_false] <;>
    split <;> simp

theorem Phase.look_ready (p : Phase) (rounds : Nat) (deadline : Deadline) (now : Instant) :
    p.look rounds deadline now false = .ready := by
  cases p <;> rfl

/-- A call that goes on waiting has so many snooze rounds before it, or it is parked. -/
theorem Phase.look_waiting {p q : Phase} {rounds : Nat} {deadline : Deadline} {now : Instant}
    {b : Bool} (h : p.look rounds deadline now b = .waiting q) : ∃ n, q = rest n := by
  cases b with
  | false => rw [p.look_ready] at h; cases h
  | true =>
    cases p <;> simp only [look, Bool.not_true, Bool.false_eq_true, if_false] at h <;>
      split at h <;> cases h
    · exact ⟨rounds, rfl⟩
    · exact ⟨_, rfl⟩
    · exact ⟨0, rfl⟩
    · exact ⟨0, rfl⟩

theorem Phase.look_waiting_ne_woken {p q : Phase} {rounds : Nat} {deadline : Deadline}
    {now : Instant} {b : Bool} (h : p.look rounds deadline now b = .waiting q) (cause : Cause) :
    q ≠ .woken cause := by
  obtain ⟨n, rfl⟩ := look_waiting h
  cases n <;> simp [rest]

theorem Wish.finish_late {c : Settings} {xs : List α} (wish : Wish α) (waited : Bool)
    (hb : wish.blocked c xs = true) :
    wish.finish waited false xs = ⟨xs, .returns (.refused wish.refusal), none, []⟩ := by
  cases wish with
  | put v => rfl
  | get => rw [List.isEmpty_iff.mp hb]; rfl
  | peek => rw [List.isEmpty_iff.mp hb]; rfl

namespace Flight

theorem askTurn_acts {c : Settings} {f : Flight α} {wish : Wish α} {patience : Patience}
    (hc : f.call = .ask wish patience) (xs : List α) (now : Instant) :
    f.Acts c xs now (f.askTurn c wish patience xs now) := by
  cases hb : wish.blocked c xs with
  | true =>
    cases hl : f.phase.look c.rounds (patience.deadline f.start) now true with
    | ready => exact absurd hl (f.phase.look_ne_ready _ _ _)
    | waiting phase =>
      have hw := Acts.waits hc hb hl
      simpa [askTurn, hb, hl, Turn.wait, Turn.after] using hw
    | late =>
      have hp : patience ≠ .endless := by
        intro he
        rw [he] at hl
        exact f.phase.look_endless_ne_late _ _ _ _ hl
      have hr := Acts.refused hc hb hl hp
      have hf := wish.finish_late (f.phase != .arriving) hb
      cases patience with
      | endless => exact absurd rfl hp
      | none => simpa [askTurn, hb, hl, hf, Turn.after] using hr
      | limited limit => simpa [askTurn, hb, hl, hf, Turn.after] using hr
  | false =>
    have hl := f.phase.look_ready c.rounds (patience.deadline f.start) now
    cases wish with
    | put v => simpa [askTurn, hb, hl, Wish.finish] using Acts.put hc hb
    | get =>
      cases xs with
      | nil => simp [Wish.blocked] at hb
      | cons v rest => simpa [askTurn, hb, hl, Wish.finish] using Acts.get hc rfl
    | peek =>
      cases xs with
      | nil => simp [Wish.blocked] at hb
      | cons v rest =>
        have hk : f.Acts c (v :: rest) now _ := .peek hc rfl
        simp only [askTurn, hb, hl, Wish.finish]
        by_cases hp : f.phase = .arriving
        · simpa [hp] using hk
        · simpa [hp] using hk

theorem condition?_ask {f : Flight α} {wish : Wish α} {patience : Patience}
    (hc : f.call = .ask wish patience) : f.condition? = some wish.condition := by
  simp [condition?, hc]

theorem turn_acts (c : Settings) (f : Flight α) (xs : List α) (now : Instant) :
    f.Acts c xs now (f.turn c xs now) := by
  cases hc : f.call with
  | ask wish patience => simpa only [turn, hc] using askTurn_acts hc xs now
  | clear => simpa only [turn, hc] using Acts.clear hc
  | drain => simpa only [turn, hc] using Acts.drain hc
  | size => simpa only [turn, hc] using Acts.size hc

theorem Acts.eq_turn {c : Settings} {f : Flight α} {xs : List α} {now : Instant} {turn : Turn α}
    (h : f.Acts c xs now turn) : turn = f.turn c xs now := by
  have hready := f.phase.look_ready c.rounds
  cases h with
  | waits call blocked look =>
    simp [Flight.turn, call, askTurn, blocked, look, Turn.wait, Turn.after]
  | @refused wish patience call blocked look limited =>
    have hlate := wish.finish_late (f.phase != .arriving) blocked
    cases patience with
    | endless => exact absurd rfl limited
    | none | limited => simp [Flight.turn, call, askTurn, blocked, look, hlate, Turn.after]
  | put call room => simp [Flight.turn, call, askTurn, Wish.blocked, room, hready, Wish.finish]
  | get call held =>
    subst held
    simp [Flight.turn, call, askTurn, Wish.blocked, hready, Wish.finish]
  | peek call held =>
    subst held
    by_cases hp : f.phase = .arriving <;>
      simp [Flight.turn, call, askTurn, Wish.blocked, Phase.look_ready, Wish.finish, hp]
  | clear call => simp [Flight.turn, call]
  | drain call => simp [Flight.turn, call]
  | size call => simp [Flight.turn, call]

end Flight

end BoundedBuffer.Queue
