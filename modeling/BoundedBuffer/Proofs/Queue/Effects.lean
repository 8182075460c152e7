import BoundedBuffer.Proofs.Queue.Steps
import BoundedBuffer.Queue.Sequential

namespace BoundedBuffer.Queue

open Time

variable {α : Type u} {c : Settings} {s next : Monitor α} {m : Move α} {entry : Option (Entry α)}
  {threads threads' : List (Option (Flight α))} {signal : Option Signal}

/-- So many values may be in the queue. -/
def Settings.Fits (c : Settings) (xs : List α) : Prop :=
  c.bound = 0 ∨ xs.length ≤ c.bound

theorem Settings.isFull_iff {n : Nat} : c.isFull n = true ↔ 0 < c.bound ∧ c.bound ≤ n := by
  simp [isFull]

theorem Settings.room_iff {n : Nat} : c.isFull n = false ↔ c.bound = 0 ∨ n < c.bound := by
  rw [← Bool.not_eq_true, isFull_iff]
  omega

theorem Sequential.fits {xs ys : List α} {call : Call α} {reply : Reply α}
    (h : Sequential c xs call reply ys) (hx : c.Fits xs) : c.Fits ys := by
  cases h with
  | put room => unfold Settings.Fits; rw [List.length_append, List.length_singleton]; omega
  | get => exact hx.imp_right Nat.le_of_succ_le
  | clear => exact Or.inr (Nat.zero_le _)
  | drain => exact Or.inr (Nat.zero_le _)
  | _ => exact hx

namespace Call

def puts : Call α → Bool
  | .ask (.put _) _ => true
  | _ => false

def gets : Call α → Bool
  | .ask .get _ => true
  | _ => false

end Call

/-- Unless it is turned away, a put adds a value and a get takes one. -/
theorem Sequential.balance {xs ys : List α} {wish : Wish α} {patience : Patience} {reply : Reply α}
    (h : Sequential c xs (.ask wish patience) reply ys)
    (hr : ∀ refusal, reply ≠ .refused refusal) :
    ys.length + (if (Call.ask wish patience).gets then 1 else 0) =
      xs.length + (if (Call.ask wish patience).puts then 1 else 0) := by
  cases h with
  | put => simp [Call.gets, Call.puts]
  | get => simp [Call.gets, Call.puts]
  | peek => simp [Call.gets, Call.puts]
  | full => exact absurd rfl (hr _)
  | getEmpty => exact absurd rfl (hr _)
  | peekEmpty => exact absurd rfl (hr _)

theorem Sequential.endless_unrefused {xs ys : List α} {wish : Wish α} {reply : Reply α}
    (h : Sequential c xs (.ask wish .endless) reply ys) (refusal : Refusal α) :
    reply ≠ .refused refusal := by
  rintro rfl
  cases h with
  | full patience => exact patience rfl
  | getEmpty patience => exact patience rfl
  | peekEmpty patience => exact patience rfl

namespace Flight

theorem lawful_refusal {xs : List α} {wish : Wish α} {patience : Patience}
    (hb : wish.blocked c xs = true) (hp : patience ≠ .endless) (hx : c.Fits xs) :
    Sequential c xs (.ask wish patience) (.refused wish.refusal) xs := by
  cases wish with
  | put v =>
    obtain ⟨hpos, hfull⟩ := Settings.isFull_iff.mp hb
    have hlen : xs.length = c.bound := by
      unfold Settings.Fits at hx
      omega
    exact .full hp hpos hlen
  | get => rw [List.isEmpty_iff.mp hb]; exact .getEmpty hp
  | peek => rw [List.isEmpty_iff.mp hb]; exact .peekEmpty hp

/-- In the turn in which it ends, a call does to the values what it would do alone. -/
theorem Acts.lawful {f : Flight α} {xs : List α} {now : Instant} {turn : Turn α} {reply : Reply α}
    (h : f.Acts c xs now turn) (hr : turn.outcome.reply? = some reply) (hx : c.Fits xs) :
    Sequential c xs f.call reply turn.items := by
  cases h with
  | waits => cases hr
  | refused hc hb _ hp => cases hr; rw [hc]; exact lawful_refusal hb hp hx
  | put hc room => cases hr; rw [hc]; exact .put (Settings.room_iff.mp room)
  | get hc held => cases hr; rw [hc, held]; exact .get
  | peek hc held => cases hr; rw [hc, held]; exact .peek
  | clear hc => cases hr; rw [hc]; exact .clear
  | drain hc => cases hr; rw [hc]; exact .drain
  | size hc => cases hr; rw [hc]; exact .size

theorem Acts.idles {f : Flight α} {xs : List α} {now : Instant} {turn : Turn α}
    (h : f.Acts c xs now turn) (hr : turn.outcome.reply? = none) :
    turn.items = xs ∧ ∃ phase, turn.outcome = .waits phase := by
  cases h with
  | waits => exact ⟨rfl, _, rfl⟩
  | _ => cases hr

end Flight

namespace Monitor

def calls (s : Monitor α) : List (Option (Call α)) :=
  s.threads.map (Option.map Flight.call)

theorem calls_setFlight (s : Monitor α) (t : Nat) (f : Flight α) :
    (s.setFlight t f).calls = s.calls.set t (some f.call) := by
  simp [calls, setFlight, List.map_set]

theorem calls_found {t : Nat} {f : Flight α} (h : s.threads[t]? = some (some f)) :
    s.calls[t]? = some (some f.call) := by
  simp [calls, h]

theorem calls_same {t : Nat} {f g : Flight α} (h : s.threads[t]? = some (some f))
    (hc : g.call = f.call) : (s.setFlight t g).calls = s.calls := by
  obtain ⟨ht, he⟩ := List.getElem?_eq_some_iff.mp (calls_found h)
  rw [calls_setFlight, hc, ← he, List.set_getElem_self]

theorem Delivered.calls (h : Delivered threads signal threads') :
    threads'.map (Option.map Flight.call) = threads.map (Option.map Flight.call) := by
  cases h with
  | silent => rfl
  | all condition =>
    simp only [wakeAll, List.map_map]
    apply List.map_congr_left
    intro t _
    cases t with
    | none => simp [parkedOn]
    | some f => simp only [Function.comp_apply]; split <;> rfl
  | lost => rfl
  | one found parked => exact calls_same (s := ⟨[], threads, 0⟩) found rfl

/-- What a move does to the values and the calls under way, phases left out. -/
inductive Effect (c : Settings) (s : Monitor α) (m : Move α) (next : Monitor α)
    (entry : Option (Entry α)) : Prop
  | begun {t : Nat} {call : Call α} (move : m = .start t call) (quiet : entry = none)
      (items : next.items = s.items) (idle : s.calls[t]? = some none)
      (calls : next.calls = s.calls.set t (some call))
  | quiet (move : ∀ t call, m ≠ .start t call) (quiet : entry.bind Entry.ended? = none)
      (items : next.items = s.items) (calls : next.calls = s.calls)
  | ended {d : Ended α} {waiter : Option Nat} (move : m = .turn d.thread waiter)
      (ended : entry.bind Entry.ended? = some d)
      (lawful : Sequential c s.items d.call d.reply next.items)
      (flying : s.calls[d.thread]? = some (some d.call))
      (calls : next.calls = s.calls.set d.thread none)

theorem effect_of_steps (h : Steps c s m next entry) (hx : c.Fits s.items) :
    Effect c s m next entry := by
  cases h with
  | start idle => exact .begun rfl rfl rfl (by simp [calls, idle]) (calls_setFlight ..)
  | expire found => exact .quiet (by simp) rfl rfl (calls_same found rfl)
  | stray found => exact .quiet (by simp) rfl rfl (calls_same found rfl)
  | pass => exact .quiet (by simp) rfl rfl rfl
  | @turn t waiter f turn threads found awake acts delivered =>
    have hcalls := delivered.calls
    rw [List.map_set] at hcalls
    cases hr : turn.outcome.reply? with
    | none =>
      obtain ⟨hitems, phase, hphase⟩ := acts.idles hr
      refine .quiet (by simp) (by simp [Entry.ended?, hr]) hitems (hcalls.trans ?_)
      rw [hphase]
      exact (calls_setFlight s t { f with phase }).symm.trans (calls_same found rfl)
    | some reply =>
      have hnone : turn.outcome.flight? f = none := by
        cases ho : turn.outcome with
        | returns r => rfl
        | waits phase => rw [ho] at hr; cases hr
      rw [hnone] at hcalls
      exact .ended (d := ⟨t, f.call, reply⟩) rfl (by simp [Entry.ended?, hr])
        (acts.lawful hr hx) (calls_found found) hcalls

theorem Effect.fits (h : Effect c s m next entry) (hx : c.Fits s.items) : c.Fits next.items := by
  cases h with
  | begun _ _ items => rwa [items]
  | quiet _ _ items => rwa [items]
  | ended _ _ lawful => exact lawful.fits hx

theorem effect_of_step (h : s.step c m = some (next, entry)) (hx : c.Fits s.items) :
    Effect c s m next entry :=
  effect_of_steps (steps_of_step h) hx

theorem fits_of_reachable (h : Reachable c s) : c.Fits s.items := by
  induction h with
  | idle n clock => exact Or.inr (Nat.zero_le _)
  | step m _ hs ih => exact (effect_of_step hs ih).fits ih

theorem fits_idle (c : Settings) (n : Nat) (clock : Instant) :
    c.Fits (idle n clock : Monitor α).items :=
  Or.inr (Nat.zero_le _)

end Monitor

theorem filterMap_toList {β : Type v} {γ : Type w} (f : β → Option γ) (o : Option β) :
    o.toList.filterMap f = (o.bind f).toList := by
  cases o with
  | none => rfl
  | some x => cases h : f x <;> simp [h]

theorem Log.ended_append (entry : Option (Entry α)) (rest : List (Entry α)) :
    Log.ended (entry.toList ++ rest) = (entry.bind Entry.ended?).toList ++ Log.ended rest := by
  rw [Log.ended, List.filterMap_append, filterMap_toList]
  rfl

end BoundedBuffer.Queue
