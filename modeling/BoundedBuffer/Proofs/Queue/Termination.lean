import Mathlib.Algebra.GroupWithZero.Nat
import BoundedBuffer.Proofs.Queue.Steps

namespace BoundedBuffer.Queue

open Time

variable {α : Type u} {c : Settings} {s next : Monitor α} {entry : Option (Entry α)}
  {threads threads' : List (Option (Flight α))} {signal : Option Signal}

/-- The turns that a call takes until it parks or ends. -/
def Phase.toil (rounds : Nat) : Phase → Nat
  | .arriving => rounds + 1
  | .snoozing more => more + 1
  | .woken _ => 1
  | .parked => 0

theorem Phase.toil_rest (rounds n : Nat) : (rest n).toil rounds = n := by
  cases n <;> rfl

theorem Phase.toil_awake {p : Phase} (rounds : Nat) (h : p ≠ .parked) : 0 < p.toil rounds := by
  cases p with
  | parked => exact absurd rfl h
  | _ => exact Nat.succ_pos _

theorem Phase.toil_look {p q : Phase} {rounds : Nat} {deadline : Deadline} {now : Instant}
    (h : p.look rounds deadline now true = .waiting q) (hp : p ≠ .parked) :
    q.toil rounds < p.toil rounds := by
  cases p with
  | parked => exact absurd rfl hp
  | arriving =>
    simp only [look, Bool.not_true, Bool.false_eq_true, if_false] at h
    split at h <;> cases h
    rw [toil_rest]
    exact Nat.lt_succ_self rounds
  | snoozing more =>
    simp only [look, Bool.not_true, Bool.false_eq_true, if_false] at h
    split at h <;> cases h
    rw [toil_rest]
    exact Nat.lt_succ_self more
  | woken cause =>
    simp only [look, Bool.not_true, Bool.false_eq_true, if_false] at h
    split at h <;> cases h
    exact Nat.zero_lt_one

theorem sum_map_set {β : Type v} (φ : β → Nat) {l : List β} {i : Nat} {x : β} (y : β)
    (h : l[i]? = some x) : ((l.set i y).map φ).sum + φ x = (l.map φ).sum + φ y := by
  induction l generalizing i with
  | nil => cases h
  | cons z l ih =>
    cases i with
    | zero =>
      cases h
      simp only [List.set_cons_zero, List.map_cons, List.sum_cons]
      omega
    | succ i =>
      have hi := ih (i := i) (by simpa using h)
      simp only [List.set_cons_succ, List.map_cons, List.sum_cons]
      omega

namespace Monitor

/-- What a thread has before it, if a call that ends may wake so many others. -/
def load (c : Settings) (others : Nat) : Option (Flight α) → Nat
  | none => 0
  | some f => others + f.phase.toil c.rounds

def loads (c : Settings) (others : Nat) (threads : List (Option (Flight α))) : Nat :=
  (threads.map (load c others)).sum

/-- A bound on the turns that can be taken before all calls have ended or parked for good. -/
def toil (c : Settings) (s : Monitor α) : Nat :=
  loads c s.threads.length s.threads

theorem load_wake {k : Nat} {q : Condition} {t : Option (Flight α)} (h : parkedOn q t = true) :
    load c k (t.map (.wake .signal)) = load c k t + 1 := by
  cases t with
  | none => cases h
  | some f =>
    have hp := (parkedOn_some_iff.mp h).1
    simp [load, Flight.wake, hp, Phase.toil]

theorem loads_wakeAll (c : Settings) (k : Nat) (q : Condition)
    (threads : List (Option (Flight α))) :
    loads c k (wakeAll q threads) ≤ loads c k threads + threads.length := by
  induction threads with
  | nil => exact Nat.le_refl _
  | cons t threads ih =>
    have ht : load c k (if parkedOn q t then t.map (.wake .signal) else t) ≤ load c k t + 1 := by
      split
      · rename_i h
        exact Nat.le_of_eq (load_wake h)
      · exact Nat.le_succ _
    simp only [loads, wakeAll, List.map_cons, List.sum_cons, List.length_cons] at ih ⊢
    omega

theorem Delivered.loads {k : Nat} (h : Delivered threads signal threads') :
    loads c k threads' ≤ loads c k threads + threads.length := by
  cases h with
  | silent => exact Nat.le_add_right _ _
  | lost => exact Nat.le_add_right _ _
  | all condition => exact loads_wakeAll c k condition threads
  | @one condition w f found parked =>
    have hs := sum_map_set (load c k) (some (f.wake .signal)) found
    have hw : load c k (some (f.wake .signal)) = _ := load_wake parked
    obtain ⟨hlt, _⟩ := List.getElem?_eq_some_iff.mp found
    unfold Monitor.loads
    omega

theorem toil_turn {t : Nat} {waiter : Option Nat} (h : Steps c s (.turn t waiter) next entry) :
    next.toil c < s.toil c := by
  cases h with
  | @turn _ _ f turn threads found awake acts delivered =>
    have hlen := delivered.length
    rw [List.length_set] at hlen
    have hset := sum_map_set (load c s.threads.length) (turn.outcome.flight? f) found
    have hold : load c s.threads.length (some f) = _ + f.phase.toil c.rounds := rfl
    have hpos := f.phase.toil_awake c.rounds awake
    simp only [toil, hlen]
    cases ho : turn.outcome with
    | returns reply =>
      rw [ho] at delivered hset
      have hnew : load c s.threads.length ((Outcome.returns reply).flight? f) = 0 := rfl
      have hd := delivered.loads (c := c) (k := s.threads.length)
      rw [List.length_set] at hd
      unfold loads at hd ⊢
      omega
    | waits phase =>
      cases acts with
      | @waits _ _ p call hb look =>
        cases ho
        cases delivered
        have hless := Phase.toil_look look awake
        have hnew : load c s.threads.length ((Outcome.waits phase).flight? f) =
          _ + phase.toil c.rounds := rfl
        unfold loads
        dsimp only at hset ⊢
        omega
      | _ => cases ho

theorem toil_start {t : Nat} {call : Call α} (h : Steps c s (.start t call) next entry) :
    next.toil c = s.toil c + (s.threads.length + c.rounds + 1) := by
  cases h with
  | start idle =>
    have hset := sum_map_set (load c s.threads.length) (some ⟨call, s.clock, .arriving⟩) idle
    have hnew : load c s.threads.length (some ⟨call, s.clock, .arriving⟩) = _ + (c.rounds + 1) :=
      rfl
    have hold : load c s.threads.length (none : Option (Flight α)) = 0 := rfl
    simp only [toil, loads, setFlight, List.length_set]
    omega

end Monitor

end BoundedBuffer.Queue
