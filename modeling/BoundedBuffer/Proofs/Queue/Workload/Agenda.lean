import BoundedBuffer.Proofs.Queue.Linearizability
import BoundedBuffer.Proofs.Queue.Termination
import BoundedBuffer.Queue.Workload

namespace BoundedBuffer.Queue

variable {α : Type u}

theorem zipWith_set {β : Type v} {γ : Type w} {δ : Type x} (f : β → γ → δ) (l : List β)
    (l' : List γ) (i : Nat) (b : β) (d : γ) :
    List.zipWith f (l.set i b) (l'.set i d) = (List.zipWith f l l').set i (f b d) := by
  induction l generalizing l' i with
  | nil => rfl
  | cons y l ih =>
    cases l' with
    | nil => simp
    | cons z l' =>
      cases i with
      | zero => rfl
      | succ i => simp only [List.set_cons_succ, List.zipWith_cons_cons, ih]

namespace Workload

variable {c : Settings} {w next last : Workload α} {m : Move} {ms : List Move}
  {entry : Option (Entry α)} {log : List (Entry α)}

/-- What a thread has to do: the call that it is in, then those that it has yet to make. -/
def agendas (w : Workload α) : List (List (Call α)) :=
  List.zipWith (fun call script => call.toList ++ script) w.monitor.calls w.scripts

def agenda (w : Workload α) (t : Nat) : List (Call α) :=
  w.agendas[t]?.getD []

theorem agendas_found {t : Nat} {call : Option (Call α)} {script : List (Call α)}
    (hc : w.monitor.calls[t]? = some call) (hs : w.scripts[t]? = some script) :
    w.agendas[t]? = some (call.toList ++ script) :=
  List.getElem?_zipWith_eq_some.mpr ⟨call, script, hc, hs, rfl⟩

theorem agendas_idle (scripts : List (List (Call α))) (clock : Time.Instant) :
    (⟨.idle scripts.length clock, scripts⟩ : Workload α).agendas = scripts := by
  apply List.ext_getElem
  · simp [agendas, Monitor.calls, Monitor.idle]
  · intro t _ _
    simp [agendas, Monitor.calls, Monitor.idle]

def Staffed (w : Workload α) : Prop :=
  w.scripts.length = w.monitor.threads.length

inductive Steps (c : Settings) (w : Workload α) :
    Move → Workload α → Option (Entry α) → Prop
  | next {t : Nat} {call : Call α} {calls : List (Call α)} {s : Monitor α}
      {entry : Option (Entry α)} (script : w.scripts[t]? = some (call :: calls))
      (step : w.monitor.step c (.start t call) = some (s, entry)) :
      Steps c w (.next t) ⟨s, w.scripts.set t calls⟩ entry
  | turn {t : Nat} {waiter : Option Nat} {s : Monitor α} {entry : Option (Entry α)}
      (step : w.monitor.step c (.turn t waiter) = some (s, entry)) :
      Steps c w (.turn t waiter) { w with monitor := s } entry

theorem steps_of_step (h : w.step c m = some (next, entry)) : Steps c w m next entry := by
  cases m with
  | next t =>
    simp only [step] at h
    split at h
    · rename_i call calls hs
      obtain ⟨⟨s, e⟩, hstep, he⟩ := Option.map_eq_some_iff.mp h
      cases he
      exact .next hs hstep
    · cases h
  | turn t waiter =>
    obtain ⟨⟨s, e⟩, hstep, he⟩ := Option.map_eq_some_iff.mp h
    cases he
    exact .turn hstep

inductive Effect (c : Settings) (w next : Workload α) (entry : Option (Entry α)) : Prop
  | quiet (quiet : entry.bind Entry.ended? = none)
      (items : next.monitor.items = w.monitor.items) (agendas : next.agendas = w.agendas)
  | ended {d : Ended α} {rest : List (Call α)} (ended : entry.bind Entry.ended? = some d)
      (lawful : Sequential c w.monitor.items d.call d.reply next.monitor.items)
      (head : w.agendas[d.thread]? = some (d.call :: rest))
      (agendas : next.agendas = w.agendas.set d.thread rest)

theorem effect_of_steps (h : Steps c w m next entry) (hw : w.Staffed)
    (hx : c.Fits w.monitor.items) : Effect c w next entry := by
  cases h with
  | @next t call calls s entry script step =>
    cases Monitor.effect_of_step step hx with
    | begun move quiet items idle hcalls =>
      cases move
      refine .quiet (by rw [quiet]; rfl) items ?_
      have hagenda : w.agendas[t]? = some (call :: calls) := agendas_found idle script
      obtain ⟨ht, he⟩ := List.getElem?_eq_some_iff.mp hagenda
      unfold agendas at ht he ⊢
      rw [hcalls, zipWith_set]
      change List.set _ t (call :: calls) = _
      rw [← he, List.set_getElem_self]
    | quiet move => exact absurd rfl (move t call)
    | ended move => cases move
  | @turn t waiter s entry step =>
    cases Monitor.effect_of_step step hx with
    | begun move => cases move
    | quiet _ quiet items hcalls => exact .quiet quiet items (by simp [agendas, hcalls])
    | @ended d _ _ ended lawful flying hcalls =>
      have hlt : d.thread < w.scripts.length := by
        obtain ⟨ht, _⟩ := List.getElem?_eq_some_iff.mp flying
        rw [hw]
        simpa [Monitor.calls] using ht
      have hscript := List.getElem?_eq_getElem hlt
      have head : w.agendas[d.thread]? = some (d.call :: w.scripts[d.thread]) :=
        agendas_found flying hscript
      refine .ended ended lawful head ?_
      have hset := zipWith_set (fun (call : Option (Call α)) script => call.toList ++ script)
        w.monitor.calls w.scripts d.thread none w.scripts[d.thread]
      rw [List.set_getElem_self] at hset
      simpa [agendas, hcalls] using hset

theorem Effect.fits (h : Effect c w next entry) (hx : c.Fits w.monitor.items) :
    c.Fits next.monitor.items := by
  cases h with
  | quiet _ items => rwa [items]
  | ended _ lawful => exact lawful.fits hx

theorem Steps.staffed (h : Steps c w m next entry) (hw : w.Staffed) : next.Staffed := by
  cases h with
  | next script step =>
    have hlen := (Monitor.steps_of_step step).length
    exact (List.length_set ..).trans (hw.trans hlen.symm)
  | turn step => exact hw.trans (Monitor.steps_of_step step).length.symm

theorem Steps.monitor (h : Steps c w m next entry) :
    ∃ mv, w.monitor.step c mv = some (next.monitor, entry) := by
  cases h with
  | next _ step => exact ⟨_, step⟩
  | turn step => exact ⟨_, step⟩

/-- A bound on the moves to come: a call that has yet to start has one more before it. -/
def toil (c : Settings) (w : Workload α) : Nat :=
  w.monitor.toil c +
    (w.scripts.map List.length).sum * (w.monitor.threads.length + c.rounds + 2)

theorem Steps.toil (h : Steps c w m next entry) : next.toil c < w.toil c := by
  cases h with
  | @next t call calls s entry script step =>
    have hs := Monitor.steps_of_step step
    have hsum := sum_map_set List.length calls script
    have hold : (w.scripts.map List.length).sum =
        ((w.scripts.set t calls).map List.length).sum + 1 := by
      rw [List.length_cons] at hsum
      omega
    unfold Workload.toil
    rw [hold, Nat.succ_mul, Monitor.toil_start hs, hs.length]
    dsimp only
    omega
  | turn step =>
    have hs := Monitor.steps_of_step step
    unfold Workload.toil
    rw [hs.length]
    exact Nat.add_lt_add_right (Monitor.toil_turn hs) _

theorem run_cons (h : w.run c (m :: ms) = some (last, log)) :
    ∃ next entry rest, Steps c w m next entry ∧ next.run c ms = some (last, rest) ∧
      log = entry.toList ++ rest := by
  simp only [run] at h
  split at h
  · cases h
  · rename_i next entry hs
    obtain ⟨⟨l, rest⟩, hr, he⟩ := Option.map_eq_some_iff.mp h
    cases he
    exact ⟨next, entry, rest, steps_of_step hs, hr, rfl⟩

/-- Threads at work make a run of the queue. -/
theorem run_monitor (h : w.run c ms = some (last, log)) :
    ∃ mvs, w.monitor.run c mvs = some (last.monitor, log) := by
  induction ms generalizing w log with
  | nil =>
    cases h
    exact ⟨[], rfl⟩
  | cons m ms ih =>
    obtain ⟨next, entry, rest, hs, hr, rfl⟩ := run_cons h
    obtain ⟨mv, hmv⟩ := hs.monitor
    obtain ⟨mvs, hmvs⟩ := ih hr
    exact ⟨mv :: mvs, Monitor.run_cons.mpr ⟨_, entry, rest, hmv, hmvs, rfl⟩⟩

theorem run_toil (h : w.run c ms = some (last, log)) : ms.length + last.toil c ≤ w.toil c := by
  induction ms generalizing w log with
  | nil =>
    cases h
    simp
  | cons m ms ih =>
    obtain ⟨next, entry, rest, hs, hr, rfl⟩ := run_cons h
    have ht := hs.toil
    have hi := ih hr
    rw [List.length_cons]
    omega

/-- The calls of a thread end one after the other, as they stand on its agenda. -/
theorem run_agenda (h : w.run c ms = some (last, log)) (hw : w.Staffed)
    (hx : c.Fits w.monitor.items) (t : Nat) :
    w.agenda t = (Log.endedBy t log).map Ended.call ++ last.agenda t := by
  induction ms generalizing w log with
  | nil =>
    cases h
    rfl
  | cons m ms ih =>
    obtain ⟨next, entry, rest, hs, hr, rfl⟩ := run_cons h
    have he := effect_of_steps hs hw hx
    have hi := ih hr (hs.staffed hw) (he.fits hx)
    unfold Log.endedBy at hi ⊢
    rw [Log.ended_append]
    cases he with
    | quiet quiet _ hagendas =>
      have ha : w.agenda t = next.agenda t := by simp [agenda, hagendas]
      rw [quiet, ha]
      exact hi
    | @ended d todo ended _ head hagendas =>
      obtain ⟨hlt, _⟩ := List.getElem?_eq_some_iff.mp head
      rw [ended]
      by_cases ht : d.thread = t
      · subst ht
        have ha : next.agenda d.thread = todo := by simp [agenda, hagendas, hlt]
        have hb : w.agenda d.thread = d.call :: todo := by simp [agenda, head]
        rw [hb, ← ha, hi]
        simp
      · have ha : w.agenda t = next.agenda t := by
          simp [agenda, hagendas, List.getElem?_set_ne ht]
        rw [ha, hi]
        simp [ht]

end Workload

end BoundedBuffer.Queue
