import BoundedBuffer.Proofs.Queue.Wakeups
import BoundedBuffer.Proofs.Queue.Workload.Agenda

namespace BoundedBuffer.Queue

variable {α : Type u}

/-- The agenda of a producer, or of a consumer, which ends with a get. -/
inductive OneSided (a : List (Call α)) : Prop
  | producer (puts : ∀ call ∈ a, ∃ v, call = .put v)
  | consumer (takes : ∀ call ∈ a, call = .get ∨ call = .peek)
      (last : ∀ call, a.getLast? = some call → call = .get)

theorem OneSided.tail {call : Call α} {a : List (Call α)} (h : OneSided (call :: a)) :
    OneSided a := by
  cases h with
  | producer puts => exact .producer fun x hx => puts x (List.mem_cons_of_mem _ hx)
  | consumer takes last =>
    refine .consumer (fun x hx => takes x (List.mem_cons_of_mem _ hx)) ?_
    intro x hx
    apply last
    rw [List.getLast?_cons, hx]
    rfl

theorem OneSided.endless {call : Call α} {a : List (Call α)} (h : OneSided a) (hc : call ∈ a) :
    ∃ wish, call = .ask wish .endless := by
  cases h with
  | producer puts =>
    obtain ⟨v, rfl⟩ := puts call hc
    exact ⟨_, rfl⟩
  | consumer takes =>
    rcases takes call hc with rfl | rfl
    · exact ⟨_, rfl⟩
    · exact ⟨_, rfl⟩

namespace Workload

variable {c : Settings} {w next last : Workload α} {m : Move} {ms : List Move}
  {entry : Option (Entry α)} {log : List (Entry α)}

def owed (p : Call α → Bool) (w : Workload α) : Nat :=
  (w.agendas.map (List.countP p)).sum

/-- In the queue and still to be put is just what the consumers have still to get. -/
structure Sound (c : Settings) (w : Workload α) : Prop where
  staffed : w.Staffed
  reachable : Monitor.Reachable c w.monitor
  sided : ∀ a ∈ w.agendas, OneSided a
  balanced : w.monitor.items.length + w.owed Call.puts = w.owed Call.gets

theorem owed_head {p : Call α → Bool} {t : Nat} {call : Call α} {rest : List (Call α)}
    (head : w.agendas[t]? = some (call :: rest)) (ha : next.agendas = w.agendas.set t rest) :
    w.owed p = next.owed p + (if p call then 1 else 0) := by
  have hs := sum_map_set (List.countP p) rest head
  unfold owed
  rw [ha]
  rw [List.countP_cons] at hs
  omega

theorem Sound.step (h : Sound c w) (hs : Steps c w m next entry) : Sound c next := by
  obtain ⟨mv, hmv⟩ := hs.monitor
  have hr := h.reachable.step mv hmv
  cases effect_of_steps hs h.staffed (Monitor.fits_of_reachable h.reachable) with
  | quiet _ items agendas =>
    refine ⟨hs.staffed h.staffed, hr, agendas ▸ h.sided, ?_⟩
    have hb := h.balanced
    unfold owed at hb ⊢
    rw [items, agendas]
    exact hb
  | @ended d rest _ lawful head agendas =>
    have hsided := h.sided _ (List.mem_of_getElem? head)
    refine ⟨hs.staffed h.staffed, hr, ?_, ?_⟩
    · intro a ha
      rw [agendas] at ha
      rcases List.mem_or_eq_of_mem_set ha with ha | rfl
      · exact h.sided a ha
      · exact hsided.tail
    · obtain ⟨wish, hcall⟩ := hsided.endless List.mem_cons_self
      rw [hcall] at lawful head
      have hbal := lawful.balance lawful.endless_unrefused
      have hputs := owed_head (p := Call.puts) head agendas
      have hgets := owed_head (p := Call.gets) head agendas
      have hold := h.balanced
      omega

theorem Sound.run (h : Sound c w) (hr : w.run c ms = some (last, log)) : Sound c last := by
  induction ms generalizing w log with
  | nil =>
    cases hr
    exact h
  | cons m ms ih =>
    obtain ⟨next, entry, rest, hs, hr, _⟩ := run_cons hr
    exact ih (h.step hs) hr

def Stuck (c : Settings) (w : Workload α) : Prop :=
  ∀ m, w.step c m = none

theorem Stuck.parked (h : Stuck c w) {f : Flight α} (hf : some f ∈ w.monitor.threads) :
    f.phase = .parked := by
  obtain ⟨t, ht, he⟩ := List.getElem_of_mem hf
  by_cases hp : f.phase = .parked
  · exact hp
  · have hfound : w.monitor.threads[t]? = some (some f) := by rw [List.getElem?_eq_getElem ht, he]
    obtain ⟨waiter, next, hs⟩ := Monitor.turn_possible (c := c) hfound hp
    have hn := h (.turn t waiter)
    simp [step, hs] at hn

/-- A thread that is stuck with something to do is parked in the first call of its agenda. -/
theorem Stuck.head (h : Stuck c w) {call : Call α} {rest : List (Call α)}
    (ha : call :: rest ∈ w.agendas) : ∃ f, some f ∈ w.monitor.threads ∧ f.call = call := by
  obtain ⟨t, ht, he⟩ := List.getElem_of_mem ha
  have hagenda : w.agendas[t]? = some (call :: rest) := by rw [List.getElem?_eq_getElem ht, he]
  obtain ⟨x, script, hx, hscript, hcons⟩ := List.getElem?_zipWith_eq_some.mp hagenda
  obtain ⟨thread, hthread, rfl⟩ := Option.map_eq_some_iff.mp (List.getElem?_map ▸ hx)
  cases thread with
  | none =>
    have hn := h (.next t)
    have hs : script = call :: rest := hcons
    rw [hs] at hscript
    simp [step, hscript, Monitor.step, hthread] at hn
  | some f => exact ⟨f, List.mem_of_getElem? hthread, (List.cons.inj hcons).1⟩

theorem Stuck.unserved (h : Stuck c w) (hr : Monitor.Reachable c w.monitor) {f : Flight α}
    {q : Condition} (hf : some f ∈ w.monitor.threads) (hq : f.condition? = some q) :
    c.openings w.monitor.items q = 0 :=
  Monitor.unserved_of_unsignalled hr (fun _ hg => by simp [h.parked hg]) hf (h.parked hf) hq

theorem Stuck.held (h : Stuck c w) (hr : Monitor.Reachable c w.monitor) {v : α}
    {rest : List (Call α)} (ha : .put v :: rest ∈ w.agendas) : 0 < w.monitor.items.length := by
  obtain ⟨f, hf, hcall⟩ := h.head ha
  have hc : f.condition? = some .notFull := Flight.condition?_ask hcall
  have hroom := h.unserved hr hf hc
  have hbound := Monitor.bounded_of_waiting hr hf (by simp [h.parked hf]) hc
  simp only [Settings.openings] at hroom
  omega

theorem Stuck.empty (h : Stuck c w) (hr : Monitor.Reachable c w.monitor) {call : Call α}
    {rest : List (Call α)} (ha : call :: rest ∈ w.agendas) (hcall : call = .get ∨ call = .peek) :
    w.monitor.items.length = 0 := by
  obtain ⟨f, hf, hfc⟩ := h.head ha
  have hc : f.condition? = some .notEmpty := by
    rcases hcall with rfl | rfl
    · exact Flight.condition?_ask hfc
    · exact Flight.condition?_ask hfc
  exact h.unserved hr hf hc

theorem owed_pos_iff {p : Call α → Bool} :
    0 < w.owed p ↔ ∃ a ∈ w.agendas, ∃ call ∈ a, p call = true := by
  rw [owed, List.sum_pos_iff_exists_pos_nat]
  constructor
  · rintro ⟨_, hn, hpos⟩
    obtain ⟨a, ha, rfl⟩ := List.mem_map.mp hn
    exact ⟨a, ha, List.countP_pos_iff.mp hpos⟩
  · rintro ⟨a, ha, hpos⟩
    exact ⟨_, List.mem_map_of_mem ha, List.countP_pos_iff.mpr hpos⟩

theorem Sound.owed_pos (h : Sound c w) {call : Call α} {rest : List (Call α)}
    (ha : call :: rest ∈ w.agendas) : 0 < w.owed Call.puts ∨ 0 < w.owed Call.gets := by
  rw [owed_pos_iff, owed_pos_iff]
  cases h.sided _ ha with
  | producer puts =>
    obtain ⟨v, rfl⟩ := puts call List.mem_cons_self
    exact Or.inl ⟨_, ha, _, List.mem_cons_self, rfl⟩
  | consumer _ last =>
    have hne := List.cons_ne_nil call rest
    have hlast := last _ (List.getLast?_eq_some_getLast hne)
    exact Or.inr ⟨_, ha, _, List.getLast_mem hne, by rw [hlast]; rfl⟩

/-- Beside an empty queue only consumers are stuck. -/
theorem Sound.no_puts (h : Sound c w) (hs : Stuck c w) (hempty : w.monitor.items.length = 0) :
    ¬ 0 < w.owed Call.puts := by
  rw [owed_pos_iff]
  rintro ⟨a, ha, call, hc, hp⟩
  cases h.sided a ha with
  | producer puts =>
    cases a with
    | nil => cases hc
    | cons first a =>
      obtain ⟨v, rfl⟩ := puts first List.mem_cons_self
      have hheld := hs.held h.reachable ha
      omega
  | consumer takes =>
    rcases takes call hc with rfl | rfl
    · cases hp
    · cases hp

/-- Beside a queue that holds something only producers are stuck. -/
theorem Sound.no_gets (h : Sound c w) (hs : Stuck c w) (hheld : 0 < w.monitor.items.length) :
    ¬ 0 < w.owed Call.gets := by
  rw [owed_pos_iff]
  rintro ⟨a, ha, call, hc, hp⟩
  cases h.sided a ha with
  | producer puts =>
    obtain ⟨v, rfl⟩ := puts call hc
    cases hp
  | consumer takes =>
    cases a with
    | nil => cases hc
    | cons first a =>
      have hempty := hs.empty h.reachable ha (takes first List.mem_cons_self)
      omega

/-- A stuck queue has no puts left or no gets, and by the balance neither. -/
theorem Sound.done_of_stuck (h : Sound c w) (hs : Stuck c w) : ∀ a ∈ w.agendas, a = [] := by
  have hbalance := h.balanced
  intro a ha
  cases a with
  | nil => rfl
  | cons call rest =>
    exfalso
    have howed := h.owed_pos ha
    rcases Nat.eq_zero_or_pos w.monitor.items.length with hempty | hheld
    · have hputs := h.no_puts hs hempty
      omega
    · have hgets := h.no_gets hs hheld
      omega

theorem finished_iff (hw : w.Staffed) : w.finished = true ↔ ∀ a ∈ w.agendas, a = [] := by
  have hlen : w.scripts.length = w.monitor.calls.length := hw.trans (List.length_map ..).symm
  simp only [finished, Bool.and_eq_true, List.all_eq_true, List.isEmpty_iff,
    Option.isNone_iff_eq_none]
  constructor
  · rintro ⟨hscripts, hthreads⟩ a ha
    obtain ⟨t, ht, he⟩ := List.getElem_of_mem ha
    have hagenda : w.agendas[t]? = some a := by rw [List.getElem?_eq_getElem ht, he]
    obtain ⟨x, script, hx, hscript, rfl⟩ := List.getElem?_zipWith_eq_some.mp hagenda
    obtain ⟨thread, hthread, rfl⟩ := List.mem_map.mp (List.mem_of_getElem? hx)
    rw [hthreads thread hthread, hscripts script (List.mem_of_getElem? hscript)]
    rfl
  · intro h
    have hat : ∀ (t : Nat) x script, w.monitor.calls[t]? = some x → w.scripts[t]? = some script →
        x = none ∧ script = [] := by
      intro t x script hx hscript
      have hnil := h _ (List.mem_of_getElem? (agendas_found hx hscript))
      obtain ⟨hcall, rfl⟩ := List.append_eq_nil_iff.mp hnil
      exact ⟨by simpa using hcall, rfl⟩
    constructor
    · intro script hm
      obtain ⟨t, ht, rfl⟩ := List.getElem_of_mem hm
      exact (hat t _ _ (List.getElem?_eq_getElem (hlen ▸ ht)) (List.getElem?_eq_getElem ht)).2
    · intro thread hm
      have hcall := List.mem_map_of_mem (f := Option.map Flight.call) hm
      obtain ⟨t, ht, he⟩ := List.getElem_of_mem hcall
      have hnone := (hat t _ _ (List.getElem?_eq_getElem ht)
        (List.getElem?_eq_getElem (hlen ▸ ht))).1
      exact Option.map_eq_none_iff.mp (he.symm.trans hnone)

theorem Sound.progress (h : Sound c w) (hf : w.finished = false) : ∃ m, w.step c m ≠ none := by
  apply Classical.not_forall.mp
  intro hs
  have hdone := (finished_iff h.staffed).mpr (h.done_of_stuck hs)
  rw [hf] at hdone
  cases hdone

theorem Sound.empty_of_done (h : Sound c w) (hd : ∀ a ∈ w.agendas, a = []) :
    w.monitor.items = [] := by
  have hgets : ¬ 0 < w.owed Call.gets := by
    rw [owed_pos_iff]
    rintro ⟨a, ha, call, hc, _⟩
    rw [hd a ha] at hc
    cases hc
  have hbalance := h.balanced
  apply List.eq_nil_of_length_eq_zero
  omega

end Workload

end BoundedBuffer.Queue
