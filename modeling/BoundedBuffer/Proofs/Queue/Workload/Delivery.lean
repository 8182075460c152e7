import Mathlib.Data.List.Basic
import BoundedBuffer.Proofs.Queue.Parcels
import BoundedBuffer.Proofs.Queue.Workload.Progress

namespace BoundedBuffer.Queue

variable {α : Type u} {β : Type u}

def Call.offered? : Call α → Option α
  | .ask (.put v) _ => some v
  | _ => none

theorem Sequential.endless {c : Settings} {xs ys : List α} {d : Ended α} {wish : Wish α}
    (h : Sequential c xs d.call d.reply ys) (hc : d.call = .ask wish .endless) :
    d.put? = d.call.offered? ∧ d.taken = d.got?.toList := by
  obtain ⟨t, call, reply⟩ := d
  cases hc
  cases h with
  | put => exact ⟨rfl, rfl⟩
  | get => exact ⟨rfl, rfl⟩
  | peek => exact ⟨rfl, rfl⟩
  | full patience => exact absurd rfl patience
  | getEmpty patience => exact absurd rfl patience
  | peekEmpty patience => exact absurd rfl patience

namespace Workload

variable {c : Settings} {w last : Workload α} {ms : List Move} {log : List (Entry α)}

theorem sum_share (total k : Nat) (hk : 0 < k) :
    ((List.range k).map (share total k)).sum = total := by
  have hle : ∀ m, ((List.range m).map (share total k)).sum =
      m * (total / k) + min m (total % k) := by
    intro m
    induction m with
    | zero => simp
    | succ m ih =>
      rw [List.range_succ, List.map_append, List.sum_append, ih, Nat.succ_mul]
      simp only [share, List.map_cons, List.map_nil, List.sum_cons, List.sum_nil]
      split <;> omega
  have hmod := Nat.mod_lt total hk
  rw [hle, Nat.min_eq_right (Nat.le_of_lt hmod)]
  exact Nat.div_add_mod total k

theorem mem_consuming {peeks : Bool} {n : Nat} {call : Call α} (h : call ∈ consuming peeks n) :
    call = .get ∨ call = .peek := by
  obtain ⟨calls, hc, hm⟩ := List.mem_flatten.mp h
  rw [(List.mem_replicate.mp hc).2] at hm
  cases peeks with
  | false => exact Or.inl (List.mem_singleton.mp hm)
  | true => simpa [or_comm] using hm

theorem producing_eq (p : Nat) (contents : List β) :
    producing p contents = (Parcel.batch p contents).map Call.put := by
  apply List.ext_getElem
  · simp [producing, Parcel.batch]
  · intro i _ _
    simp [producing, Parcel.batch]

theorem mem_producing {p : Nat} {contents : List β} {call : Call (Parcel β)}
    (h : call ∈ producing p contents) : ∃ x ∈ Parcel.batch p contents, .put x = call :=
  List.mem_map.mp (producing_eq p contents ▸ h)

theorem consuming_oneSided (peeks : Bool) (n : Nat) : OneSided (consuming (α := α) peeks n) := by
  refine .consumer (fun call hc => mem_consuming hc) ?_
  intro call hc
  cases n with
  | zero => cases hc
  | succ n =>
    unfold consuming at hc
    rw [List.getLast?_flatten_replicate (Nat.succ_ne_zero n)] at hc
    cases peeks <;> exact (Option.some.inj hc).symm

theorem producing_oneSided (p : Nat) (contents : List β) : OneSided (producing p contents) := by
  refine .producer ?_
  intro call hc
  obtain ⟨x, _, rfl⟩ := mem_producing hc
  exact ⟨x, rfl⟩

theorem countP_consuming (peeks : Bool) (n : Nat) :
    (consuming (α := α) peeks n).countP Call.puts = 0 ∧
      (consuming (α := α) peeks n).countP Call.gets = n := by
  have hround : (if peeks then [.peek, .get] else [.get] : List (Call α)).countP Call.gets = 1 := by
    cases peeks <;> rfl
  constructor
  · apply List.countP_eq_zero.mpr
    intro call hc
    rcases mem_consuming hc with rfl | rfl <;> exact Bool.false_ne_true
  · unfold consuming
    rw [List.countP_flatten, List.map_replicate, hround, List.sum_replicate_nat, Nat.mul_one]

theorem countP_producing (p : Nat) (contents : List β) :
    (producing p contents).countP Call.puts = contents.length ∧
      (producing p contents).countP Call.gets = 0 := by
  constructor
  · rw [List.countP_eq_length.mpr, producing, List.length_mapIdx]
    intro call hc
    obtain ⟨x, _, rfl⟩ := mem_producing hc
    rfl
  · apply List.countP_eq_zero.mpr
    intro call hc
    obtain ⟨x, _, rfl⟩ := mem_producing hc
    exact Bool.false_ne_true

theorem sum_countP_producing (producers : List (List β)) :
    ((producers.mapIdx producing).map (List.countP Call.puts)).sum = producers.flatten.length ∧
      ((producers.mapIdx producing).map (List.countP Call.gets)).sum = 0 := by
  constructor
  · rw [List.length_flatten]
    congr 1
    apply List.ext_getElem
    · simp
    · intro i _ _
      simp [(countP_producing _ _).1]
  · rw [List.sum_eq_zero_iff_forall_eq_nat]
    intro n hn
    obtain ⟨a, ha, rfl⟩ := List.mem_map.mp hn
    obtain ⟨i, hi, rfl⟩ := List.mem_mapIdx.mp ha
    exact (countP_producing _ _).2

theorem sum_countP_consuming (total : Nat) {consumers : List Bool} (hk : consumers ≠ []) :
    let scripts := consumers.mapIdx fun i peeks =>
      consuming (α := α) peeks (share total consumers.length i)
    (scripts.map (List.countP Call.puts)).sum = 0 ∧
      (scripts.map (List.countP Call.gets)).sum = total := by
  intro scripts
  constructor
  · rw [List.sum_eq_zero_iff_forall_eq_nat]
    intro n hn
    obtain ⟨a, ha, rfl⟩ := List.mem_map.mp hn
    obtain ⟨i, hi, rfl⟩ := List.mem_mapIdx.mp ha
    exact (countP_consuming _ _).1
  · refine Eq.trans ?_ (sum_share total consumers.length (List.length_pos_iff.mpr hk))
    congr 1
    apply List.ext_getElem
    · simp [scripts]
    · intro i _ _
      simp [scripts, (countP_consuming _ _).2]

theorem balanced_ofProducers (producers : List (List β)) {consumers : List Bool}
    (hk : consumers ≠ []) :
    (ofProducers producers consumers).owed Call.puts =
      (ofProducers producers consumers).owed Call.gets := by
  obtain ⟨hputs, hgets⟩ := sum_countP_producing producers
  obtain ⟨hnone, htakes⟩ := sum_countP_consuming (α := Parcel β) producers.flatten.length hk
  unfold owed ofProducers
  rw [agendas_idle, List.map_append, List.map_append, List.sum_append, List.sum_append, htakes,
    hputs, hnone, hgets, Nat.zero_add, Nat.add_zero]

theorem sound_ofProducers (c : Settings) (producers : List (List β)) {consumers : List Bool}
    (hk : consumers ≠ []) : Sound c (ofProducers producers consumers) := by
  refine ⟨?_, .idle _ _, ?_, ?_⟩
  · simp [Staffed, ofProducers, Monitor.idle]
  · intro a ha
    unfold ofProducers at ha
    rw [agendas_idle] at ha
    rcases List.mem_append.mp ha with ha | ha
    · obtain ⟨i, hi, rfl⟩ := List.mem_mapIdx.mp ha
      exact consuming_oneSided _ _
    · obtain ⟨i, hi, rfl⟩ := List.mem_mapIdx.mp ha
      exact producing_oneSided _ _
  · exact (Nat.zero_add _).trans (balanced_ofProducers producers hk)

theorem agenda_ofProducers (producers : List (List β)) (consumers : List Bool) (p : Nat) :
    (ofProducers producers consumers).agenda (consumers.length + p) =
      producers[p]?.elim [] (producing p) := by
  unfold agenda ofProducers
  rw [agendas_idle, List.getElem?_append_right (by simp)]
  cases h : producers[p]? <;> simp [h]

theorem takes_of_consumer {producers : List (List β)} {consumers : List Bool} {t : Nat}
    {call : Call (Parcel β)} (ht : t < consumers.length)
    (hc : call ∈ (ofProducers producers consumers).agenda t) : call = .get ∨ call = .peek := by
  unfold agenda ofProducers at hc
  rw [agendas_idle, List.getElem?_append_left (by simpa using ht)] at hc
  simp only [List.getElem?_mapIdx, List.getElem?_eq_getElem ht, Option.map_some,
    Option.getD_some] at hc
  exact mem_consuming hc

theorem puts_of_producer {producers : List (List β)} {consumers : List Bool} {t : Nat}
    {call : Call (Parcel β)} (ht : consumers.length ≤ t)
    (hc : call ∈ (ofProducers producers consumers).agenda t) :
    ∃ x, call = .put x ∧ t = consumers.length + x.producer := by
  obtain ⟨p, rfl⟩ := Nat.exists_eq_add_of_le ht
  rw [agenda_ofProducers] at hc
  cases h : producers[p]? with
  | none => rw [h] at hc; cases hc
  | some contents =>
    rw [h] at hc
    obtain ⟨x, hx, rfl⟩ := mem_producing hc
    exact ⟨x, rfl, by rw [Parcel.producer_of_mem_batch hx]⟩

theorem offers_ofProducers (producers : List (List β)) (consumers : List Bool) (p : Nat) :
    ((ofProducers producers consumers).agenda (consumers.length + p)).filterMap Call.offered? =
      producers[p]?.elim [] (Parcel.batch p) := by
  rw [agenda_ofProducers]
  cases producers[p]? with
  | none => rfl
  | some contents =>
    exact (congrArg _ (producing_eq p contents)).trans
      (List.filterMap_map.trans List.filterMap_some)

theorem Sound.ended (h : Sound c w) (hr : w.run c ms = some (last, log)) {d : Ended α}
    (hd : d ∈ Log.ended log) :
    d.call ∈ w.agenda d.thread ∧ d.put? = d.call.offered? ∧ d.taken = d.got?.toList := by
  have hx := Monitor.fits_of_reachable h.reachable
  have hmem : d.call ∈ w.agenda d.thread := by
    rw [run_agenda hr h.staffed hx]
    exact List.mem_append_left _ (List.mem_map_of_mem (List.mem_filter.mpr ⟨hd, by simp⟩))
  obtain ⟨wish, hwish⟩ : ∃ wish, d.call = .ask wish .endless := by
    unfold agenda at hmem
    cases ha : w.agendas[d.thread]? with
    | none => rw [ha] at hmem; cases hmem
    | some a =>
      rw [ha] at hmem
      exact (h.sided a (List.mem_of_getElem? ha)).endless hmem
  obtain ⟨mvs, hmvs⟩ := run_monitor hr
  obtain ⟨before, after, hs⟩ := (Monitor.run_legal hmvs hx).lawful hd
  exact ⟨hmem, hs.endless hwish⟩

/-- What a thread had to put is what it has put so far, then what it has still to put. -/
theorem Sound.offers (h : Sound c w) (hr : w.run c ms = some (last, log)) (t : Nat) :
    (w.agenda t).filterMap Call.offered? =
      (Log.endedBy t log).filterMap Ended.put? ++ (last.agenda t).filterMap Call.offered? := by
  rw [run_agenda hr h.staffed (Monitor.fits_of_reachable h.reachable) t, List.filterMap_append,
    List.filterMap_map]
  congr 1
  apply List.filterMap_congr
  intro d hd
  exact (h.ended hr (List.mem_filter.mp hd).1).2.1.symm

theorem Sound.taken_eq (h : Sound c w) (hr : w.run c ms = some (last, log)) :
    Log.taken log = Log.received log := by
  unfold Log.taken Log.received
  rw [List.filterMap_eq_flatMap_toList]
  apply List.flatMap_congr
  intro d hd
  exact (h.ended hr hd).2.2

theorem Sound.conserves (h : Sound c w) (hr : w.run c ms = some (last, log)) :
    w.monitor.items ++ Log.accepted log = Log.received log ++ last.monitor.items := by
  obtain ⟨mvs, hmvs⟩ := run_monitor hr
  rw [← h.taken_eq hr]
  exact (Monitor.run_legal hmvs (Monitor.fits_of_reachable h.reachable)).conserves

section Runs

variable {producers : List (List β)} {consumers : List Bool} {w : Workload (Parcel β)}
  {log : List (Entry (Parcel β))}

theorem accepted_of_producer (hk : consumers ≠ [])
    (hr : (ofProducers producers consumers).run c ms = some (w, log)) (p : Nat) :
    (Log.accepted log).filter (·.producer == p) =
      (Log.endedBy (consumers.length + p) log).filterMap Ended.put? := by
  unfold Log.accepted Log.endedBy
  rw [List.filter_filterMap, List.filterMap_filter]
  apply List.filterMap_congr
  intro d hd
  obtain ⟨hmem, hput, _⟩ := (sound_ofProducers c producers hk).ended hr hd
  rw [hput]
  rcases Nat.lt_or_ge d.thread consumers.length with ht | ht
  · rcases takes_of_consumer ht hmem with hc | hc <;> simp [hc, Call.offered?, Call.get, Call.peek]
  · obtain ⟨x, hc, hx⟩ := puts_of_producer ht hmem
    simp only [hc, hx, Call.put, Call.offered?, Option.filter_some, beq_iff_eq,
      Nat.add_left_cancel_iff]

/-- So those accepted are, for each producer, the first of what it sends, in its order. -/
theorem sent_eq_accepted_append (hk : consumers ≠ [])
    (hr : (ofProducers producers consumers).run c ms = some (w, log)) (p : Nat) :
    (Parcel.sent producers).filter (·.producer == p) =
      (Log.accepted log).filter (·.producer == p) ++
        (w.agenda (consumers.length + p)).filterMap Call.offered? := by
  have ho := (sound_ofProducers c producers hk).offers hr (consumers.length + p)
  rw [offers_ofProducers] at ho
  rw [Parcel.filter_sent, accepted_of_producer hk hr p, ho]

theorem accepted_inOrder (hk : consumers ≠ [])
    (hr : (ofProducers producers consumers).run c ms = some (w, log)) :
    Parcel.inOrder (Log.accepted log) := by
  apply Parcel.inOrder_of_filter
  intro p
  have hall : ((Parcel.sent producers).filter (·.producer == p)).Pairwise
      fun a b => a.position < b.position := by
    rw [Parcel.filter_sent]
    cases producers[p]? with
    | none => exact .nil
    | some contents => exact Parcel.batch_ordered p contents
  rw [sent_eq_accepted_append hk hr p] at hall
  exact (List.pairwise_append.mp hall).1

theorem receivedBy_eq {peeks : Bool}
    (hr : (ofProducers producers [peeks]).run c ms = some (w, log)) :
    Log.receivedBy 0 log = Log.received log := by
  unfold Log.receivedBy Log.received Log.endedBy
  rw [List.filterMap_filter]
  apply List.filterMap_congr
  intro d hd
  obtain ⟨hmem, _, _⟩ := (sound_ofProducers c producers (by simp)).ended hr hd
  rcases Nat.lt_or_ge d.thread 1 with ht | ht
  · simp [Nat.lt_one_iff.mp ht]
  · have hpast : [peeks].length ≤ d.thread := ht
    obtain ⟨x, hc, _⟩ := puts_of_producer hpast hmem
    obtain ⟨t, call, reply⟩ := d
    cases hc
    simp [Ended.got?]

theorem received_inOrder (hk : consumers ≠ [])
    (hr : (ofProducers producers consumers).run c ms = some (w, log)) (t : Nat) :
    Parcel.inOrder (Log.receivedBy t log) := by
  have hfifo : Log.accepted log = Log.received log ++ w.monitor.items :=
    (sound_ofProducers c producers hk).conserves hr
  have hall : (Log.received log).Sublist (Log.accepted log) :=
    hfifo ▸ List.sublist_append_left _ _
  have hown : (Log.receivedBy t log).Sublist (Log.received log) :=
    List.filter_sublist.filterMap Ended.got?
  exact (accepted_inOrder hk hr).sublist (hown.trans hall)

theorem accepted_eq_of_done (hk : consumers ≠ [])
    (hr : (ofProducers producers consumers).run c ms = some (w, log))
    (hd : ∀ a ∈ w.agendas, a = []) (p : Nat) :
    (Log.accepted log).filter (·.producer == p) =
      (Parcel.sent producers).filter (·.producer == p) := by
  have hnil : w.agenda (consumers.length + p) = [] := by
    unfold agenda
    cases ha : w.agendas[consumers.length + p]? with
    | none => rfl
    | some a => exact hd a (List.mem_of_getElem? ha)
  rw [sent_eq_accepted_append hk hr p, hnil]
  exact (List.append_nil _).symm

end Runs

/-- All are done after `toil` moves at most and never stuck before. Each consumer has each
producer's values in order, and in the end all are received. -/
theorem run_delivers {c : Settings} {producers : List (List β)} {consumers : List Bool}
    (hk : consumers ≠ []) {w : Workload (Parcel β)} {ms : List Move}
    {log : List (Entry (Parcel β))}
    (hr : (ofProducers producers consumers).run c ms = some (w, log)) :
    ms.length ≤ (ofProducers producers consumers).toil c ∧
      (w.finished = false → ∃ m, w.step c m ≠ none) ∧
      (∀ t, Parcel.inOrder (Log.receivedBy t log)) ∧
      ((∀ m, w.step c m = none) →
        w.finished = true ∧ w.monitor.items = [] ∧
        (Log.received log).Perm (Parcel.sent producers) ∧
        ∀ contents peeks, producers = [contents] → consumers = [peeks] →
          Log.receivedBy 0 log = Parcel.sent producers) := by
  have h₀ := sound_ofProducers c producers hk
  have hs := h₀.run hr
  refine ⟨?_, hs.progress, received_inOrder hk hr, ?_⟩
  · exact Nat.le_of_add_right_le (run_toil hr)
  · intro hstuck
    have hdone := hs.done_of_stuck hstuck
    have hempty := hs.empty_of_done hdone
    have hall : Log.received log = Log.accepted log := by
      have hfifo : Log.accepted log = Log.received log ++ w.monitor.items := h₀.conserves hr
      rw [hempty, List.append_nil] at hfifo
      exact hfifo.symm
    have heach := accepted_eq_of_done hk hr hdone
    refine ⟨(finished_iff hs.staffed).mpr hdone, hempty, ?_, ?_⟩
    · rw [hall]
      exact Parcel.perm_of_filter heach
    · rintro contents peeks rfl rfl
      rw [receivedBy_eq hr, hall]
      exact Parcel.eq_of_filter_single heach

/-- A peek and a put park, and each is woken by a call of the other side. -/
theorem peeker_and_getter_run_delivers :
    ∃ w log, (ofProducers [[5], [8]] [true, false]).run ⟨1, 0⟩ [.next 0, .turn 0 none, .next 1,
        .turn 1 none, .next 2, .turn 2 (some 1), .next 3, .turn 3 none, .turn 1 (some 3),
        .turn 3 (some 0), .turn 0 none, .next 0, .turn 0 none] = some (w, log) ∧
      (∀ m, w.step ⟨1, 0⟩ m = none) ∧ w.finished = true ∧
      Log.receivedBy 0 log = [⟨1, 0, 8⟩] ∧ Log.receivedBy 1 log = [⟨0, 0, 5⟩] ∧
      (Log.received log).Perm (Parcel.sent [[5], [8]]) := by
  have h := @run_delivers Nat ⟨1, 0⟩ [[5], [8]] [true, false] (List.cons_ne_nil true [false])
    ⟨.idle 4 0, [[], [], [], []]⟩ [.next 0, .turn 0 none, .next 1, .turn 1 none, .next 2,
      .turn 2 (some 1), .next 3, .turn 3 none, .turn 1 (some 3), .turn 3 (some 0), .turn 0 none,
      .next 0, .turn 0 none] _ rfl
  have stuck : ∀ m, step (α := Parcel Nat) ⟨1, 0⟩ ⟨.idle 4 0, [[], [], [], []]⟩ m = none := by
    rintro (t | ⟨t, waiter⟩)
    · rcases t with _ | _ | _ | _ | t <;> rfl
    · rcases t with _ | _ | _ | _ | t <;> rfl
  obtain ⟨finished, _, perm, _⟩ := h.2.2.2 stuck
  exact ⟨_, _, rfl, stuck, finished, rfl, rfl, perm⟩

end Workload

end BoundedBuffer.Queue
