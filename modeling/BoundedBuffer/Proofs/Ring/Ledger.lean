import BoundedBuffer.Proofs.Ring.Custody
import BoundedBuffer.Proofs.Ring.Racks
import Mathlib.Data.List.Nodup

namespace BoundedBuffer.Ring

variable {α : Type u} {r : Ring (OptionCells α)}

namespace Rack

variable {k : Rack (OptionCells α)} {i j : Nat} {incoming outgoing : List α}

/-- A rack of rings with these capacities; with none there is no ring. -/
def ofCapacities (capacities : List Nat) : Rack (OptionCells α) :=
  ⟨capacities.map fun n => (ofCapacity (OptionCells α) n).toOption⟩

def heldBy : Option (Ring (OptionCells α)) → List α
  | some r => r.cells.held
  | none => []

def held (k : Rack (OptionCells α)) : List α :=
  k.rings.flatMap heldBy

theorem held_set (h : k.ring? i = some r) (new : Option (Ring (OptionCells α))) :
    ((k.set i new).held ++ r.cells.held).Perm (k.held ++ heldBy new) :=
  flatMap_set_perm heldBy new (ring?_eq_some.mp h)

theorem held_moved {new : Option (Ring (OptionCells α))} (found : k.ring? i = some r)
    (moved : (heldBy new ++ outgoing).Perm (r.cells.held ++ incoming)) :
    ((k.set i new).held ++ outgoing).Perm (k.held ++ incoming) := by
  classical
  rw [List.perm_iff_count]
  intro x
  have hset := (held_set found new).count_eq x
  have hmoved := moved.count_eq x
  simp only [List.count_append] at hset hmoved ⊢
  omega

theorem held_poured {source target source' target' : Ring (OptionCells α)} (apart : i ≠ j)
    (giving : k.ring? i = some source) (taking : k.ring? j = some target)
    (moved : (source'.cells.held ++ target'.cells.held ++ outgoing).Perm
      (source.cells.held ++ target.cells.held)) :
    (((k.set i (some source')).set j (some target')).held ++ outgoing).Perm k.held := by
  classical
  rw [List.perm_iff_count]
  intro x
  have hgiven := (held_set giving (some source')).count_eq x
  have hsame := (ring?_set_ne apart (some source')).trans taking
  have htaken := (held_set hsame (some target')).count_eq x
  have hmoved := moved.count_eq x
  simp only [heldBy, List.count_append] at hgiven htaken hmoved ⊢
  omega

def Sound (k : Rack (OptionCells α)) : Prop :=
  ∀ i r, k.ring? i = some r → r.Sound

theorem Sound.set (h : k.Sound) {new : Option (Ring (OptionCells α))}
    (hnew : ∀ r, new = some r → r.Sound) : (k.set i new).Sound := by
  intro j r hj
  by_cases hij : i = j
  · subst hij
    have hi := lt_of_ring? hj
    simp only [Rack.set, List.length_set] at hi
    exact hnew r ((ring?_set_self hi new).symm.trans hj)
  · exact h j r ((ring?_set_ne hij new).symm.trans hj)

theorem sound_ofCapacities (capacities : List Nat) :
    (ofCapacities capacities : Rack (OptionCells α)).Sound := by
  intro i r hr
  obtain ⟨n, _, hn⟩ := List.mem_map.mp (List.mem_of_getElem? (ring?_eq_some.mp hr))
  cases n with
  | zero => cases hn
  | succ n =>
    rw [ofCapacity_pos _ n.succ_pos] at hn
    cases hn
    exact .allocate n.succ_pos

theorem held_ofCapacities (capacities : List Nat) :
    (ofCapacities capacities : Rack (OptionCells α)).held = [] := by
  apply List.flatMap_eq_nil_iff.mpr
  intro r hr
  obtain ⟨n, _, rfl⟩ := List.mem_map.mp hr
  cases n with
  | zero => rfl
  | succ n =>
    rw [ofCapacity_pos _ n.succ_pos]
    exact OptionCells.held_ofLength _

namespace Request

@[simp]
def offered : Request α → List α
  | .ring _ q => q.offered
  | _ => []

@[simp]
def returned : Request α → Reply α → List α
  | .ring _ q, reply => q.returned reply
  | _, reply => reply.rejected

/-- The values that go in and out by this request are no copies. -/
def Moving : Request α → Prop
  | .ring _ q => q.Moving
  | .copy _ _ => False
  | _ => True

/-- Clears, ends of drains and of transfers, and drops destroy values. -/
def Destroys : Request α → Prop
  | .ring _ q => q.Destroys
  | .pour _ _ | .drop _ => True
  | .copy _ _ => False

end Request

theorem Sound.destroys (h : k.Sound) {q : Request α} (hq : q.Moving) :
    q.Destroys ∨ (k.perform q).destroyed = [] := by
  have hp := performs k q
  generalize k.perform q = e at hp ⊢
  cases hp with
  | absent => exact Or.inr rfl
  | ring q found =>
    obtain ⟨_, _, _, he, _, _, hd⟩ := (h _ _ found).perform hq
    rw [he]
    exact hd
  | pour => exact Or.inl trivial
  | copy => exact absurd hq id
  | drop => exact Or.inl trivial

/-- A rack amid a drain or a transfer, with the values handed over and those destroyed so far. -/
inductive Amid (k : Rack (OptionCells α)) : Rack (OptionCells α) → List α → List α → Prop
  | drain {i : Nat} {r : Ring (OptionCells α)} (n : Nat) (found : k.ring? i = some r) :
      Amid k (k.set i (some (r.drainTrail n).after))
        ((Ring.Request.drain n).returned (.ofTrail (r.drainTrail n).reply))
        (r.drainTrail n).destroyed
  | pour {i j : Nat} {source target : Ring (OptionCells α)} (n : Nat) (apart : i ≠ j)
      (giving : k.ring? i = some source) (taking : k.ring? j = some target) :
      Amid k ((k.set i (some (source.pourSteps n target).after.1)).set j
          (some (source.pourSteps n target).after.2))
        (Reply.ofUnit (source.pourSteps n target).reply).rejected
        (source.pourSteps n target).destroyed

end Rack

/-- What has become of the values that were offered, but for those held. -/
structure Ledger (α : Type u) where
  offered : List α := []
  returned : List α := []
  unread : List α := []
  destroyed : List α := []

namespace Ledger

open BoundedBuffer.Ring.Rack

variable {l : Ledger α} {k next : Rack (OptionCells α)} {handed lost : List α}

/-- A request that nothing answers has offered nothing. -/
def enter (l : Ledger α) (q : Rack.Request α) : Option (Reply α) × List α → Ledger α
  | (none, lost) => { l with destroyed := l.destroyed ++ lost }
  | (some reply, lost) =>
    ⟨l.offered ++ q.offered, l.returned ++ q.returned reply, l.unread ++ reply.unread,
      l.destroyed ++ lost⟩

def enterAll (l : Ledger α) :
    List (Rack.Request α) → List (Option (Reply α) × List α) → Ledger α
  | q :: qs, answer :: answers => (l.enter q answer).enterAll qs answers
  | _, _ => l

/-- The ledger of a run from its requests and what it answered. -/
def ofRun (qs : List (Rack.Request α)) (answers : List (Option (Reply α) × List α)) : Ledger α :=
  ({} : Ledger α).enterAll qs answers

/-- Every value offered is held or entered, as often as it was offered. -/
structure Balances (l : Ledger α) (k : Rack (OptionCells α)) : Prop where
  sound : k.Sound
  perm : (k.held ++ l.returned ++ l.unread ++ l.destroyed).Perm l.offered

theorem Balances.post (h : l.Balances k) (hs : next.Sound) {offered handed unread lost : List α}
    (moved : (next.held ++ (handed ++ unread ++ lost)).Perm (k.held ++ offered)) :
    Balances ⟨l.offered ++ offered, l.returned ++ handed, l.unread ++ unread,
      l.destroyed ++ lost⟩ next := by
  refine ⟨hs, ?_⟩
  classical
  rw [List.perm_iff_count]
  intro x
  have hbefore := h.perm.count_eq x
  have hmoved := moved.count_eq x
  simp only [List.count_append] at hbefore hmoved ⊢
  omega

theorem Balances.step (h : l.Balances k) {q : Rack.Request α} (hq : q.Moving) :
    (l.enter q ((k.perform q).reply, (k.perform q).destroyed)).Balances (k.perform q).after := by
  have hp := performs k q
  generalize k.perform q = e at hp ⊢
  cases hp with
  | absent => exact ⟨h.sound, by simpa [enter] using h.perm⟩
  | @ring i r q found =>
    obtain ⟨after, reply, lost, he, hs, hmoved, _⟩ := (h.sound i r found).perform hq
    rw [he]
    refine h.post (h.sound.set (by simpa using hs)) (held_moved found ?_)
    simpa [heldBy] using hmoved
  | @pour i j source target apart giving taking =>
    obtain ⟨source', target', reply, lost, he, hsource, htarget, hmoved⟩ :=
      (h.sound i source giving).pour (h.sound j target taking)
    rw [he]
    refine h.post ((h.sound.set (by simpa using hsource)).set (by simpa using htarget)) ?_
    simp only [Rack.Request.offered, Rack.Request.returned, Reply.unread_ofUnit, List.append_nil]
    exact held_poured apart giving taking (by simpa only [List.append_assoc] using hmoved)
  | copy => exact absurd hq id
  | @drop i r found =>
    refine h.post (h.sound.set (by simp)) (held_moved found ?_)
    simp [heldBy, release, Cells.release]

theorem Balances.run (h : l.Balances k) {qs : List (Rack.Request α)} (hq : ∀ q ∈ qs, q.Moving) :
    (l.enterAll qs (k.run qs).2).Balances (k.run qs).1 := by
  induction qs generalizing l k with
  | nil => exact h
  | cons q qs ih =>
    rw [List.forall_mem_cons] at hq
    exact ih (h.step hq.1) hq.2

theorem balances_ofCapacities (capacities : List Nat) :
    ({} : Ledger α).Balances (ofCapacities capacities) :=
  ⟨sound_ofCapacities capacities, by simp [held_ofCapacities]⟩

theorem Balances.destroys (h : l.Balances k) {qs : List (Rack.Request α)}
    (hq : ∀ q ∈ qs, q.Moving) :
    ∀ q answer, (q, answer) ∈ qs.zip (k.run qs).2 → q.Destroys ∨ answer.2 = [] := by
  induction qs generalizing l k with
  | nil => simp
  | cons q qs ih =>
    rw [List.forall_mem_cons] at hq
    intro q' answer hmem
    rcases List.mem_cons.mp hmem with he | hmem
    · obtain ⟨rfl, rfl⟩ := Prod.mk.inj he
      exact h.sound.destroys hq.1
    · exact ih (h.step hq.1) hq.2 q' answer hmem

/-- A value is in a ring, with the caller, in a source, or gone. -/
inductive Place where
  | ring (number : Nat)
  | caller
  | source
  | gone

def found (l : Ledger α) (k : Rack (OptionCells α)) : Place → List α
  | .ring i => heldBy (k.ring? i)
  | .caller => l.returned
  | .source => l.unread
  | .gone => l.destroyed

/-- Every value offered is in one place and there once, and no others are there. -/
structure Accounts (l : Ledger α) (k : Rack (OptionCells α)) : Prop where
  one : ∀ v ∈ l.offered, ∃! p, v ∈ l.found k p
  once : ∀ p, (l.found k p).Nodup
  known : ∀ p, ∀ v ∈ l.found k p, v ∈ l.offered

/-- The caller has got some values before the request that hands them over is done. -/
def hand (l : Ledger α) (handed : List α) : Ledger α :=
  { l with returned := l.returned ++ handed }

theorem Balances.hand (h : l.Balances k) (hs : next.Sound)
    (moved : (next.held ++ handed).Perm k.held) : (l.hand handed).Balances next := by
  have hpost : Balances ⟨l.offered ++ [], l.returned ++ handed, l.unread ++ [],
      l.destroyed ++ []⟩ next := h.post hs (by simpa using moved)
  simpa [Ledger.hand] using hpost

theorem Balances.amid (h : l.Balances k) (ha : k.Amid next handed lost) :
    lost = [] ∧ (l.hand handed).Balances next := by
  cases ha with
  | @drain i r n found =>
    obtain ⟨last, t, he, hs, hmoved⟩ := (h.sound i r found).drainTrail n
    rw [he]
    refine ⟨rfl, h.hand (h.sound.set (by simpa using hs)) ?_⟩
    have hrack : ((k.set i (some last)).held ++ t.yields.reduceOption).Perm (k.held ++ []) :=
      held_moved found (by simpa [heldBy] using hmoved)
    simpa [Reply.ofTrail] using hrack
  | @pour i j source target n apart giving taking =>
    obtain ⟨source', target', reply, he, hsource, htarget, hmoved⟩ :=
      (h.sound i source giving).pourSteps (h.sound j target taking) n
    rw [he]
    exact ⟨rfl, h.hand ((h.sound.set (by simpa using hsource)).set (by simpa using htarget))
      (held_poured apart giving taking hmoved)⟩

theorem mem_held_iff {v : α} : v ∈ k.held ↔ ∃ i, v ∈ heldBy (k.ring? i) := by
  rw [Rack.held, List.mem_flatMap]
  constructor
  · rintro ⟨r, hr, hv⟩
    obtain ⟨i, hi⟩ := List.mem_iff_getElem?.mp hr
    exact ⟨i, by simpa [ring?, hi] using hv⟩
  · rintro ⟨i, hv⟩
    cases hr : k.ring? i with
    | none => simp [hr, heldBy] at hv
    | some r => exact ⟨some r, List.mem_of_getElem? (ring?_eq_some.mp hr), hr ▸ hv⟩

theorem number_unique {v : α} {i j : Nat} (h : k.held.Nodup) (hi : v ∈ heldBy (k.ring? i))
    (hj : v ∈ heldBy (k.ring? j)) : i = j := by
  have hfound : ∀ {i}, v ∈ heldBy (k.ring? i) →
      ∃ hlt : i < k.rings.length, v ∈ heldBy k.rings[i] := by
    intro i hi
    cases hr : k.ring? i with
    | none => simp [hr, heldBy] at hi
    | some r =>
      obtain ⟨hlt, he⟩ := List.getElem?_eq_some_iff.mp (ring?_eq_some.mp hr)
      exact ⟨hlt, by rwa [he, ← hr]⟩
  obtain ⟨hilt, hi⟩ := hfound hi
  obtain ⟨hjlt, hj⟩ := hfound hj
  have hapart := List.pairwise_iff_getElem.mp (List.nodup_flatMap.mp h).2
  rcases Nat.lt_trichotomy i j with hlt | he | hlt
  · exact absurd hj (hapart i j hilt hjlt hlt hi)
  · exact he
  · exact absurd hi (hapart j i hjlt hilt hlt hj)

theorem nodup_heldBy (h : k.held.Nodup) (i : Nat) : (heldBy (k.ring? i)).Nodup := by
  cases hr : k.ring? i with
  | none => exact List.nodup_nil
  | some r => exact (List.nodup_flatMap.mp h).1 _ (List.mem_of_getElem? (ring?_eq_some.mp hr))

/-- Where the books balance and nothing was offered twice, every value is in one place. -/
theorem Balances.accounts (h : l.Balances k) (hd : l.offered.Nodup) : l.Accounts k := by
  have hall := h.perm.nodup_iff.mpr hd
  have hmem : ∀ v, v ∈ l.offered ↔ ∃ p, v ∈ l.found k p := by
    intro v
    rw [← h.perm.mem_iff]
    simp only [List.mem_append, mem_held_iff]
    constructor
    · rintro (((⟨i, hv⟩ | hv) | hv) | hv)
      · exact ⟨.ring i, hv⟩
      · exact ⟨.caller, hv⟩
      · exact ⟨.source, hv⟩
      · exact ⟨.gone, hv⟩
    · rintro ⟨p, hv⟩
      cases p with
      | ring i => exact Or.inl (Or.inl (Or.inl ⟨i, hv⟩))
      | caller => exact Or.inl (Or.inl (Or.inr hv))
      | source => exact Or.inl (Or.inr hv)
      | gone => exact Or.inr hv
  simp only [List.nodup_append, List.mem_append] at hall
  obtain ⟨⟨⟨hheld, hreturned, h1⟩, hunread, h2⟩, hdestroyed, h3⟩ := hall
  have hring : ∀ {v i}, v ∈ heldBy (k.ring? i) → v ∈ k.held := fun hv => mem_held_iff.mpr ⟨_, hv⟩
  refine ⟨?_, ?_, fun p v hv => (hmem v).mpr ⟨p, hv⟩⟩
  · intro v hv
    obtain ⟨p, hp⟩ := (hmem v).mp hv
    refine ⟨p, hp, ?_⟩
    intro p' hp'
    cases p with
    | ring i =>
      cases p' with
      | ring j => exact congrArg Place.ring (number_unique hheld hp' hp)
      | _ => simp only [found] at hp hp'; grind
    | _ => cases p' <;> simp only [found] at hp hp' <;> grind
  · intro p
    cases p with
    | ring i => exact nodup_heldBy hheld i
    | caller => exact hreturned
    | source => exact hunread
    | gone => exact hdestroyed

/-- At each point every value offered so far is in one place: a ring, the caller's hands, its
source, or destroyed. Dropped rings hold none. -/
theorem values_in_one_place {capacities : List Nat} {qs : List (Rack.Request α)}
    {k : Rack (OptionCells α)} {answers : List (Option (Reply α) × List α)}
    (hr : (ofCapacities capacities).run qs = (k, answers)) (hq : ∀ q ∈ qs, q.Moving)
    (hd : (ofRun qs answers).offered.Nodup) :
    (ofRun qs answers).Accounts k ∧
      (∀ next handed lost, k.Amid next handed lost →
        lost = [] ∧ ((ofRun qs answers).hand handed).Accounts next) ∧
      (∀ q answer, (q, answer) ∈ qs.zip answers → q.Destroys ∨ answer.2 = []) ∧
      ((∀ i < capacities.length, .drop i ∈ qs) →
        ∀ i, (ofRun qs answers).found k (.ring i) = []) := by
  have hbalances := (balances_ofCapacities capacities).run hq
  have hdestroys := (balances_ofCapacities capacities).destroys hq
  rw [hr] at hbalances hdestroys
  refine ⟨hbalances.accounts hd, ?_, hdestroys, ?_⟩
  · intro next handed lost ha
    obtain ⟨hlost, hnext⟩ := hbalances.amid ha
    exact ⟨hlost, hnext.accounts hd⟩
  · intro hdrop i
    have hvacant : k.ring? i = none := by
      have hlast : ((ofCapacities capacities).run qs).1.ring? i = none := by
        apply vacant_run
        rcases Nat.lt_or_ge i capacities.length with hi | hi
        · exact Or.inr (hdrop i hi)
        · exact Or.inl (by simp [ring?, ofCapacities, hi])
      rwa [hr] at hlast
    simp [found, hvacant, heldBy]

/-- Of two rings the smaller takes what it can of the larger, twice, and both are dropped. -/
theorem values_in_one_place_after_pours :
    ∃ (qs : List (Rack.Request Nat)) (k : Rack (OptionCells Nat))
      (answers : List (Option (Reply Nat) × List Nat)),
      qs = [.ring 0 (.put 1), .ring 0 (.putAll [2, 3, 4]), .ring 0 .get, .pour 0 1,
        .ring 0 (.putAll [5, 6]), .ring 0 .peek, .pour 0 1, .ring 0 (.put 7), .ring 0 (.drain 0),
        .ring 0 (.putAll [8, 9]), .ring 0 (.drain 1), .drop 1, .drop 0] ∧
      (ofCapacities [2, 1]).run qs = (k, answers) ∧ (∀ q ∈ qs, q.Moving) ∧
      ofRun qs answers = ⟨[1, 2, 3, 4, 5, 6, 7, 8, 9], [3, 1, 5, 8], [4], [6, 7, 9, 2]⟩ ∧
      (ofRun qs answers).Accounts k ∧ ∀ i, (ofRun qs answers).found k (.ring i) = [] := by
  have h := @values_in_one_place Nat [2, 1] [.ring 0 (.put 1), .ring 0 (.putAll [2, 3, 4]),
    .ring 0 .get, .pour 0 1, .ring 0 (.putAll [5, 6]), .ring 0 .peek, .pour 0 1, .ring 0 (.put 7),
    .ring 0 (.drain 0), .ring 0 (.putAll [8, 9]), .ring 0 (.drain 1), .drop 1, .drop 0] _ _ rfl
    (by simp [Rack.Request.Moving, Ring.Request.Moving]) (by decide)
  exact ⟨_, _, _, rfl, rfl, by simp [Rack.Request.Moving, Ring.Request.Moving], rfl, h.1,
    h.2.2.2 (by decide)⟩

end Ledger

end BoundedBuffer.Ring
