import BoundedBuffer.Proofs.Cells.Held
import BoundedBuffer.Proofs.Ring.Occupancy
import BoundedBuffer.Ring.Rack
import Mathlib.Data.List.ReduceOption

namespace BoundedBuffer.Ring

variable {α : Type u} {r source target : Ring (OptionCells α)}

namespace Reply

@[simp]
def rejected : Reply α → List α
  | .fault (.full v) => [v]
  | .intake (some (.full v)) _ => [v]
  | _ => []

/-- The values that a bulk put never pulled from its source. -/
@[simp]
def unread : Reply α → List α
  | .intake _ vs => vs
  | _ => []

theorem unread_ofUnit (reply : Except (Fault α) Unit) : (ofUnit reply).unread = [] := by
  rcases reply with _ | ⟨⟩ <;> rfl

end Reply

namespace Request

/-- The values that the request offers to the ring. -/
@[simp]
def offered : Request α → List α
  | .put v => [v]
  | .putAll vs => vs
  | .putArray vs => vs.toList
  | _ => []

/-- The values that are the caller's after a request. A peek and a walk only lend theirs. -/
@[simp]
def returned : Request α → Reply α → List α
  | .get, .value v => [v]
  | .drain _, .trail t => t.yields.reduceOption
  | _, reply => reply.rejected

/-- A put of an array copies its values, and does not tell which it left. -/
def Moving : Request α → Prop
  | .putArray _ => False
  | _ => True

/-- A clear destroys values, and so does a drain when it ends. -/
def Destroys : Request α → Prop
  | .clear | .drain _ => True
  | _ => False

end Request

/-- The cells hold the values that the window tells of, and nothing else. -/
def Sound (r : Ring (OptionCells α)) : Prop :=
  ∃ b, r.Holds b ∧ r.Tidy

namespace Sound

theorem allocate {n : Nat} (hn : 0 < n) : (allocate (OptionCells α) n).Sound :=
  ⟨_, .allocate hn, tidy_allocate hn⟩

theorem put (h : r.Sound) (v : α) :
    r.put v = ⟨r, .error (.full v), []⟩ ∨
      ∃ next, r.put v = ⟨next, .ok (), []⟩ ∧ next.Sound ∧
        next.cells.held.Perm (r.cells.held ++ [v]) := by
  obtain ⟨b, hb, ht⟩ := h
  rcases Nat.lt_or_eq_of_le hb.fits with hroom | hfull
  · obtain ⟨hreply, hnext⟩ := hb.put hroom v
    have hlost := ht.put_destroyed hb v
    have hvacant : r.cells.read (r.window.index r.window.count) = .ok none := by
      refine ht.tail_vacant hb ?_
      rw [← Bool.not_eq_true, isFull, hb.isFull_iff]
      omega
    refine Or.inr ⟨(r.put v).after, by rw [← hreply, ← hlost], ⟨_, hnext, ht.put hb v⟩, ?_⟩
    rw [hb.put_eq hroom]
    exact OptionCells.held_write v hvacant
  · exact Or.inl (hb.put_full hfull v)

theorem get (h : r.Sound) :
    r.get = ⟨r, .error .empty, []⟩ ∨
      ∃ v next, r.get = ⟨next, .ok v, []⟩ ∧ next.Sound ∧
        (next.cells.held ++ [v]).Perm r.cells.held := by
  obtain ⟨b, hb, ht⟩ := h
  cases hv : b.values with
  | nil => exact Or.inl (hb.get_empty hv)
  | cons v vs =>
    obtain ⟨hreply, hnext⟩ := hb.get hv
    have hlost : r.get.destroyed = [] := by
      rw [hb.get_eq hv]
      exact OptionCells.take_destroyed r.cells r.window.head
    refine Or.inr ⟨v, r.get.after, by rw [← hreply, ← hlost], ⟨_, hnext, ht.get hb⟩, ?_⟩
    rw [hb.get_eq hv]
    exact OptionCells.held_take (hb.read_head hv)

theorem clear (h : r.Sound) :
    r.clear.after.Sound ∧ r.clear.after.cells.held = [] ∧ r.clear.destroyed = r.cells.held := by
  obtain ⟨b, hb, _⟩ := h
  exact ⟨⟨_, hb.clear, hb.tidy_clear⟩, OptionCells.held_ofLength _, rfl⟩

theorem drainNext (h : r.Sound) :
    r.drainNext = ⟨r, .ok none, []⟩ ∨
      ∃ v next, r.drainNext = ⟨next, .ok (some v), []⟩ ∧ next.Sound ∧
        (next.cells.held ++ [v]).Perm r.cells.held := by
  rcases h.get with hg | ⟨v, next, hg, hs, hp⟩
  · exact Or.inl (by simp [Ring.drainNext, hg])
  · exact Or.inr ⟨v, next, by simp [Ring.drainNext, hg], hs, hp⟩

theorem putAll (h : r.Sound) (vs : List α) :
    ∃ next reply, r.putAll vs = ⟨next, reply, []⟩ ∧ next.Sound ∧
      (next.cells.held ++ (Reply.ofIntake reply).rejected ++ (Reply.ofIntake reply).unread).Perm
        (r.cells.held ++ vs) := by
  induction vs generalizing r with
  | nil =>
    exact ⟨r, _, rfl, h, by simp [Reply.ofIntake]⟩
  | cons v vs ih =>
    rcases h.put v with hp | ⟨next, hp, hs, hheld⟩
    · exact ⟨r, (.error (.full v), vs), by simp [Ring.putAll, hp], h, by simp [Reply.ofIntake]⟩
    · obtain ⟨last, reply, he, hlast, hrest⟩ := ih hs
      refine ⟨last, reply, by simp [Ring.putAll, hp, he], hlast, hrest.trans ?_⟩
      simpa using hheld.append_right vs

/-- What a drain yields comes out of the cells. While it lasts it destroys nothing. -/
theorem drainTrail (h : r.Sound) (n : Nat) :
    ∃ next t, r.drainTrail n = ⟨next, .ok t, []⟩ ∧ next.Sound ∧
      (next.cells.held ++ t.yields.reduceOption).Perm r.cells.held := by
  induction n generalizing r with
  | zero => exact ⟨r, _, rfl, h, by simp [List.reduceOption]⟩
  | succ n ih =>
    rcases h.drainNext with hd | ⟨v, next, hd, hs, hheld⟩
    · obtain ⟨last, t, he, hlast, hrest⟩ := ih h
      refine ⟨last, .cons (.exact r.count) none t, ?_, hlast, hrest⟩
      simp [Ring.drainTrail, hd, he, Except.map]
    · obtain ⟨last, t, he, hlast, hrest⟩ := ih hs
      refine ⟨last, .cons (.exact r.count) (some v) t, ?_, hlast, ?_⟩
      · simp [Ring.drainTrail, hd, he, Except.map]
      · calc
          (last.cells.held ++ (some v :: t.yields).reduceOption).Perm
              (last.cells.held ++ (t.yields.reduceOption ++ [v])) := by
            rw [List.reduceOption_cons_of_some]
            exact (List.perm_append_singleton v _).symm.append_left _
          _ = last.cells.held ++ t.yields.reduceOption ++ [v] := (List.append_assoc ..).symm
          List.Perm _ (next.cells.held ++ [v]) := hrest.append_right [v]
          List.Perm _ r.cells.held := hheld

theorem pourSteps (hsource : source.Sound) (htarget : target.Sound) (n : Nat) :
    ∃ source' target' reply, source.pourSteps n target = ⟨(source', target'), reply, []⟩ ∧
      source'.Sound ∧ target'.Sound ∧
      (source'.cells.held ++ target'.cells.held ++ (Reply.ofUnit reply).rejected).Perm
        (source.cells.held ++ target.cells.held) := by
  induction n generalizing source target with
  | zero =>
    exact ⟨source, target, .ok (), rfl, hsource, htarget, by simp [Reply.ofUnit]⟩
  | succ n ih =>
    rcases hsource.drainNext with hd | ⟨v, next, hd, hs, hheld⟩
    · exact ⟨source, target, .ok (), by simp [Ring.pourSteps, hd], hsource, htarget,
        by simp [Reply.ofUnit]⟩
    · rcases htarget.put v with hp | ⟨fuller, hp, hf, hmore⟩
      · refine ⟨next, target, .error (.full v), by simp [Ring.pourSteps, hd, hp], hs, htarget, ?_⟩
        classical
        rw [List.perm_iff_count]
        intro x
        have hx := hheld.count_eq x
        simp only [Reply.ofUnit, Reply.rejected, List.count_append] at hx ⊢
        omega
      · obtain ⟨source', target', reply, he, h1, h2, hrest⟩ := ih hs hf
        refine ⟨source', target', reply, by simp [Ring.pourSteps, hd, hp, he], h1, h2,
          hrest.trans ?_⟩
        classical
        rw [List.perm_iff_count]
        intro x
        have hx := hheld.count_eq x
        have hy := hmore.count_eq x
        simp only [List.count_append] at hx hy ⊢
        omega

/-- A request moves values and copies none. Only a clear and the end of a drain destroy any. -/
theorem perform (h : r.Sound) {q : Request α} (hq : q.Moving) :
    ∃ next reply lost, r.perform q = ⟨next, reply, lost⟩ ∧ next.Sound ∧
      (next.cells.held ++ q.returned reply ++ reply.unread ++ lost).Perm
        (r.cells.held ++ q.offered) ∧ (q.Destroys ∨ lost = []) := by
  have ⟨b, hb, _⟩ := h
  cases q with
  | put v =>
    rcases h.put v with hp | ⟨next, hp, hs, hheld⟩
    · exact ⟨r, .fault (.full v), [], by simp [Ring.perform, hp, Reply.ofUnit], h, by simp,
        Or.inr rfl⟩
    · exact ⟨next, .done, [], by simp [Ring.perform, hp, Reply.ofUnit], hs, by simpa using hheld,
        Or.inr rfl⟩
  | get =>
    rcases h.get with hg | ⟨v, next, hg, hs, hheld⟩
    · exact ⟨r, .fault .empty, [], by simp [Ring.perform, hg, Reply.ofValue], h, by simp,
        Or.inr rfl⟩
    · exact ⟨next, .value v, [], by simp [Ring.perform, hg, Reply.ofValue], hs,
        by simpa using hheld, Or.inr rfl⟩
  | peek =>
    cases hv : b.values with
    | nil =>
      exact ⟨r, .fault .empty, [], by simp [Ring.perform, hb.peek_empty hv, Reply.ofValue], h,
        by simp, Or.inr rfl⟩
    | cons v vs =>
      exact ⟨r, .value v, [], by simp [Ring.perform, hb.peek hv, Reply.ofValue], h, by simp,
        Or.inr rfl⟩
  | putAll vs =>
    obtain ⟨next, reply, he, hs, hheld⟩ := h.putAll vs
    exact ⟨next, .ofIntake reply, [], by simp [Ring.perform, he], hs, by simpa using hheld,
      Or.inr rfl⟩
  | putArray vs => exact absurd hq id
  | clear =>
    obtain ⟨hs, hnone, hlost⟩ := h.clear
    exact ⟨r.clear.after, .done, r.clear.destroyed, rfl, hs, by simp [hnone, hlost],
      Or.inl trivial⟩
  | walk n =>
    exact ⟨r, .trail (BoundedList.trail b.values n), [],
      by simp [Ring.perform, hb.walk, Reply.ofTrail], h, by simp, Or.inr rfl⟩
  | values =>
    exact ⟨r, .values b.values, [], by simp [Ring.perform, hb.values, Reply.ofValues], h, by simp,
      Or.inr rfl⟩
  | drain n =>
    obtain ⟨next, t, he, hs, hheld⟩ := h.drainTrail n
    obtain ⟨hlast, hnone, hlost⟩ := hs.clear
    refine ⟨next.clear.after, .trail t, next.clear.destroyed,
      by simp [Ring.perform, Ring.drain, he, Reply.ofTrail], hlast, ?_, Or.inl trivial⟩
    simpa [hnone, hlost] using List.perm_append_comm.trans hheld

theorem pour (hsource : source.Sound) (htarget : target.Sound) :
    ∃ source' target' reply lost, source.pour target = ⟨(source', target'), reply, lost⟩ ∧
      source'.Sound ∧ target'.Sound ∧
      (source'.cells.held ++ target'.cells.held ++ (Reply.ofUnit reply).rejected ++ lost).Perm
        (source.cells.held ++ target.cells.held) := by
  obtain ⟨source', target', reply, he, hgiven, htaken, hheld⟩ :=
    hsource.pourSteps htarget source.count
  obtain ⟨hlast, hnone, hlost⟩ := hgiven.clear
  refine ⟨source'.clear.after, target', reply, source'.clear.destroyed, by simp [Ring.pour, he],
    hlast, htaken, ?_⟩
  rw [hnone, hlost]
  exact List.perm_append_comm.trans (by simpa using hheld)

end Sound

end BoundedBuffer.Ring
