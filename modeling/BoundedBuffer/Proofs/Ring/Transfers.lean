import BoundedBuffer.Proofs.Ring.Clearance
import BoundedBuffer.Proofs.Ring.Intake
import BoundedBuffer.Proofs.Ring.Racks

namespace BoundedBuffer.Ring

section

variable {σ : Type u} {α : Type v} [Cells σ α] {k : Rack σ} {i j n m : Nat}
  {source target : Ring σ} {given taken : BoundedList α}

namespace Rack

/-- Two different rings of a rack, made and used in whatever way. -/
structure Pair (k : Rack σ) (i j n m : Nat) (source target : Ring σ) : Prop where
  apart : i ≠ j
  giving : k.ring? i = some source
  taking : k.ring? j = some target
  source : Reachable n source
  target : Reachable m target

/-- What a drain into ring `j` and copies to it come to. They answer alike and leave it alike; the
drain empties ring `i` and destroys `lost`. -/
structure Brings (k : Rack σ) (i j : Nat) (given taken : BoundedList α) (emptied filled : Ring σ)
    (reply : Reply α) (lost : List α) : Prop where
  pour : k.perform (.pour i j) =
    ⟨(k.set i (some emptied)).set j (some filled), some reply, lost⟩
  copy : k.perform (.copy i j) = ⟨k.set j (some filled), some reply, []⟩
  kept : (k.perform (.copy i j)).after.ring? i = k.ring? i
  gone : emptied.Holds { given with values := [] }
  window : emptied.window = ⟨given.capacity, 0, 0⟩
  came : filled.Holds { taken with values := taken.values ++ given.values.take taken.room }
  whole : given.values.length ≤ taken.room → reply = .done
  cut : ∀ h : taken.room < given.values.length, reply = .fault (.full given.values[taken.room])

theorem perform_pour (apart : i ≠ j) (giving : k.ring? i = some source)
    (taking : k.ring? j = some target) :
    k.perform (.pour i j) =
      ⟨(k.set i (some (source.pour target).after.1)).set j (some (source.pour target).after.2),
        some (.ofUnit (source.pour target).reply), (source.pour target).destroyed⟩ := by
  simp [perform, take_eq, giving, ring?_set_ne apart, taking, set_comm _ (Ne.symm apart)]

theorem perform_copy (apart : i ≠ j) (giving : k.ring? i = some source)
    (taking : k.ring? j = some target) :
    k.perform (.copy i j) =
      ⟨k.set j (some (source.copy target).after), some (.ofUnit (source.copy target).reply),
        (source.copy target).destroyed⟩ := by
  simp [perform, take_eq, taking, ring?_set_ne (Ne.symm apart), giving]

end Rack

theorem Reachable.pourSteps (hs : Reachable n source) (ht : Reachable m target) (steps : Nat) :
    Reachable n (source.pourSteps steps target).after.1 ∧
      Reachable m (source.pourSteps steps target).after.2 := by
  induction steps generalizing source target with
  | zero => exact ⟨hs, ht⟩
  | succ steps ih =>
    have hnext := hs.drawn
    rcases hd : source.drainNext with ⟨next, _ | _ | v, lost⟩
    all_goals rw [hd] at hnext
    · simpa only [Ring.pourSteps, hd] using ⟨hnext, ht⟩
    · simpa only [Ring.pourSteps, hd] using ⟨hnext, ht⟩
    · have hput : Reachable m (target.put v).after := ht.performed (.put v)
      rcases hp : target.put v with ⟨fuller, _ | _, more⟩
      all_goals rw [hp] at hput
      · simpa only [Ring.pourSteps, hd, hp] using ⟨hnext, hput⟩
      · simpa only [Ring.pourSteps, hd, hp] using ih hnext hput

theorem Reachable.copy (hs : Reachable m target) (source : Ring σ) :
    Reachable m (source.copy target).after := by
  unfold Ring.copy
  split
  · exact hs.performed (.putAll _)
  · exact hs

namespace Rack

variable {sizes : Nat → Nat}

/-- Each ring was made with the size for its number and used in whatever way. -/
def Stocked (sizes : Nat → Nat) (k : Rack σ) : Prop :=
  ∀ i r, k.ring? i = some r → Reachable (sizes i) r

theorem Stocked.set {new : Option (Ring σ)} (h : k.Stocked sizes)
    (hnew : ∀ r, new = some r → Reachable (sizes i) r) : (k.set i new).Stocked sizes := by
  intro j r hr
  rcases ring?_set_cases hr with ⟨rfl, he⟩ | hr
  · exact hnew r he
  · exact h j r hr

theorem Stocked.perform (h : k.Stocked sizes) (q : Request α) :
    (k.perform q).after.Stocked sizes := by
  have hp := performs k q
  generalize k.perform q = e at hp ⊢
  cases hp with
  | absent => exact h
  | ring q found => exact h.set fun _ he => Option.some.inj he ▸ (h _ _ found).performed q
  | @pour _ _ source _ _ giving taking =>
    obtain ⟨hsource, htarget⟩ := (h _ _ giving).pourSteps (h _ _ taking) source.count
    exact (h.set fun _ he => Option.some.inj he ▸ hsource.performed .clear).set
      fun _ he => Option.some.inj he ▸ htarget
  | copy _ _ taking => exact h.set fun _ he => Option.some.inj he ▸ (h _ _ taking).copy _
  | drop => exact h.set fun _ he => by cases he

theorem Stocked.run (h : k.Stocked sizes) (qs : List (Request α)) :
    (k.run qs).1.Stocked sizes := by
  induction qs generalizing k with
  | nil => exact h
  | cons q qs ih => exact ih (h.perform q)

/-- Whatever a rack has gone through, transfers included, two of its rings are ready for one more.
-/
theorem pair_of_run (h : k.Stocked sizes) (qs : List (Request α)) (apart : i ≠ j)
    (giving : (k.run qs).1.ring? i = some source) (taking : (k.run qs).1.ring? j = some target) :
    (k.run qs).1.Pair i j (sizes i) (sizes j) source target :=
  ⟨apart, giving, taking, h.run qs i source giving, h.run qs j target taking⟩

end Rack

variable [LawfulCells σ]

/-- A transfer is a bulk put of the source's values, of which the unread stay there. -/
theorem Holds.pourSteps (h : source.Holds given) (target : Ring σ)
    (hn : given.values.length ≤ n) :
    (source.pourSteps n target).after.2 = (target.putAll given.values).after ∧
      (source.pourSteps n target).reply = (target.putAll given.values).reply.1 ∧
      (source.pourSteps n target).after.1.Holds
        { given with values := (target.putAll given.values).reply.2 } := by
  induction n generalizing source target given with
  | zero =>
    -- there is a step for each value, so the steps run out on none
    obtain ⟨capacity, xs⟩ := given
    cases List.length_eq_zero_iff.mp (Nat.le_zero.mp hn)
    exact ⟨rfl, rfl, h⟩
  | succ n ih =>
    obtain ⟨capacity, _ | ⟨x, xs⟩⟩ := given
    · simp only [Ring.pourSteps, h.drainNext_empty rfl]
      exact ⟨rfl, rfl, h⟩
    · obtain ⟨hx, hnext⟩ := h.drainNext rfl
      rcases hd : source.drainNext with ⟨next, reply, lost⟩
      rw [hd] at hx hnext
      dsimp only at hx
      subst hx
      rcases hp : target.put x with ⟨fuller, _ | _, more⟩
      · simp only [Ring.pourSteps, Ring.putAll, hd, hp]
        exact ⟨trivial, trivial, hnext⟩
      · simp only [Ring.pourSteps, Ring.putAll, hd, hp]
        exact ih hnext fuller (Nat.le_of_succ_le_succ hn)

theorem Holds.pour (hs : source.Holds given) (target : Ring σ) :
    (source.pour target).after.2 = (target.putAll given.values).after ∧
      (source.pour target).reply = (target.putAll given.values).reply.1 ∧
      (source.pour target).after.1.Holds { given with values := [] } := by
  obtain ⟨hafter, hreply, hleft⟩ := hs.pourSteps target (Nat.le_of_eq hs.count_eq.symm)
  exact ⟨hafter, hreply, hleft.clear⟩

theorem Rack.Pair.brings (h : k.Pair i j n m source target) (hs : source.Holds given)
    (ht : target.Holds taken) (hd : (target.putAll given.values).destroyed = []) :
    k.Brings i j given taken (source.pour target).after.1 (source.pour target).after.2
      (.ofUnit (source.pour target).reply) (source.pour target).destroyed where
  pour := perform_pour h.apart h.giving h.taking
  copy := by
    obtain ⟨hafter, hreply, _⟩ := hs.pour target
    rw [perform_copy h.apart h.giving h.taking]
    simp only [Ring.copy, hs.values, hafter, hreply, hd]
  kept := by
    rw [perform_copy h.apart h.giving h.taking]
    exact ring?_set_ne (Ne.symm h.apart) _
  gone := (hs.pour target).2.2
  window := congrArg (fun c => (⟨c, 0, 0⟩ : Window)) (hs.pour target).2.2.capacity
  came := by
    rw [(hs.pour target).1]
    exact (ht.putAll given.values).2
  whole hle := by
    rw [(hs.pour target).2.1, ht.putAll_reply, List.getElem?_eq_none hle]
    rfl
  cut hlt := by
    rw [(hs.pour target).2.1, ht.putAll_reply, List.getElem?_eq_getElem hlt]
    rfl

end

section

variable {α : Type u} {source target : Ring (OptionCells α)} {given : BoundedList α}

theorem Holds.pour_destroyed (hs : source.Holds given) (hsource : source.Sound)
    (htarget : target.Sound) :
    (source.pour target).destroyed.Perm (target.putAll given.values).reply.2 := by
  obtain ⟨_, _, hleft⟩ := hs.pourSteps target (Nat.le_of_eq hs.count_eq.symm)
  obtain ⟨source', target', reply, he, ⟨_, _, htidy⟩, _⟩ := hsource.pourSteps htarget source.count
  rw [he] at hleft
  have hlost := hleft.release htidy
  have hd : (source.pour target).destroyed = source'.release := by
    simp only [Ring.pour, he]
    rfl
  rw [hd, hlost]
  exact byCell_perm ..

end

theorem get_destroyed (r : Ring ByteCells) : r.get.destroyed = [] := by
  obtain ⟨cells, w⟩ := r
  simp only [Ring.get, Cells.take]
  split
  · rfl
  · split <;> simp_all

theorem drainNext_destroyed (r : Ring ByteCells) : r.drainNext.destroyed = [] := by
  have hget := get_destroyed r
  unfold drainNext
  split <;> simp_all

theorem pourSteps_destroyed (n : Nat) (source target : Ring ByteCells) :
    (source.pourSteps n target).destroyed = [] := by
  induction n generalizing source target with
  | zero => rfl
  | succ n ih =>
    have hnext := drainNext_destroyed source
    rcases hd : source.drainNext with ⟨next, _ | _ | v, lost⟩
    · simp_all [Ring.pourSteps]
    · simp_all [Ring.pourSteps]
    · have hput := put_destroyed target v
      rcases hp : target.put v with ⟨fuller, _ | _, more⟩ <;> simp_all [Ring.pourSteps]

theorem pour_destroyed (source target : Ring ByteCells) : (source.pour target).destroyed = [] := by
  simp only [Ring.pour, pourSteps_destroyed]
  rfl

/-- By a drain or by copies, ring `j` takes in what it has room for. Only the drain empties ring
`i` and destroys the rest. -/
theorem pour_and_copy_agree {α : Type u} {i j n m : Nat} :
    (∀ (k : Rack (OptionCells α)) source target, k.Pair i j n m source target →
      ∃ xs ys emptied filled reply lost, source.Holds ⟨n, xs⟩ ∧ target.Holds ⟨m, ys⟩ ∧
        k.Brings i j ⟨n, xs⟩ ⟨m, ys⟩ emptied filled reply lost ∧
        lost.Perm (xs.drop (m - ys.length + 1))) ∧
    ∀ (k : Rack ByteCells) source target, k.Pair i j n m source target →
      ∃ xs ys emptied filled reply, source.Holds ⟨n, xs⟩ ∧ target.Holds ⟨m, ys⟩ ∧
        k.Brings i j ⟨n, xs⟩ ⟨m, ys⟩ emptied filled reply [] := by
  refine ⟨?_, ?_⟩
  · intro k source target h
    obtain ⟨⟨_, xs⟩, rfl, hs, hstidy⟩ := h.source.tidy
    obtain ⟨⟨_, ys⟩, rfl, ht, httidy⟩ := h.target.tidy
    obtain ⟨next, reply, hp, _⟩ := Sound.putAll ⟨_, ht, httidy⟩ xs
    have hlost := hs.pour_destroyed ⟨_, hs, hstidy⟩ ⟨_, ht, httidy⟩
    rw [ht.putAll_reply] at hlost
    exact ⟨xs, ys, _, _, _, _, hs, ht, h.brings hs ht (by rw [hp]), hlost⟩
  · intro k source target h
    obtain ⟨xs, hs⟩ := h.source.holds
    obtain ⟨ys, ht⟩ := h.target.holds
    have hb := h.brings hs ht (putAll_destroyed target xs)
    rw [pour_destroyed] at hb
    exact ⟨xs, ys, _, _, _, hs, ht, hb⟩

/-- Of three values the smaller ring takes one, which goes round its end; a ring of bytes takes all
there is. -/
theorem pour_and_copy_agree_round_the_end :
    (∃ (k : Rack (OptionCells Nat)) (source target emptied filled : Ring (OptionCells Nat)),
      k.Pair 0 1 3 2 source target ∧ source.window = ⟨3, 2, 3⟩ ∧ target.window = ⟨2, 1, 1⟩ ∧
        k.Brings 0 1 ⟨3, [3, 4, 5]⟩ ⟨2, [9]⟩ emptied filled (.fault (.full 4)) [5]) ∧
    ∃ (k : Rack ByteCells) (source target emptied filled : Ring ByteCells),
      k.Pair 0 1 3 2 source target ∧ source.window = ⟨3, 2, 1⟩ ∧ target.window = ⟨2, 1, 1⟩ ∧
        k.Brings 0 1 ⟨3, [3]⟩ ⟨2, [9]⟩ emptied filled .done [] := by
  refine ⟨?_, ?_⟩
  · have hs : Reachable 3 _ := .performed (.putAll [4, 5]) (.performed .get (.performed .get
      (.performed (.putAll [1, 2, 3]) (.made (σ := OptionCells Nat) rfl))))
    have ht : Reachable 2 _ := .performed .get (.performed (.putAll [8, 9])
      (.made (σ := OptionCells Nat) rfl))
    have hpair : Rack.Pair ⟨[some _, some _]⟩ 0 1 3 2 _ _ := ⟨by decide, rfl, rfl, hs, ht⟩
    obtain ⟨xs, ys, emptied, filled, reply, lost, hx, hy, hb, hlost⟩ :=
      pour_and_copy_agree.1 _ _ _ hpair
    cases hx.values
    cases hy.values
    cases hb.cut (by decide)
    cases List.perm_singleton.mp hlost
    exact ⟨_, _, _, emptied, filled, hpair, rfl, rfl, hb⟩
  · have hs : Reachable 3 _ := .performed .get (.performed .get
      (.performed (.putAll [1, 2, 3]) (.made (σ := ByteCells) rfl)))
    have ht : Reachable 2 _ := .performed .get (.performed (.putAll [8, 9])
      (.made (σ := ByteCells) rfl))
    have hpair : Rack.Pair ⟨[some _, some _]⟩ 0 1 3 2 _ _ := ⟨by decide, rfl, rfl, hs, ht⟩
    obtain ⟨xs, ys, emptied, filled, reply, hx, hy, hb⟩ :=
      (pour_and_copy_agree (α := Nat)).2 _ _ _ hpair
    cases hx.values
    cases hy.values
    cases hb.whole (by decide)
    exact ⟨_, _, _, emptied, filled, hpair, rfl, rfl, hb⟩

end BoundedBuffer.Ring
