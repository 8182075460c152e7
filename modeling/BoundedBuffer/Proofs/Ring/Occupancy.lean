import BoundedBuffer.Proofs.Ring.Refinement

namespace BoundedBuffer.Ring

section

variable {σ : Type u} {α : Type v} [Cells σ α] {r : Ring σ}

/-- What a ring of this capacity can come to be, also amid a drain or a bulk put. -/
inductive Reachable (n : Nat) : Ring σ → Prop
  | made {r : Ring σ} (made : ofCapacity σ n = .ok r) : Reachable n r
  | performed {r : Ring σ} (q : Request α) : Reachable n r → Reachable n (r.perform q).after
  | drawn {r : Ring σ} : Reachable n r → Reachable n r.drainNext.after

theorem putAll_keeps {P : Ring σ → Prop} (put : ∀ r v, P r → P (Ring.put r v).after) (h : P r)
    (vs : List α) : P (r.putAll vs).after := by
  induction vs generalizing r with
  | nil => exact h
  | cons v vs ih =>
    have hnext := put r v h
    unfold putAll
    split
    · rename_i hp
      rw [hp] at hnext
      exact ih hnext
    · rename_i hp
      rwa [hp] at hnext

theorem drainTrail_keeps {P : Ring σ → Prop} (get : ∀ r, P r → P (Ring.get r).after) (h : P r)
    (n : Nat) : P (r.drainTrail n).after := by
  induction n generalizing r with
  | zero => exact h
  | succ n ih =>
    have hnext := get r h
    rw [← drainNext_after] at hnext
    unfold drainTrail
    split
    · rename_i hd
      rw [hd] at hnext
      exact ih hnext
    · rename_i hd
      rwa [hd] at hnext

/-- Every request is made up of puts, gets and clears, so it keeps what they keep. -/
theorem perform_keeps {P : Ring σ → Prop} (put : ∀ r v, P r → P (Ring.put r v).after)
    (get : ∀ r, P r → P (Ring.get r).after) (clear : ∀ r, P r → P (Ring.clear r).after)
    (h : P r) (q : Request α) : P (r.perform q).after := by
  cases q with
  | put v => exact put r v h
  | get => exact get r h
  | putAll vs => exact putAll_keeps put h vs
  | putArray vs => exact putAll_keeps put h vs.toList
  | clear => exact clear r h
  | drain n => exact clear _ (drainTrail_keeps get h n)
  | _ => exact h

theorem Reachable.keeps {n : Nat} {P : Ring σ → Prop} (made : 0 < n → P (allocate σ n))
    (put : ∀ r v, P r → P (Ring.put r v).after) (get : ∀ r, P r → P (Ring.get r).after)
    (clear : ∀ r, P r → P (Ring.clear r).after) (h : Reachable n r) : P r := by
  induction h with
  | made hr =>
    unfold ofCapacity at hr
    split at hr
    · cases hr
    · rename_i hn
      cases hr
      exact made (Nat.pos_of_ne_zero hn)
  | performed q _ ih => exact perform_keeps put get clear ih q
  | drawn _ ih =>
    rw [drainNext_after]
    exact get _ ih

/-- A ring that was made and used holds values in their order. -/
theorem Reachable.holds [LawfulCells σ] {n : Nat} (h : Reachable n r) :
    ∃ xs, r.Holds ⟨n, xs⟩ := by
  have hperform : ∀ (q : Request α) (s : Ring σ), (∃ xs, s.Holds ⟨n, xs⟩) →
      ∃ xs, (s.perform q).after.Holds ⟨n, xs⟩ := by
    intro q s ⟨xs, hs⟩
    have hnext := (hs.perform q).2
    have hcapacity := BoundedList.capacity_perform ⟨n, xs⟩ q
    generalize BoundedList.perform ⟨n, xs⟩ q = reached at hnext hcapacity
    subst hcapacity
    exact ⟨_, hnext⟩
  refine Reachable.keeps (P := fun r => ∃ xs, r.Holds ⟨n, xs⟩) ?_ ?_ ?_ ?_ h
  · intro hn
    exact ⟨[], .allocate hn⟩
  · exact fun r v => hperform (.put v) r
  · exact hperform .get
  · exact hperform .clear

end

variable {α : Type u} {r : Ring (OptionCells α)} {b : BoundedList α} {n : Nat}

/-- No cell but those of the values holds anything. -/
def Tidy (r : Ring (OptionCells α)) : Prop :=
  ∀ k, r.window.count ≤ k → k < r.window.capacity → r.cells.read (r.window.index k) = .ok none

theorem Holds.size (h : r.Holds b) : r.cells.cells.size = r.window.capacity :=
  h.length.trans h.capacity.symm

theorem tidy_allocate (hn : 0 < n) : (allocate (OptionCells α) n).Tidy := by
  intro k (_ : 0 ≤ k) (hk : k < n)
  exact OptionCells.read_ofLength (Window.index_lt hn (Nat.le_of_lt hk))

theorem Tidy.put (ht : r.Tidy) (h : r.Holds b) (v : α) : (r.put v).after.Tidy := by
  rcases Nat.lt_or_eq_of_le h.fits with hroom | hfull
  · rw [h.put_eq hroom]
    intro k hk hlt
    simp only [Window.grow_count, Window.grow_capacity] at hk hlt
    have hne : r.window.index r.window.count ≠ r.window.index k := by
      intro he
      have hsame := Window.index_injective (by omega) hlt he
      omega
    exact (LawfulCells.read_write_ne r.cells v hne).trans (ht k (by omega) hlt)
  · rwa [h.put_full hfull]

theorem Tidy.get (ht : r.Tidy) (h : r.Holds b) : r.get.after.Tidy := by
  obtain ⟨capacity, _ | ⟨x, xs⟩⟩ := b
  · rwa [h.get_empty rfl]
  · rw [h.get_eq rfl]
    intro k hk hlt
    simp only [Window.shrink_count, Window.shrink_capacity] at hk hlt
    dsimp only
    rw [Window.index_shrink h.head_lt hlt]
    by_cases hlast : k + 1 = r.window.capacity
    · have hback : r.window.index (k + 1) = r.window.head := by
        simp [Window.index, hlast]
      rw [hback]
      exact OptionCells.read_take_self (h.size ▸ h.head_lt)
    · have hne := Window.head_ne_index (w := r.window) (k := k) (by omega)
      exact (LawfulCells.read_take_ne r.cells hne).trans (ht (k + 1) (by omega) (by omega))

theorem Tidy.tail_vacant (ht : r.Tidy) (h : r.Holds b) (hr : r.isFull = false) :
    r.cells.read (r.window.index r.count) = .ok none := by
  have hne : r.window.count ≠ r.window.capacity := by
    rw [← Bool.not_eq_true, isFull, Window.isFull_iff] at hr
    exact hr
  have hfits := h.fits
  rw [← h.count, ← h.capacity] at hfits
  exact ht r.window.count (Nat.le_refl _) (Nat.lt_of_le_of_ne hfits hne)

theorem Tidy.put_destroyed (ht : r.Tidy) (h : r.Holds b) (v : α) : (r.put v).destroyed = [] := by
  rcases Nat.lt_or_eq_of_le h.fits with hroom | hfull
  · have hr : r.isFull = false := by
      rw [← Bool.not_eq_true, isFull, h.isFull_iff]
      omega
    rw [h.put_eq hroom]
    exact OptionCells.write_destroyed v (ht.tail_vacant h hr)
  · rw [h.put_full hfull]

theorem Holds.tidy_clear (h : r.Holds b) : r.clear.after.Tidy := by
  intro k _ hk
  have hlt : r.window.clear.index k < r.cells.cells.size := by
    rw [h.size]
    exact Window.index_lt (Nat.zero_lt_of_lt h.head_lt) (Nat.le_of_lt hk)
  exact OptionCells.read_ofLength hlt

theorem Reachable.tidy (h : Reachable n r) : ∃ b, b.capacity = n ∧ r.Holds b ∧ r.Tidy := by
  refine Reachable.keeps (P := fun r => ∃ b, b.capacity = n ∧ r.Holds b ∧ r.Tidy) ?_ ?_ ?_ ?_ h
  · intro hn
    exact ⟨_, rfl, .allocate hn, tidy_allocate hn⟩
  · rintro r v ⟨b, hb, h, ht⟩
    exact ⟨_, (b.capacity_perform _).trans hb, (h.perform (.put v)).2, ht.put h v⟩
  · rintro r ⟨b, hb, h, ht⟩
    exact ⟨_, (b.capacity_perform _).trans hb, (h.perform .get).2, ht.get h⟩
  · rintro r ⟨b, hb, h, _⟩
    exact ⟨_, (b.capacity_perform _).trans hb, (h.perform .clear).2, h.tidy_clear⟩

/-- The cells are as many as the capacity says, and they hold values just where the window says. -/
structure Exact (n : Nat) (r : Ring (OptionCells α)) : Prop where
  size : r.cells.cells.size = n
  capacity : r.capacity = n
  head : r.window.head < n
  count : r.count ≤ n
  live : ∀ i (hi : i < r.cells.cells.size),
    r.cells.cells[i].isSome = true ↔ ∃ k < r.count, i = (r.window.head + k) % n

theorem Holds.exact (h : r.Holds b) (ht : r.Tidy) : r.Exact b.capacity where
  size := h.length
  capacity := h.capacity
  head := h.head
  count := h.count_eq ▸ h.fits
  live i hi := by
    have hhead := h.head_lt
    have hcapacity := h.capacity
    have hlt : i < r.window.capacity := by
      rw [h.capacity, ← h.length]
      exact hi
    have hfits := h.fits
    have hmod : ∀ k ≤ r.window.capacity, (r.window.head + k) % b.capacity = r.window.index k :=
      fun k hk => h.capacity ▸ (Window.index_eq_mod hhead hk).symm
    obtain ⟨k, hk, rfl⟩ := Window.index_surjective hhead hlt
    have hread : r.cells.read (r.window.index k) = .ok r.cells.cells[r.window.index k] :=
      OptionCells.read_of_lt hi
    by_cases hlive : k < b.values.length
    · have hsome := hread.symm.trans (h.live k hlive)
      rw [Except.ok.inj hsome]
      simp only [Option.isSome_some, true_iff]
      exact ⟨k, h.count_eq ▸ hlive, (hmod k (by omega)).symm⟩
    · have hnone := hread.symm.trans (ht k (by rw [h.count]; omega) hk)
      rw [Except.ok.inj hnone]
      simp only [Option.isSome_none, Bool.false_eq_true, false_iff]
      rintro ⟨j, hj, he⟩
      rw [h.count_eq] at hj
      rw [hmod j (by omega)] at he
      have hsame := Window.index_injective hk (by omega) he
      omega

/-- The ring is full or empty, and no more is wrong with it. -/
def Fault.Usual : Fault α → Prop
  | .full _ | .empty => True
  | .outOfRange _ | .vacant _ => False

def Reply.fault? : Reply α → Option (Fault α)
  | .fault f => some f
  | .intake f _ => f
  | _ => none

theorem usual_of_list {q : Request α} {f : Fault α} (h : (b.perform q).2.fault? = some f) :
    f.Usual := by
  cases q with
  | put v =>
    simp only [BoundedList.perform] at h
    split at h <;> cases h
    trivial
  | get =>
    simp only [BoundedList.perform] at h
    split at h <;> cases h
    trivial
  | peek =>
    simp only [BoundedList.perform] at h
    split at h <;> cases h
    trivial
  | putAll vs =>
    obtain ⟨v, _, rfl⟩ := Option.map_eq_some_iff.mp h
    trivial
  | putArray vs =>
    simp only [BoundedList.perform] at h
    split at h <;> cases h
    trivial
  | _ => cases h

theorem Holds.usual (h : r.Holds b) {q : Request α} {f : Fault α}
    (hf : (r.perform q).reply.fault? = some f) : f.Usual :=
  usual_of_list ((h.perform q).1 ▸ hf)

/-- The cells of a ring hold values just where its window says, so no request and no step comes upon
a wrong cell. -/
theorem cells_match_window {α : Type u} {n : Nat} {r : Ring (OptionCells α)} (h : Reachable n r) :
    r.Exact n ∧
      (∀ q f, (r.perform q).reply.fault? = some f → f.Usual) ∧
      (∃ v, r.drainNext.reply = .ok v) ∧
      (∀ k < r.count, ∃ v, Walk.next ⟨r, k⟩ = .ok (some v, ⟨r, k + 1⟩)) ∧
      (r.isFull = false → r.cells.read (r.window.index r.count) = .ok none) ∧
      ∀ v, (r.put v).destroyed = [] := by
  obtain ⟨b, rfl, hb, ht⟩ := h.tidy
  refine ⟨hb.exact ht, fun _ _ => hb.usual, ?_, ?_, ht.tail_vacant hb, ht.put_destroyed hb⟩
  · cases hv : b.values with
    | nil => exact ⟨none, by rw [hb.drainNext_empty hv]⟩
    | cons x xs => exact ⟨some x, (hb.drainNext hv).1⟩
  · intro k hk
    exact ⟨_, hb.next (hb.count_eq ▸ hk)⟩

/-- A drain has begun on a ring that goes round its end. -/
theorem cells_match_window_amid_drain :
    ∃ r : Ring (OptionCells Nat), Reachable 3 r ∧
      r.cells.cells = #[some 4, none, some 3] ∧ r.window = ⟨3, 2, 2⟩ ∧ r.Exact 3 :=
  have h : Reachable 3 _ := .drawn (.performed (.put 4) (.performed .get
    (.performed (.putAll [1, 2, 3]) (.made (σ := OptionCells Nat) rfl))))
  ⟨_, h, rfl, rfl, (cells_match_window h).1⟩

end BoundedBuffer.Ring
