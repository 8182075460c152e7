import BoundedBuffer.Proofs.Ring.Occupancy
import BoundedBuffer.Ring.WordRing

namespace BoundedBuffer

namespace Window

variable {w : Window} {a b k : Nat}

namespace Word

theorem two_maxCapacity_lt : 2 * maxCapacity + 1 < UInt64.size := by
  decide

theorem toNat_toUInt64 (h : a < UInt64.size) : a.toUInt64.toNat = a :=
  UInt64.toNat_ofNat_of_lt' h

theorem toUInt64_inj (ha : a < UInt64.size) (hb : b < UInt64.size) :
    a.toUInt64 = b.toUInt64 ↔ a = b := by
  rw [← UInt64.toNat_inj, toNat_toUInt64 ha, toNat_toUInt64 hb]

theorem add?_toUInt64 (h : a + b < UInt64.size) :
    add? a.toUInt64 b.toUInt64 = some (a + b).toUInt64 := by
  rw [add?, toNat_toUInt64 (by omega), toNat_toUInt64 (by omega), if_pos h]
  exact congrArg some (UInt64.ofNat_add a b).symm

theorem sub?_toUInt64 (ha : a < UInt64.size) (h : b ≤ a) :
    sub? a.toUInt64 b.toUInt64 = some (a - b).toUInt64 := by
  have hle : b.toUInt64 ≤ a.toUInt64 := by
    rwa [UInt64.le_iff_toNat_le, toNat_toUInt64 ha, toNat_toUInt64 (by omega)]
  rw [sub?, if_pos hle]
  exact congrArg some (UInt64.ofNat_sub h).symm

end Word

/-- The window is within its cells, and they are no more than there can be. -/
structure Fits (w : Window) : Prop where
  head : w.head < w.capacity
  count : w.count ≤ w.capacity
  capacity : w.capacity ≤ Word.maxCapacity

namespace Fits

open Word

/-- Twice the cells are counted by a word, and no sum in a window is more than that. -/
theorem sum_lt (h : w.Fits) (hk : k ≤ w.capacity) : w.head + k < UInt64.size := by
  have hhead := h.head
  have hcapacity := h.capacity
  have hmax := two_maxCapacity_lt
  omega

theorem lt_size (h : w.Fits) (hk : k ≤ w.capacity) : k < UInt64.size :=
  Nat.lt_of_le_of_lt (Nat.le_add_left k w.head) (h.sum_lt hk)

theorem index_lt (h : w.Fits) (hk : k ≤ w.capacity) : w.index k < UInt64.size :=
  h.lt_size (Nat.le_of_lt (Window.index_lt h.head hk))

theorem index? (h : w.Fits) (hk : k ≤ w.capacity) :
    w.toWord.index? k.toUInt64 = some (w.index k).toUInt64 := by
  have hsum := h.sum_lt hk
  have hwrap : w.capacity.toUInt64 ≤ (w.head + k).toUInt64 ↔ w.capacity ≤ w.head + k := by
    rw [UInt64.le_iff_toNat_le, toNat_toUInt64 hsum, toNat_toUInt64 (h.lt_size (Nat.le_refl _))]
  simp only [Word.index?, toWord, add?_toUInt64 hsum, Option.bind_eq_bind, Option.bind_some, hwrap,
    Window.index]
  split
  · rename_i hle
    exact sub?_toUInt64 hsum hle
  · rfl

theorem toWord_isFull (h : w.Fits) : w.toWord.isFull = w.isFull := by
  rw [Word.isFull, Window.isFull, Bool.eq_iff_iff, beq_iff_eq, beq_iff_eq]
  exact toUInt64_inj (h.lt_size h.count) (h.lt_size (Nat.le_refl _))

theorem toWord_isEmpty (h : w.Fits) : w.toWord.isEmpty = w.isEmpty := by
  rw [Word.isEmpty, Window.isEmpty, Bool.eq_iff_iff, beq_iff_eq, beq_iff_eq]
  exact toUInt64_inj (h.lt_size h.count) (h.lt_size (Nat.zero_le _))

theorem grow? (h : w.Fits) (hc : w.count < w.capacity) : w.toWord.grow? = some w.grow.toWord := by
  have hadd : add? w.toWord.count 1 = some (w.count + 1).toUInt64 :=
    add?_toUInt64 (b := 1) (h.lt_size hc)
  simp only [Word.grow?, hadd]
  rfl

theorem shrink? (h : w.Fits) (hc : 0 < w.count) : w.toWord.shrink? = some w.shrink.toWord := by
  have hindex : w.toWord.index? 1 = some (w.index 1).toUInt64 :=
    h.index? (Nat.lt_of_le_of_lt (Nat.zero_le _) h.head)
  have hsub : sub? w.toWord.count 1 = some (w.count - 1).toUInt64 :=
    sub?_toUInt64 (h.lt_size h.count) hc
  simp only [Word.shrink?, hindex, hsub]
  rfl

theorem remaining? (h : w.Fits) (hk : k ≤ w.count) :
    w.toWord.remaining? k.toUInt64 = some (w.count - k).toUInt64 :=
  sub?_toUInt64 (h.lt_size h.count) hk

theorem grow (h : w.Fits) (hc : w.count < w.capacity) : w.grow.Fits :=
  ⟨h.head, hc, h.capacity⟩

theorem shrink (h : w.Fits) : w.shrink.Fits where
  head := Window.index_lt h.head (Nat.zero_lt_of_lt h.head)
  count := Nat.le_trans (Nat.sub_le _ _) h.count
  capacity := h.capacity

theorem clear (h : w.Fits) : w.clear.Fits :=
  ⟨Nat.zero_lt_of_lt h.head, Nat.zero_le _, h.capacity⟩

theorem room (h : w.Fits) (hw : w.isFull = false) : w.count < w.capacity := by
  have hne : w.count ≠ w.capacity := by
    rwa [← Bool.not_eq_true, Window.isFull_iff] at hw
  exact Nat.lt_of_le_of_ne h.count hne

end Fits

/-- Kept in words, a window of capacity `n` has the same numbers, and no sum or difference is cut
off. -/
structure Unwrapped (n : Nat) (w : Window) : Prop where
  capacity : w.toWord.capacity.toNat = n
  head : w.toWord.head.toNat = w.head ∧ w.head < n
  count : w.toWord.count.toNat = w.count ∧ w.count ≤ n
  index : ∀ k ≤ n, w.head + k < UInt64.size ∧
    ∃ i, w.toWord.index? k.toUInt64 = some i ∧ i.toNat = (w.head + k) % n ∧ i.toNat < n
  grow : w.isFull = false → w.toWord.grow? = some w.grow.toWord ∧
    w.grow.toWord.count.toNat = w.count + 1
  shrink : w.isEmpty = false → 0 < w.count ∧ w.toWord.shrink? = some w.shrink.toWord ∧
    w.shrink.toWord.count.toNat = w.count - 1
  remaining : ∀ k ≤ w.count, ∃ m, w.toWord.remaining? k.toUInt64 = some m ∧ m.toNat = w.count - k

theorem Fits.unwrapped (h : w.Fits) : w.Unwrapped w.capacity where
  capacity := Word.toNat_toUInt64 (h.lt_size (Nat.le_refl _))
  head := ⟨Word.toNat_toUInt64 (h.lt_size (Nat.le_of_lt h.head)), h.head⟩
  count := ⟨Word.toNat_toUInt64 (h.lt_size h.count), h.count⟩
  index k hk := by
    have hindex := Word.toNat_toUInt64 (h.index_lt hk)
    refine ⟨h.sum_lt hk, _, h.index? hk, ?_, ?_⟩
    · rw [hindex, index_eq_mod h.head hk]
    · rw [hindex]
      exact Window.index_lt h.head hk
  grow hw := ⟨h.grow? (h.room hw), Word.toNat_toUInt64 (h.lt_size (h.room hw))⟩
  shrink hw := by
    have hcount : 0 < w.count := by
      rw [← Bool.not_eq_true, isEmpty_iff] at hw
      omega
    exact ⟨hcount, h.shrink? hcount, Word.toNat_toUInt64 (h.lt_size h.shrink.count)⟩
  remaining k hk :=
    ⟨_, h.remaining? hk, Word.toNat_toUInt64 (h.lt_size (Nat.le_trans (Nat.sub_le _ _) h.count))⟩

/-- Two cells more, and the sum of a head and a count would leave the word. -/
example : (toWord ⟨Word.maxCapacity + 2, Word.maxCapacity + 1, Word.maxCapacity + 1⟩).index?
    (Word.maxCapacity + 1).toUInt64 = none := by
  decide

end Window

namespace Ring

variable {σ : Type u} {α : Type v} [Cells σ α] {r : Ring σ} {n k : Nat}

def inWords (r : Ring σ) : WordRing σ :=
  ⟨r.cells, r.window.toWord⟩

end Ring

/-- The same with the ring kept in words. -/
def Effect.inWords {σ : Type u} {α : Type v} {β : Type w} (e : Effect (Ring σ) α β) :
    Effect (WordRing σ) α β :=
  ⟨e.after.inWords, e.reply, e.destroyed⟩

namespace Ring

open Window.Word

variable {σ : Type u} {α : Type v} [Cells σ α] {r : Ring σ} {n k : Nat}

theorem put_window (r : Ring σ) (v : α) : (r.put v).after.window = r.window ∨
    r.window.isFull = false ∧ (r.put v).after.window = r.window.grow := by
  obtain ⟨cells, w⟩ := r
  simp only [Ring.put]
  split
  · exact Or.inl rfl
  · rename_i hfull
    split
    · exact Or.inr ⟨by simpa using hfull, rfl⟩
    · exact Or.inl rfl

theorem get_window (r : Ring σ) :
    r.get.after.window = r.window ∨ r.get.after.window = r.window.shrink := by
  obtain ⟨cells, w⟩ := r
  simp only [Ring.get]
  split
  · exact Or.inl rfl
  · split
    · exact Or.inr rfl
    · exact Or.inl rfl
    · exact Or.inl rfl

theorem put_fits (h : r.window.Fits) (v : α) : (r.put v).after.window.Fits := by
  rcases put_window r v with he | ⟨hroom, he⟩
  · exact he ▸ h
  · exact he ▸ h.grow (h.room hroom)

theorem get_fits (h : r.window.Fits) : r.get.after.window.Fits := by
  rcases get_window r with he | he
  · exact he ▸ h
  · exact he ▸ h.shrink

theorem put?_inWords (h : r.window.Fits) (v : α) : r.inWords.put? v = some (r.put v).inWords := by
  obtain ⟨cells, w⟩ := r
  have htail : w.toWord.index? w.toWord.count = some (w.index w.count).toUInt64 := h.index? h.count
  simp only [inWords, WordRing.put?, Ring.put, h.toWord_isFull]
  split
  · rfl
  · rename_i hfull
    have hgrow := h.grow? (h.room (by simpa using hfull))
    rw [htail, Option.bind_some, toNat_toUInt64 (h.index_lt h.count)]
    rcases Cells.write cells (w.index w.count) v with ⟨next, _ | ⟨⟩, lost⟩
    · rfl
    · simp only [hgrow]
      rfl

theorem get?_inWords (h : r.window.Fits) : r.inWords.get? = some r.get.inWords := by
  obtain ⟨cells, w⟩ := r
  have hhead : w.toWord.head.toNat = w.head := toNat_toUInt64 (h.lt_size (Nat.le_of_lt h.head))
  simp only [inWords, WordRing.get?, Ring.get, h.toWord_isEmpty, hhead]
  split
  · rfl
  · rename_i hempty
    have hcount : 0 < w.count := by
      rw [Window.isEmpty_iff] at hempty
      omega
    have hshrink := h.shrink? hcount
    rcases Cells.take cells w.head with ⟨next, _ | (_ | v), lost⟩
    · rfl
    · rfl
    · simp only [hshrink]
      rfl

theorem peek_inWords (h : r.window.Fits) : r.inWords.peek = r.peek := by
  have hhead : r.window.toWord.head.toNat = r.window.head :=
    toNat_toUInt64 (h.lt_size (Nat.le_of_lt h.head))
  simp only [inWords, WordRing.peek, Ring.peek, Ring.isEmpty, h.toWord_isEmpty, hhead]
  rfl

theorem putAll?_inWords (h : r.window.Fits) (vs : List α) :
    r.inWords.putAll? vs = some (r.putAll vs).inWords := by
  induction vs generalizing r with
  | nil => rfl
  | cons v vs ih =>
    have hnext := put_fits h v
    rw [WordRing.putAll?, put?_inWords h, Option.bind_some, Ring.putAll]
    rcases hp : r.put v with ⟨next, _ | ⟨⟩, lost⟩
    · rfl
    · rw [hp] at hnext
      simp only [Effect.inWords, ih hnext]
      rfl

theorem count_inWords (h : r.window.Fits) : r.inWords.window.count.toNat = r.count :=
  toNat_toUInt64 (h.lt_size h.count)

theorem hint?_inWords (h : r.window.Fits) (hk : k ≤ r.count) :
    r.inWords.hint? k.toUInt64 = some (Walk.hint ⟨r, k⟩) := by
  have hleft : r.count - k < UInt64.size :=
    h.lt_size (Nat.le_trans (Nat.sub_le _ _) h.count)
  have hrest : r.inWords.window.remaining? k.toUInt64 = some (r.count - k).toUInt64 :=
    h.remaining? hk
  rw [WordRing.hint?, hrest, Option.map_some, toNat_toUInt64 hleft]
  rfl

theorem Walk.next_le (hk : k ≤ r.count) {v : Option α} {next : Walk σ}
    (hn : Walk.next ⟨r, k⟩ = .ok (v, next)) : ∃ j ≤ r.count, next = ⟨r, j⟩ := by
  unfold Walk.next at hn
  split at hn
  · cases hn
    exact ⟨k, hk, rfl⟩
  · rename_i hne
    have hlt : k < r.count := Nat.lt_of_le_of_ne hk hne
    split at hn
    · cases hn
      exact ⟨k + 1, hlt, rfl⟩
    · cases hn

theorem next?_inWords (h : r.window.Fits) (hk : k ≤ r.count) :
    r.inWords.next? k.toUInt64 =
      some ((Walk.next ⟨r, k⟩).map fun (v, next) => (v, next.offset.toUInt64)) := by
  have hfits : k ≤ r.window.capacity := Nat.le_trans hk h.count
  have hend : k.toUInt64 = r.inWords.window.count ↔ k = r.count :=
    toUInt64_inj (h.lt_size hfits) (h.lt_size h.count)
  have hindex : r.inWords.window.index? k.toUInt64 = some (r.window.index k).toUInt64 :=
    h.index? hfits
  simp only [WordRing.next?, Walk.next, hend]
  split
  · rfl
  · rename_i hne
    have hlt : k < r.count := Nat.lt_of_le_of_ne hk hne
    have hadd : add? k.toUInt64 1 = some (k + 1).toUInt64 :=
      add?_toUInt64 (b := 1) (h.lt_size (Nat.lt_of_lt_of_le hlt h.count))
    have hcells : r.inWords.cells = r.cells := rfl
    rw [hindex, Option.bind_some, toNat_toUInt64 (h.index_lt hfits), hadd, hcells]
    rcases Cells.read r.cells (r.window.index k) with e | v
    · rfl
    · rfl

theorem trail?_inWords (h : r.window.Fits) (m : Nat) (hk : k ≤ r.count) :
    r.inWords.trail? m k.toUInt64 = some (Walk.trail m ⟨r, k⟩) := by
  induction m generalizing k with
  | zero => rw [WordRing.trail?, hint?_inWords h hk, Option.map_some, Walk.trail]
  | succ m ih =>
    rw [WordRing.trail?, hint?_inWords h hk, Option.bind_some, next?_inWords h hk, Option.bind_some,
      Walk.trail]
    rcases hn : Walk.next ⟨r, k⟩ with e | ⟨v, next⟩
    · rfl
    -- a walk that has ended stays at the end, so the offset is within the count at every step
    · obtain ⟨j, hj, rfl⟩ := Walk.next_le hk hn
      simp only [Except.map, ih hj]
      rfl

theorem values?_inWords (h : r.window.Fits) (m : Nat) (hk : k ≤ r.count) :
    r.inWords.values? m k.toUInt64 = some (Walk.values m ⟨r, k⟩) := by
  induction m generalizing k with
  | zero => rfl
  | succ m ih =>
    rw [WordRing.values?, next?_inWords h hk, Option.bind_some, Walk.values]
    rcases hn : Walk.next ⟨r, k⟩ with e | ⟨_ | v, next⟩
    · rfl
    · rfl
    · obtain ⟨j, hj, rfl⟩ := Walk.next_le hk hn
      simp only [Except.map, ih hj]
      rfl

theorem drainNext?_inWords (h : r.window.Fits) :
    r.inWords.drainNext? = some r.drainNext.inWords := by
  rw [WordRing.drainNext?, get?_inWords h, Option.map_some, Ring.drainNext]
  rcases r.get with ⟨next, e | v, lost⟩
  · cases e <;> rfl
  · rfl

theorem drainTrail?_inWords (h : r.window.Fits) (m : Nat) :
    r.inWords.drainTrail? m = some (r.drainTrail m).inWords := by
  induction m generalizing r with
  | zero =>
    rw [WordRing.drainTrail?, count_inWords h]
    rfl
  | succ m ih =>
    have hnext := get_fits h
    rw [← drainNext_after] at hnext
    simp only [WordRing.drainTrail?, drainNext?_inWords h, count_inWords h, Option.bind_some,
      Ring.drainTrail]
    rcases hd : r.drainNext with ⟨next, e | v, lost⟩
    · rfl
    · rw [hd] at hnext
      simp only [Effect.inWords, ih hnext]
      rfl

theorem perform?_inWords (h : r.window.Fits) (q : Request α) :
    r.inWords.perform? q = some (r.perform q).inWords := by
  cases q with
  | put v =>
    rw [WordRing.perform?, put?_inWords h]
    rfl
  | get =>
    rw [WordRing.perform?, get?_inWords h]
    rfl
  | peek =>
    rw [WordRing.perform?, peek_inWords h]
    rfl
  | putAll vs =>
    rw [WordRing.perform?, putAll?_inWords h]
    rfl
  | putArray vs =>
    rw [WordRing.perform?, putAll?_inWords h]
    rfl
  | clear => rfl
  | walk m =>
    have htrail : r.inWords.trail? m 0 = some (r.walk m) := trail?_inWords h m (Nat.zero_le _)
    rw [WordRing.perform?, htrail]
    rfl
  | values =>
    have hvalues : r.inWords.values? r.count 0 = some r.values :=
      values?_inWords h r.count (Nat.zero_le _)
    rw [WordRing.perform?, count_inWords h, hvalues]
    rfl
  | drain m =>
    rw [WordRing.perform?, WordRing.drain?, drainTrail?_inWords h]
    rfl

theorem perform_fits (h : r.window.Fits) (q : Request α) : (r.perform q).after.window.Fits :=
  perform_keeps (P := fun r => r.window.Fits) (fun _ v h => put_fits h v) (fun _ h => get_fits h)
    (fun _ h => h.clear) h q

theorem run?_inWords (h : r.window.Fits) (qs : List (Request α)) :
    r.inWords.run? qs = some ((r.run qs).1.inWords, (r.run qs).2) := by
  induction qs generalizing r with
  | nil => rfl
  | cons q qs ih =>
    -- the window fits after any answer, so nothing is asked of the cells and their laws
    rw [WordRing.run?, perform?_inWords h, Option.bind_some]
    simp only [Effect.inWords, ih (perform_fits h q)]
    rfl

theorem Reachable.capacity (h : Reachable n r) : r.window.capacity = n := by
  refine Reachable.keeps (P := fun r => r.window.capacity = n) ?_ ?_ ?_ ?_ h
  · exact fun _ => rfl
  · intro r v hr
    rcases put_window r v with he | ⟨_, he⟩ <;> rw [he] <;> exact hr
  · intro r hr
    rcases get_window r with he | he <;> rw [he] <;> exact hr
  · exact fun _ hr => hr

theorem Reachable.fits (hn : n ≤ maxCapacity) (h : Reachable n r) : r.window.Fits :=
  Reachable.keeps (P := fun r => r.window.Fits) (fun hpos => ⟨hpos, Nat.zero_le n, hn⟩)
    (fun _ v hr => put_fits hr v) (fun _ hr => get_fits hr) (fun _ hr => hr.clear) h

/-- Up to the greatest capacity no arithmetic leaves the word, and a ring kept in words answers as
the other. -/
theorem words_never_wrap {σ : Type u} {α : Type v} [Cells σ α] {n : Nat} (hpos : 0 < n)
    (hn : n ≤ maxCapacity) :
    ∃ r : Ring σ, ofCapacity σ n = .ok r ∧ r.inWords = .allocate σ n.toUInt64 ∧
      ∀ s : Ring σ, Reachable n s → s.window.Unwrapped n ∧
        ∀ qs, s.inWords.run? qs = some ((s.run qs).1.inWords, (s.run qs).2) := by
  have hsize : n < UInt64.size := by
    have hmax := two_maxCapacity_lt
    omega
  refine ⟨allocate σ n, ofCapacity_pos σ hpos, ?_, ?_⟩
  · rw [WordRing.allocate, toNat_toUInt64 hsize]
    rfl
  · intro s hs
    have hfits := hs.fits hn
    have hcapacity := hs.capacity
    subst hcapacity
    exact ⟨hfits.unwrapped, run?_inWords hfits⟩

/-- Two values go round the end of three cells. At the most cells the last has the greatest offset.
-/
theorem words_never_wrap_round_the_end :
    ∃ (r : Ring (OptionCells Nat)) (t : Ring ByteCells), Reachable 3 r ∧ r.window = ⟨3, 2, 2⟩ ∧
      r.inWords.run? [.put 5, .get, .walk 3, .drain 1] =
        some ((r.run [.put 5, .get, .walk 3, .drain 1]).1.inWords,
          [(.done, []), (.value 3, []),
            (.trail ⟨[some 4, some 5, none], [⟨2, 2, 2⟩, ⟨1, 1, 1⟩, ⟨0, 0, 0⟩, ⟨0, 0, 0⟩]⟩, []),
            (.trail ⟨[some 4], [⟨2, 2, 2⟩, ⟨1, 1, 1⟩]⟩, [5])]) ∧
      ofCapacity ByteCells maxCapacity = .ok t ∧
      t.inWords = .allocate ByteCells maxCapacity.toUInt64 ∧ t.window.Unwrapped maxCapacity := by
  have hr : Reachable 3 _ := .performed (.put 4) (.performed .get (.performed .get
    (.performed (.putAll [1, 2, 3]) (.made (σ := OptionCells Nat) rfl))))
  obtain ⟨_, _, _, h⟩ := words_never_wrap (σ := OptionCells Nat) (n := 3) (by decide) (by decide)
  obtain ⟨t, ht, hwords, h'⟩ :=
    words_never_wrap (σ := ByteCells) (n := maxCapacity) (by decide) (by decide)
  exact ⟨_, t, hr, rfl, (h _ hr).2 [.put 5, .get, .walk 3, .drain 1], ht, hwords,
    (h' t (.made ht)).1⟩

end Ring

end BoundedBuffer
