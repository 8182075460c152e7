import BoundedBuffer.Proofs.Ring.Refinement

namespace BoundedBuffer

namespace Ring

def Request.listed {α : Type u} : Request α → Request α
  | .putArray vs => .putAll vs.toList
  | q => q

/-- The reply to a listed request as told to one with an array: whether all went in, no more. -/
def Reply.told {α : Type u} : Request α → Reply α → Reply α
  | .putArray _, .intake refusal _ => refusal.elim .done .fault
  | _, reply => reply

end Ring

namespace BoundedList

variable {α : Type u}

theorem perform_listed (b : BoundedList α) (q : Ring.Request α) :
    (b.perform q).1 = (b.perform q.listed).1 ∧ (b.perform q).2 = (b.perform q.listed).2.told q := by
  cases q with
  | putArray vs =>
    refine ⟨rfl, ?_⟩
    cases hv : vs[b.room]? <;> simp [perform, Ring.Request.listed, Ring.Reply.told, hv]
  | _ => exact ⟨rfl, rfl⟩

theorem run_listed (b : BoundedList α) (qs : List (Ring.Request α)) :
    (b.run qs).1 = (b.run (qs.map Ring.Request.listed)).1 ∧
      (b.run qs).2 = List.zipWith Ring.Reply.told qs (b.run (qs.map Ring.Request.listed)).2 := by
  induction qs generalizing b with
  | nil => exact ⟨rfl, rfl⟩
  | cons q qs ih =>
    obtain ⟨hnext, hreply⟩ := b.perform_listed q
    obtain ⟨hlast, hreplies⟩ := ih (b.perform q).1
    rw [hnext] at hlast hreplies
    exact ⟨by simp [run, hnext, hlast], by simp [run, hnext, hreply, hreplies]⟩

end BoundedList

namespace Ring

variable {σ : Type u} {τ : Type v} {α : Type w} [Cells σ α] [Cells τ α] {r : Ring σ} {s : Ring τ}
  {b : BoundedList α}

/-- What two rings tell of their size is the same, whatever their cells are. -/
structure Alike (r : Ring σ) (s : Ring τ) : Prop where
  capacity : r.capacity = s.capacity
  count : r.count = s.count
  isFull : r.isFull = s.isFull
  isEmpty : r.isEmpty = s.isEmpty

theorem Holds.alike (h : r.Holds b) (h' : s.Holds b) : r.Alike s where
  capacity := h.shows.capacity.trans h'.shows.capacity.symm
  count := h.shows.count.trans h'.shows.count.symm
  isFull := h.shows.isFull.trans h'.shows.isFull.symm
  isEmpty := h.shows.isEmpty.trans h'.shows.isEmpty.symm

theorem Holds.of_live {cells : σ} (h : r.Holds b)
    (length : Cells.length cells = Cells.length r.cells)
    (live : ∀ k < r.count, Cells.read cells (r.window.index k) =
      Cells.read r.cells (r.window.index k)) : Holds ⟨cells, r.window⟩ b where
  capacity := h.capacity
  length := length.trans h.length
  head := h.head
  count := h.count
  fits := h.fits
  live k hk := (live k (h.count_eq ▸ hk)).trans (h.live k hk)

variable [LawfulCells σ] [LawfulCells τ]

/-- Two rings that hold the same values answer alike and go on to hold the same values. -/
theorem Holds.run_alike (h : r.Holds b) (h' : s.Holds b) (qs : List (Request α)) :
    (r.run qs).2.map Prod.fst =
        List.zipWith Reply.told qs ((s.run (qs.map Request.listed)).2.map Prod.fst) ∧
      (r.run qs).1.Alike (s.run (qs.map Request.listed)).1 := by
  obtain ⟨hreplies, hlast⟩ := h.run qs
  obtain ⟨hreplies', hlast'⟩ := h'.run (qs.map Request.listed)
  obtain ⟨hsame, htold⟩ := b.run_listed qs
  rw [hsame] at hlast
  exact ⟨by rw [hreplies, hreplies', htold], hlast.alike hlast'⟩

/-- The cells are as many, and the same where a value is held. -/
def SameLive (r : Ring ByteCells) (cells : ByteCells) : Prop :=
  cells.bytes.size = r.cells.bytes.size ∧
    ∀ k < r.count, cells.bytes[r.window.index k]? = r.cells.bytes[r.window.index k]?

theorem Holds.of_sameLive {r : Ring ByteCells} {b : BoundedList UInt8} {cells : ByteCells}
    (h : r.Holds b) (hs : r.SameLive cells) : Holds ⟨cells, r.window⟩ b := by
  obtain ⟨hsize, hlive⟩ := hs
  refine h.of_live hsize ?_
  intro k hk
  have hread : ∀ c : ByteCells, c.read (r.window.index k) =
      (c.bytes[r.window.index k]?).elim (.error ⟨c.bytes.size, r.window.index k⟩)
        fun byte => .ok (some byte) := by
    intro c
    unfold ByteCells.read
    split
    · rename_i hi
      simp [hi]
    · rename_i hi
      simp [hi]
  change cells.read _ = r.cells.read _
  rw [hread, hread, hlive k hk, hsize]

/-- Asked the same, a ring of bytes and one of optional cells answer alike, whatever bytes stand in
the cells that hold none. -/
theorem storages_agree {n : Nat} (hn : 0 < n) :
    ∃ (r : Ring ByteCells) (s : Ring (OptionCells UInt8)),
      ofCapacity ByteCells n = .ok r ∧ ofCapacity (OptionCells UInt8) n = .ok s ∧
      ∀ qs : List (Request UInt8),
        (r.run qs).2.map Prod.fst =
            List.zipWith Reply.told qs ((s.run (qs.map Request.listed)).2.map Prod.fst) ∧
          (r.run qs).1.Alike (s.run (qs.map Request.listed)).1 ∧
          ∀ stale more, (r.run qs).1.SameLive stale →
            (run ⟨stale, (r.run qs).1.window⟩ more).2.map Prod.fst =
              ((r.run qs).1.run more).2.map Prod.fst := by
  have hr : (allocate ByteCells n).Holds ⟨n, []⟩ := .allocate hn
  have hs : (allocate (OptionCells UInt8) n).Holds ⟨n, []⟩ := .allocate hn
  refine ⟨_, _, ofCapacity_pos _ hn, ofCapacity_pos _ hn, ?_⟩
  intro qs
  obtain ⟨hreplies, halike⟩ := hr.run_alike hs qs
  refine ⟨hreplies, halike, ?_⟩
  intro stale more hstale
  have hlast := (hr.run qs).2
  exact ((hlast.of_sameLive hstale).run more).1.trans (hlast.run more).1.symm

/-- After a bulk put cut short, a drain that ends early and a wrap, the bytes still show what the
other ring let go. -/
theorem storages_agree_over_stale_bytes :
    ∃ (r : Ring ByteCells) (s : Ring (OptionCells UInt8)),
      ofCapacity ByteCells 3 = .ok r ∧ ofCapacity (OptionCells UInt8) 3 = .ok s ∧
      (r.run [.putAll [1, 2, 3, 4], .drain 1, .put 5, .get, .putArray #[6, 7, 8, 9], .get]).2.map
          Prod.fst =
        [.intake (some (.full 4)) [], .trail ⟨[some 1], [⟨3, 3, 3⟩, ⟨2, 2, 2⟩]⟩, .done, .value 5,
          .fault (.full 9), .value 6] ∧
      (r.run [.putAll [1, 2, 3, 4], .drain 1, .put 5, .get, .putArray #[6, 7, 8, 9],
          .get]).1.cells.bytes = #[8, 6, 7] ∧
      (s.run [.putAll [1, 2, 3, 4], .drain 1, .put 5, .get, .putAll [6, 7, 8, 9],
          .get]).1.cells.cells = #[some 8, none, some 7] ∧
      (r.run [.putAll [1, 2, 3, 4], .drain 1, .put 5, .get, .putArray #[6, 7, 8, 9], .get]).1.Alike
        (s.run [.putAll [1, 2, 3, 4], .drain 1, .put 5, .get, .putAll [6, 7, 8, 9], .get]).1 := by
  obtain ⟨r, s, hr, hs, h⟩ := @storages_agree 3 (by decide)
  obtain ⟨_, halike, _⟩ := h [.putAll [1, 2, 3, 4], .drain 1, .put 5, .get,
    .putArray #[6, 7, 8, 9], .get]
  cases hr
  cases hs
  exact ⟨_, _, rfl, rfl, rfl, rfl, rfl, halike⟩

end Ring

end BoundedBuffer
