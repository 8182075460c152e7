import BoundedBuffer.Cells.Request
import BoundedBuffer.Proofs.Cells.Held
import BoundedBuffer.Proofs.Cells.Lawful
import Mathlib.Data.List.Nodup

namespace BoundedBuffer

theorem existsUnique_mem_of_nodup {α : Type u} {l : List (List α)} (h : l.flatten.Nodup) {v : α}
    (hv : v ∈ l.flatten) : ∃! k : Nat, ∃ vs, l[k]? = some vs ∧ v ∈ vs := by
  obtain ⟨vs, hvs, hmem⟩ := List.mem_flatten.mp hv
  obtain ⟨k, hk⟩ := List.mem_iff_getElem?.mp hvs
  refine ⟨k, ⟨vs, hk, hmem⟩, ?_⟩
  rintro j ⟨us, hj, hmem'⟩
  obtain ⟨hklt, rfl⟩ := List.getElem?_eq_some_iff.mp hk
  obtain ⟨hjlt, rfl⟩ := List.getElem?_eq_some_iff.mp hj
  have hapart := List.pairwise_iff_getElem.mp (List.nodup_flatten.mp h).2
  rcases Nat.lt_trichotomy j k with hlt | he | hlt
  · exact absurd hmem (hapart j k hjlt hklt hlt hmem')
  · exact he
  · exact absurd hmem' (hapart k j hklt hjlt hlt hmem)

namespace Cells

namespace Request

variable {α : Type u}

def index? : Request α → Option Nat
  | .write i _ | .take i | .read i => some i
  | .reset => none

def written? : Request α → Option α
  | .write _ v => some v
  | _ => none

def writes (i : Nat) : Request α → Bool
  | .write j _ => j == i
  | _ => false

/-- Whatever is in cell `i` is taken out, written over or let go. -/
def ousts (i : Nat) : Request α → Bool
  | .write j _ | .take j => j == i
  | .read _ => false
  | .reset => true

/-- The values that go out of the row: one that is taken, and those that are destroyed. -/
def gives : Request α → Reply α × List α → List α
  | .take _, (.held v, lost) => v.toList ++ lost
  | _, (_, lost) => lost

end Request

section

variable {α : Type u} {counts : Request α → Bool} {i : Nat} {v : α}

/-- The value `v` was written to cell `i`, and no later request `counts`. -/
def LastWritten (counts : Request α → Bool) (i : Nat) (v : α) (qs : List (Request α)) : Prop :=
  ∃ before after, qs = before ++ .write i v :: after ∧ ∀ q ∈ after, counts q = false

/-- What was written by the latest request that `counts`, if that is a write. -/
def latest (counts : Request α → Bool) (qs : List (Request α)) : Option α :=
  (qs.reverse.find? counts).bind Request.written?

theorem latest_concat (counts : Request α → Bool) (qs : List (Request α)) (q : Request α) :
    latest counts (qs ++ [q]) = if counts q then q.written? else latest counts qs := by
  cases h : counts q <;> simp [latest, h]

theorem latest_eq_some_iff (h : ∀ q v, counts q = true ∧ q.written? = some v ↔ q = .write i v)
    {qs : List (Request α)} : latest counts qs = some v ↔ LastWritten counts i v qs := by
  constructor
  · intro hl
    obtain ⟨q, hfind, hv⟩ := Option.bind_eq_some_iff.mp hl
    obtain ⟨hq, after, before, he, hafter⟩ := List.find?_eq_some_iff_append.mp hfind
    obtain rfl := (h q v).mp ⟨hq, hv⟩
    refine ⟨before.reverse, after.reverse, ?_, by simpa using hafter⟩
    rw [← List.reverse_reverse qs, he]
    simp
  · rintro ⟨before, after, rfl, hafter⟩
    obtain ⟨hq, hv⟩ := (h (.write i v) v).mpr rfl
    refine Option.bind_eq_some_iff.mpr ⟨_, List.find?_eq_some_iff_append.mpr ⟨hq, ?_⟩, hv⟩
    exact ⟨after.reverse, before.reverse, by simp, by simpa using hafter⟩

theorem writes_iff (q : Request α) (v : α) :
    q.writes i = true ∧ q.written? = some v ↔ q = .write i v := by
  cases q <;> simp [Request.writes, Request.written?]

theorem ousts_iff (q : Request α) (v : α) :
    q.ousts i = true ∧ q.written? = some v ↔ q = .write i v := by
  cases q <;> simp [Request.ousts, Request.written?]

end

section

variable {σ : Type u} {α : Type v} [Cells σ α] {s : σ} {i j n : Nat} {past : List (Request α)}
  {left : Nat → List (Request α) → Option α}

/-- Of `n` cells each holds what `left` says that the requests have left in it. -/
structure Follows (left : Nat → List (Request α) → Option α) (n : Nat) (past : List (Request α))
    (s : σ) : Prop where
  length : length s = n
  cell : ∀ i < n, read s i = .ok (left i past)

variable [LawfulCells σ]

theorem length_perform (s : σ) (q : Request α) : length (perform s q).after = length s := by
  cases q with
  | write i v => exact LawfulCells.length_write s i v
  | take i => exact LawfulCells.length_take s i
  | read i => rfl
  | reset => exact LawfulCells.length_reset s

theorem read_write (v : α) (hj : j < length s) :
    read (write s i v).after j = if i == j then .ok (some v) else read s j := by
  by_cases h : i = j
  · subst h
    simpa using LawfulCells.read_write_self v hj
  · simpa [h] using LawfulCells.read_write_ne s v h

/-- It is enough that each request does to a cell what it does to what is left there. -/
theorem follows_run (start : ∀ i < n, read (ofLength n : σ) i = .ok (left i []))
    (step : ∀ (s : σ) past q i, i < Cells.length s → read s i = .ok (left i past) →
      read (perform s q).after i = .ok (left i (past ++ [q]))) (qs : List (Request α)) :
    Follows left n qs (run (ofLength n : σ) qs).1 := by
  -- what is left is told by all the requests so far, so the induction is from any of them on
  have hrun : ∀ qs past (s : σ), Follows left n past s →
      Follows left n (past ++ qs) (run s qs).1 := by
    intro qs
    induction qs with
    | nil =>
      intro past s h
      simpa [run] using h
    | cons q qs ih =>
      intro past s h
      have hnext : Follows left n (past ++ [q]) (perform s q).after :=
        ⟨(length_perform s q).trans h.length,
          fun i hi => step s past q i (h.length ▸ hi) (h.cell i hi)⟩
      simpa [run] using ih _ _ hnext
  exact hrun qs [] _ ⟨LawfulCells.length_ofLength n, start⟩

end

end Cells

open Cells

namespace OptionCells

variable {α : Type u} {n i : Nat} {s : OptionCells α} {past : List (Request α)}

def left (i : Nat) (past : List (Request α)) : Option α :=
  latest (Request.ousts i) past

theorem read_perform (hi : i < Cells.length s) (q : Request α) :
    Cells.read (perform s q).after i = if q.ousts i then .ok q.written? else Cells.read s i := by
  cases q with
  | write j v => exact read_write v hi
  | take j =>
    by_cases h : j = i
    · subst h
      rw [if_pos (by simp [Request.ousts])]
      exact read_take_self hi
    · rw [if_neg (by simp [Request.ousts, h])]
      exact LawfulCells.read_take_ne s h
  | read j => rfl
  | reset => exact read_ofLength hi

theorem follows (n : Nat) (qs : List (Request α)) :
    Follows left n qs (run (ofLength n : OptionCells α) qs).1 := by
  apply follows_run
  · intro i hi
    exact read_ofLength hi
  · intro s past q i hi hcell
    rw [read_perform hi, hcell]
    simp only [left, latest_concat]
    split <;> rfl

theorem cells_eq (h : Follows left n past s) :
    s.cells.toList = (List.range n).map (left · past) := by
  have hsize : s.cells.size = n := h.length
  apply List.ext_getElem
  · simp [hsize]
  · intro i hi _
    have hlt : i < s.cells.size := by simpa using hi
    have hcell := (read_of_lt hlt).symm.trans (h.cell i (hsize ▸ hlt))
    simpa using Except.ok.inj hcell

theorem held_of_follows (h : Follows left n past s) :
    s.held = (List.range n).filterMap (left · past) := by
  simp [held, cells_eq h, List.filterMap_map]

/-- A stray index costs no value but one that was to be written there. -/
theorem perform_stray {q : Request α} (hq : q.index? = some i) (hi : s.cells.size ≤ i) :
    perform s q = ⟨s, .outOfRange ⟨s.cells.size, i⟩, q.written?.toList⟩ := by
  cases q with
  | reset => cases hq
  | _ =>
    cases hq
    simp [perform, Cells.write, Cells.take, Cells.read, write, take, read, Nat.not_lt_of_le hi,
      Reply.ofWrite, Reply.ofHeld, Request.written?]

/-- What a row of `n` optional cells answers to a request after those `past`, and what it destroys.
-/
structure Recalls (n : Nat) (past : List (Request α)) (s : OptionCells α) : Prop where
  last : ∀ i v, left i past = some v ↔ LastWritten (Request.ousts i) i v past
  stray : ∀ q i, q.index? = some i → n ≤ i →
    perform s q = ⟨s, .outOfRange ⟨n, i⟩, q.written?.toList⟩
  read : ∀ i < n, perform s (.read i) = ⟨s, .held (left i past), []⟩
  take : ∀ i < n, (perform s (.take i)).reply = .held (left i past) ∧
    (perform s (.take i)).destroyed = []
  write : ∀ i < n, ∀ v, (perform s (.write i v)).reply = .done ∧
    (perform s (.write i v)).destroyed = (left i past).toList
  reset : (perform s .reset).destroyed = (List.range n).filterMap (left · past)
  release : release s = (List.range n).filterMap (left · past)

theorem recalls (h : Follows left n past s) : s.Recalls n past where
  last i v := latest_eq_some_iff ousts_iff
  stray q i hq hi := by
    have hsize : s.cells.size = n := h.length
    rw [perform_stray hq (hsize ▸ hi), hsize]
  read i hi := by
    simp only [perform, h.cell i hi, Reply.ofHeld]
  take i hi := by
    have hreply := (LawfulCells.take_reply s i).trans (h.cell i hi)
    refine ⟨?_, take_destroyed s i⟩
    simp only [perform, hreply, Reply.ofHeld]
  write i hi v := by
    have hsize : s.cells.size = n := h.length
    have hlt : i < s.cells.size := hsize ▸ hi
    have hcell := (read_of_lt hlt).symm.trans (h.cell i hi)
    simp [perform, Cells.write, OptionCells.write, hlt, Except.ok.inj hcell, Reply.ofWrite]
  reset := held_of_follows h
  release := held_of_follows h

theorem held_perform (s : OptionCells α) (q : Request α) :
    ((perform s q).after.held ++ q.gives ((perform s q).reply, (perform s q).destroyed)).Perm
      (s.held ++ q.written?.toList) := by
  cases q with
  | write i v =>
    by_cases hi : i < s.cells.size
    · simpa [perform, Cells.write, write, hi, Request.gives, Request.written?] using
        held_set hi (some v)
    · simp [perform, Cells.write, write, hi, Request.gives, Request.written?]
  | take i =>
    by_cases hi : i < s.cells.size
    · simpa [perform, Cells.take, take, hi, Reply.ofHeld, Request.gives, Request.written?] using
        held_set hi none
    · simp [perform, Cells.take, take, hi, Reply.ofHeld, Request.gives, Request.written?]
  | read i => simp [perform, Request.gives, Request.written?]
  | reset =>
    simp [perform, Cells.reset, reset, held_ofLength, Request.gives, Request.written?]

theorem held_run (s : OptionCells α) (qs : List (Request α)) :
    ((run s qs).1.held ++ (List.zipWith Request.gives qs (run s qs).2).flatten).Perm
      (s.held ++ qs.filterMap Request.written?) := by
  induction qs generalizing s with
  | nil => simp [run]
  | cons q qs ih =>
    classical
    rw [List.perm_iff_count]
    intro v
    have hstep := (held_perform s q).count_eq v
    have hrest := (ih (perform s q).after).count_eq v
    have hwritten : (q :: qs).filterMap Request.written? =
        q.written?.toList ++ qs.filterMap Request.written? := by
      cases hq : q.written? <;> simp [hq]
    rw [hwritten]
    simp only [run, List.zipWith_cons_cons, List.flatten_cons, List.count_append] at hstep hrest ⊢
    omega

/-- What goes out of a row at each of these requests, and last what goes with the row itself. -/
def outgoing (s : OptionCells α) (qs : List (Request α)) : List (List α) :=
  List.zipWith Request.gives qs (run s qs).2 ++ [release (run s qs).1]

theorem outgoing_perm (n : Nat) (qs : List (Request α)) :
    (outgoing (ofLength n) qs).flatten.Perm (qs.filterMap Request.written?) := by
  have hall := held_run (ofLength n : OptionCells α) qs
  rw [held_ofLength] at hall
  simpa [outgoing, release] using List.perm_append_comm.trans hall

/-- Each value that these requests write to a row goes out of it once, if the row goes after them.
-/
structure Disposes (s : OptionCells α) (qs : List (Request α)) : Prop where
  all : (s.outgoing qs).flatten.Perm (qs.filterMap Request.written?)
  once : (qs.filterMap Request.written?).Nodup → ∀ v ∈ qs.filterMap Request.written?,
    ∃! k : Nat, ∃ vs, (s.outgoing qs)[k]? = some vs ∧ v ∈ vs

theorem disposes (n : Nat) (qs : List (Request α)) : (ofLength n).Disposes qs where
  all := outgoing_perm n qs
  once hnodup v hv := by
    have hall := outgoing_perm n qs
    exact existsUnique_mem_of_nodup (hall.nodup_iff.mpr hnodup) (hall.mem_iff.mpr hv)

end OptionCells

namespace ByteCells

variable {n i : Nat} {s : ByteCells} {past : List (Request UInt8)}

def left (i : Nat) (past : List (Request UInt8)) : UInt8 :=
  (latest (Request.writes i) past).getD 0

theorem follows (n : Nat) (qs : List (Request UInt8)) :
    Follows (fun i past => some (left i past)) n qs (run (ofLength n : ByteCells) qs).1 := by
  apply follows_run
  · intro i hi
    simp [Cells.read, read, Cells.ofLength, ofLength, hi, left, latest]
  · intro s past q i hi hcell
    simp only [left, latest_concat] at hcell ⊢
    cases q with
    | write j b =>
      refine (read_write b hi).trans ?_
      rw [hcell]
      cases hj : j == i <;> simp [Request.writes, Request.written?, hj]
    | _ => exact hcell

theorem perform_stray {q : Request UInt8} (hq : q.index? = some i) (hi : s.bytes.size ≤ i) :
    perform s q = ⟨s, .outOfRange ⟨s.bytes.size, i⟩, []⟩ := by
  cases q with
  | reset => cases hq
  | _ =>
    cases hq
    simp [perform, Cells.write, Cells.take, Cells.read, write, read, Nat.not_lt_of_le hi,
      Reply.ofWrite, Reply.ofHeld]

/-- What a row of `n` bytes answers to a request after those `past`. It destroys nothing. -/
structure Recalls (n : Nat) (past : List (Request UInt8)) (s : ByteCells) : Prop where
  last : ∀ i b, LastWritten (Request.writes i) i b past → left i past = b
  blank : ∀ i, (∀ q ∈ past, q.writes i = false) → left i past = 0
  stray : ∀ q i, q.index? = some i → n ≤ i → perform s q = ⟨s, .outOfRange ⟨n, i⟩, []⟩
  read : ∀ i < n, perform s (.read i) = ⟨s, .held (some (left i past)), []⟩
  take : ∀ i < n, perform s (.take i) = ⟨s, .held (some (left i past)), []⟩
  write : ∀ i < n, ∀ b, (perform s (.write i b)).reply = .done ∧
    (perform s (.write i b)).destroyed = []
  reset : perform s .reset = ⟨s, .done, []⟩
  release : release s = []

theorem recalls (h : Follows (fun i past => some (left i past)) n past s) : s.Recalls n past where
  last i b hb := by
    rw [left, (latest_eq_some_iff writes_iff).mpr hb]
    rfl
  blank i hnone := by
    have hfind : past.reverse.find? (Request.writes i) = none := by
      rw [List.find?_eq_none]
      intro q hq
      simp [hnone q (List.mem_reverse.mp hq)]
    simp [left, latest, hfind]
  stray q i hq hi := by
    have hsize : s.bytes.size = n := h.length
    rw [perform_stray hq (hsize ▸ hi), hsize]
  read i hi := by
    simp only [perform, h.cell i hi, Reply.ofHeld]
  take i hi := by
    have hcell : s.read i = .ok (some (left i past)) := h.cell i hi
    simp only [perform, Cells.take, hcell, Reply.ofHeld]
  write i hi b := by
    have hsize : s.bytes.size = n := h.length
    have hlt : i < s.bytes.size := hsize ▸ hi
    simp [perform, Cells.write, ByteCells.write, hlt, Reply.ofWrite]
  reset := rfl
  release := rfl

end ByteCells

namespace Cells

/-- A row's past requests tell what it answers and what it destroys. A value goes out once; a byte
stays until it is written over. -/
theorem cells_recall_writes {α : Type u} (n : Nat) :
    (∀ qs : List (Request α), (run (OptionCells.ofLength n) qs).1.Recalls n qs ∧
      (OptionCells.ofLength n).Disposes qs) ∧
    ∀ qs : List (Request UInt8), (run (ByteCells.ofLength n) qs).1.Recalls n qs :=
  ⟨fun qs => ⟨OptionCells.recalls (OptionCells.follows n qs), OptionCells.disposes n qs⟩,
    fun qs => ByteCells.recalls (ByteCells.follows n qs)⟩

/-- Two cells go through overwrites, strays and takes, and are reset in the order of their indices.
A byte stays through a take and a reset. -/
theorem cells_recall_writes_past_strays :
    ∃ (s : OptionCells Nat) (t : ByteCells) (qs : List (Request Nat)) (rs : List (Request UInt8)),
      qs = [.write 0 1, .write 5 9, .write 0 2, .take 0, .take 0, .write 1 3, .read 1, .write 0 4,
        .reset, .write 1 6] ∧
      rs = [.write 0 7, .write 2 9, .take 0, .reset] ∧
      s = (run (OptionCells.ofLength 2) qs).1 ∧ t = (run (ByteCells.ofLength 2) rs).1 ∧
      (OptionCells.ofLength 2).outgoing qs =
        [[], [9], [1], [2], [], [], [], [], [4, 3], [], [6]] ∧
      (∃! k : Nat, ∃ vs, ((OptionCells.ofLength 2).outgoing qs)[k]? = some vs ∧ 3 ∈ vs) ∧
      perform s (.read 1) = ⟨s, .held (some 6), []⟩ ∧
      perform s (.write 2 8) = ⟨s, .outOfRange ⟨2, 2⟩, [8]⟩ ∧
      perform t (.take 0) = ⟨t, .held (some 7), []⟩ ∧
      perform t (.take 1) = ⟨t, .held (some 0), []⟩ := by
  obtain ⟨h, h'⟩ := cells_recall_writes (α := Nat) 2
  obtain ⟨hs, hout⟩ := h [.write 0 1, .write 5 9, .write 0 2, .take 0, .take 0, .write 1 3, .read 1,
    .write 0 4, .reset, .write 1 6]
  have ht := h' [.write 0 7, .write 2 9, .take 0, .reset]
  exact ⟨_, _, _, _, rfl, rfl, rfl, rfl, rfl, hout.once (by decide) 3 (by decide),
    hs.read 1 (by decide), hs.stray (.write 2 8) 2 rfl (by decide), ht.take 0 (by decide),
    ht.take 1 (by decide)⟩

end Cells

end BoundedBuffer
