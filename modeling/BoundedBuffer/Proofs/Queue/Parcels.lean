import Mathlib.Data.List.Induction
import BoundedBuffer.Queue.Workload

namespace BoundedBuffer.Queue

variable {β : Type u}

namespace Parcel

def batch (producer : Nat) (contents : List β) : List (Parcel β) :=
  contents.mapIdx fun position content => ⟨producer, position, content⟩

def sent (producers : List (List β)) : List (Parcel β) :=
  (producers.mapIdx batch).flatten

theorem producer_of_mem_batch {p : Nat} {contents : List β} {x : Parcel β}
    (h : x ∈ batch p contents) : x.producer = p := by
  obtain ⟨_, _, rfl⟩ := List.mem_mapIdx.mp h
  rfl

theorem batch_ordered (p : Nat) (contents : List β) :
    (batch p contents).Pairwise fun a b => a.position < b.position := by
  rw [List.pairwise_iff_getElem]
  intro i j hi hj hij
  simpa [batch] using hij

theorem filter_batch (p q : Nat) (contents : List β) :
    (batch p contents).filter (·.producer == q) = if p = q then batch p contents else [] := by
  split
  · rename_i h
    apply List.filter_eq_self.mpr
    intro x hx
    rw [producer_of_mem_batch hx]
    exact beq_iff_eq.mpr h
  · rename_i h
    apply List.filter_eq_nil_iff.mpr
    intro x hx
    rw [producer_of_mem_batch hx]
    simpa using h

theorem filter_sent (producers : List (List β)) (p : Nat) :
    (sent producers).filter (·.producer == p) = producers[p]?.elim [] (batch p) := by
  induction producers using List.reverseRecOn with
  | nil => rfl
  | append_singleton ls l ih =>
    have hs : sent (ls ++ [l]) = sent ls ++ batch ls.length l := by simp [sent]
    rw [hs, List.filter_append, ih, filter_batch]
    rcases Nat.lt_trichotomy p ls.length with hp | rfl | hp
    · rw [List.getElem?_append_left hp, if_neg (by omega), List.append_nil]
    · simp
    · rw [List.getElem?_eq_none (by omega), List.getElem?_eq_none (by simp; omega),
        if_neg (by omega)]
      rfl

theorem inOrder_of_filter {xs : List (Parcel β)}
    (h : ∀ p, (xs.filter (·.producer == p)).Pairwise fun a b => a.position < b.position) :
    inOrder xs := by
  apply List.pairwise_iff_forall_sublist.mpr
  intro a b hab he
  have hs := hab.filter (·.producer == b.producer)
  rw [List.filter_eq_self.mpr (by simp [he])] at hs
  exact List.pairwise_iff_forall_sublist.mp (h b.producer) hs

theorem perm_of_filter {xs ys : List (Parcel β)}
    (h : ∀ p, xs.filter (·.producer == p) = ys.filter (·.producer == p)) : xs.Perm ys := by
  classical
  apply List.perm_iff_count.mpr
  intro x
  have hx := congrArg (List.count x) (h x.producer)
  rwa [List.count_filter (by simp), List.count_filter (by simp)] at hx

theorem eq_of_filter_single {xs : List (Parcel β)} {contents : List β}
    (h : ∀ p, xs.filter (·.producer == p) = (sent [contents]).filter (·.producer == p)) :
    xs = sent [contents] := by
  have hsent : sent [contents] = batch 0 contents := by simp [sent]
  have hall : ∀ x ∈ xs, x.producer = 0 := by
    intro x hx
    have hmem := (perm_of_filter h).mem_iff.mp hx
    rw [hsent] at hmem
    exact producer_of_mem_batch hmem
  calc xs = xs.filter (·.producer == 0) := by
        rw [List.filter_eq_self.mpr fun x hx => beq_iff_eq.mpr (hall x hx)]
    _ = (sent [contents]).filter (·.producer == 0) := h 0
    _ = sent [contents] := by rw [filter_sent, hsent]; rfl

theorem inOrder.sublist {xs ys : List (Parcel β)} (h : inOrder ys) (hs : xs.Sublist ys) :
    inOrder xs :=
  List.Pairwise.sublist hs h

end Parcel

end BoundedBuffer.Queue
