import BoundedBuffer.Ring.Rack

namespace BoundedBuffer.Ring.Rack

variable {σ : Type u} {α : Type v} {k : Rack σ} {i j : Nat}

theorem ring?_eq_some {r : Ring σ} : k.ring? i = some r ↔ k.rings[i]? = some (some r) := by
  cases h : k.rings[i]? <;> simp [ring?, h]

theorem ring?_set_self (hi : i < k.rings.length) (new : Option (Ring σ)) :
    (k.set i new).ring? i = new := by
  simp [ring?, set, hi]

theorem ring?_set_ne (h : i ≠ j) (new : Option (Ring σ)) : (k.set i new).ring? j = k.ring? j := by
  simp [ring?, set, h]

theorem ring?_set_cases {r : Ring σ} {new : Option (Ring σ)} (h : (k.set i new).ring? j = some r) :
    j = i ∧ new = some r ∨ k.ring? j = some r := by
  by_cases hij : i = j
  · subst hij
    by_cases hi : i < k.rings.length
    · rw [ring?_set_self hi] at h
      exact Or.inl ⟨rfl, h⟩
    · simp [ring?, set, hi] at h
  · rw [ring?_set_ne hij] at h
    exact Or.inr h

theorem ring?_take_self (k : Rack σ) (i : Nat) : (k.set i none).ring? i = none := by
  by_cases hi : i < k.rings.length
  · exact ring?_set_self hi none
  · simp [ring?, set, hi]

@[simp] theorem set_set (k : Rack σ) (i : Nat) (a b : Option (Ring σ)) :
    (k.set i a).set i b = k.set i b := by
  simp [set]

theorem set_comm (k : Rack σ) (h : i ≠ j) (a b : Option (Ring σ)) :
    (k.set i a).set j b = (k.set j b).set i a := by
  simp [set, List.set_comm _ _ h]

theorem set_ring? (k : Rack σ) (i : Nat) : k.set i (k.ring? i) = k := by
  obtain ⟨rings⟩ := k
  by_cases hi : i < rings.length
  · simp [set, ring?, hi]
  · simp [set, List.set_eq_of_length_le (Nat.le_of_not_lt hi)]

theorem lt_of_ring? {r : Ring σ} (h : k.ring? i = some r) : i < k.rings.length := by
  obtain ⟨hi, _⟩ := List.getElem?_eq_some_iff.mp (ring?_eq_some.mp h)
  exact hi

variable [Cells σ α]

/-- All that a request can come to. Without the ring that it asks for it leaves the rack as it is.
-/
inductive Performs (k : Rack σ) : Request α → Effect (Rack σ) α (Option (Reply α)) → Prop
  | absent (q : Request α) : Performs k q ⟨k, none, []⟩
  | ring {i : Nat} {r : Ring σ} (q : Ring.Request α) (found : k.ring? i = some r) :
      Performs k (.ring i q)
        ⟨k.set i (some (r.perform q).after), some (r.perform q).reply, (r.perform q).destroyed⟩
  | pour {i j : Nat} {source target : Ring σ} (apart : i ≠ j) (giving : k.ring? i = some source)
      (taking : k.ring? j = some target) :
      Performs k (.pour i j)
        ⟨(k.set i (some (source.pour target).after.1)).set j (some (source.pour target).after.2),
          some (.ofUnit (source.pour target).reply), (source.pour target).destroyed⟩
  | copy {i j : Nat} {source target : Ring σ} (apart : i ≠ j) (giving : k.ring? i = some source)
      (taking : k.ring? j = some target) :
      Performs k (.copy i j)
        ⟨k.set j (some (source.copy target).after), some (.ofUnit (source.copy target).reply),
          (source.copy target).destroyed⟩
  | drop {i : Nat} {r : Ring σ} (found : k.ring? i = some r) :
      Performs k (.drop i) ⟨k.set i none, some .done, r.release⟩

theorem performs (k : Rack σ) (q : Request α) : Performs k q (k.perform q) := by
  have hback : ∀ {i : Nat} {r : Option (Ring σ)}, k.ring? i = r → (k.set i none).set i r = k := by
    rintro i r rfl
    rw [set_set, set_ring?]
  have hgone : ∀ {i : Nat}, k.ring? i = none → k.set i none = k := by
    intro i hi
    rw [← hi, set_ring?]
  cases q with
  | ring i q =>
    cases hi : k.ring? i with
    | none => simpa [perform, take_eq, hi, hgone hi] using Performs.absent (.ring i q)
    | some r => simpa [perform, take_eq, hi] using Performs.ring q hi
  | pour i j =>
    cases hi : k.ring? i with
    | none => simpa [perform, take_eq, hi, hgone hi] using Performs.absent (.pour i j)
    | some source =>
      by_cases hij : i = j
      · subst hij
        simpa [perform, take_eq, hi, ring?_take_self, hback hi] using
          Performs.absent (k := k) (.pour i i)
      · cases hj : k.ring? j with
        | none =>
          have hsame : ((k.set i none).set j none).set i (some source) = k := by
            rw [set_comm k hij, set_set, hgone hj, ← hi, set_ring?]
          simpa [perform, take_eq, hi, ring?_set_ne hij, hj, hsame] using
            Performs.absent (.pour i j)
        | some target =>
          have hboth : ∀ a b : Option (Ring σ),
              (((k.set i none).set j none).set i a).set j b = (k.set i a).set j b := by
            intro a b
            rw [set_comm _ (Ne.symm hij), set_set, set_set]
          simpa [perform, take_eq, hi, ring?_set_ne hij, hj, hboth] using Performs.pour hij hi hj
  | copy i j =>
    cases hj : k.ring? j with
    | none => simpa [perform, take_eq, hj, hgone hj] using Performs.absent (.copy i j)
    | some target =>
      by_cases hij : i = j
      · subst hij
        simpa [perform, take_eq, hj, ring?_take_self, hback hj] using
          Performs.absent (k := k) (.copy i i)
      · cases hi : k.ring? i with
        | none =>
          simpa [perform, take_eq, hj, ring?_set_ne (Ne.symm hij), hi, hback hj] using
            Performs.absent (.copy i j)
        | some source =>
          simpa [perform, take_eq, hj, ring?_set_ne (Ne.symm hij), hi] using
            Performs.copy hij hi hj
  | drop i =>
    cases hi : k.ring? i with
    | none => simpa [perform, take_eq, hi, hgone hi] using Performs.absent (.drop i)
    | some r => simpa [perform, take_eq, hi] using Performs.drop hi

theorem vacant_perform (h : k.ring? i = none) (q : Request α) :
    (k.perform q).after.ring? i = none := by
  have hset : ∀ {k : Rack σ} {j : Nat} {new : Option (Ring σ)}, k.ring? i = none →
      k.ring? j ≠ none → (k.set j new).ring? i = none := by
    intro k j new hk hj
    have hne : j ≠ i := by
      rintro rfl
      exact hj hk
    rw [ring?_set_ne hne, hk]
  have hp := performs k q
  generalize k.perform q = e at hp ⊢
  cases hp with
  | absent => exact h
  | ring _ found => exact hset h (by simp [found])
  | pour apart giving taking =>
    exact hset (hset h (by simp [giving])) (by simp [ring?_set_ne apart, taking])
  | copy _ _ taking => exact hset h (by simp [taking])
  | drop found => exact hset h (by simp [found])

theorem vacant_drop (k : Rack σ) (i : Nat) : (k.perform (.drop i)).after.ring? i = none := by
  cases hk : k.ring? i with
  | none => exact vacant_perform hk _
  | some r => simp [perform, take_eq, hk, ring?_take_self]

theorem vacant_run {qs : List (Request α)} (h : k.ring? i = none ∨ .drop i ∈ qs) :
    (k.run qs).1.ring? i = none := by
  induction qs generalizing k with
  | nil => exact h.resolve_right List.not_mem_nil
  | cons q qs ih =>
    apply ih
    rcases h with hk | hd
    · exact Or.inl (vacant_perform hk q)
    · rcases List.mem_cons.mp hd with rfl | hd
      · exact Or.inl (vacant_drop k i)
      · exact Or.inr hd

end BoundedBuffer.Ring.Rack
