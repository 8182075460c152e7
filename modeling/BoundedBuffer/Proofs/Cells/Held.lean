import BoundedBuffer.Cells.Options
import Mathlib.Data.List.Perm.Basic

namespace BoundedBuffer

/-- If entries of a list stand for lists, those of a new entry come for those of the old one. -/
theorem flatMap_set_perm {β : Type u} {γ : Type v} {l : List β} {i : Nat} {x : β}
    (f : β → List γ) (y : β) (h : l[i]? = some x) :
    ((l.set i y).flatMap f ++ f x).Perm (l.flatMap f ++ f y) := by
  obtain ⟨hi, rfl⟩ := List.getElem?_eq_some_iff.mp h
  have hnew : ((l.set i y).flatMap f).Perm (f y ++ (l.eraseIdx i).flatMap f) :=
    (List.set_perm_cons_eraseIdx hi y).flatMap_right f
  have hold : (f l[i] ++ (l.eraseIdx i).flatMap f).Perm (l.flatMap f) :=
    (List.getElem_cons_eraseIdx_perm hi).flatMap_right f
  calc
    ((l.set i y).flatMap f ++ f l[i]).Perm (f y ++ (l.eraseIdx i).flatMap f ++ f l[i]) :=
      hnew.append_right _
    _ = f y ++ ((l.eraseIdx i).flatMap f ++ f l[i]) := List.append_assoc ..
    List.Perm _ (f y ++ (f l[i] ++ (l.eraseIdx i).flatMap f)) :=
      List.perm_append_comm.append_left _
    List.Perm _ (f y ++ l.flatMap f) := hold.append_left _
    List.Perm _ (l.flatMap f ++ f y) := List.perm_append_comm

namespace OptionCells

variable {α : Type u} {s : OptionCells α} {i : Nat} {v : α}

theorem held_eq (s : OptionCells α) : s.held = s.cells.toList.flatMap Option.toList := by
  simp [held, List.filterMap_eq_flatMap_toList]

theorem held_set (hi : i < s.cells.size) (new : Option α) :
    (held ⟨s.cells.set i new⟩ ++ s.cells[i].toList).Perm (s.held ++ new.toList) := by
  have hfound : s.cells.toList[i]? = some s.cells[i] := by simp [hi]
  simpa [held_eq] using flatMap_set_perm Option.toList new hfound

theorem held_ofLength (n : Nat) : (ofLength n : OptionCells α).held = [] := by
  simp [held_eq, ofLength]

/-- A value written to a vacant cell comes to those held. -/
theorem held_write (v : α) (h : s.read i = .ok none) :
    (s.write i v).after.held.Perm (s.held ++ [v]) := by
  unfold read at h
  split at h
  · rename_i hi
    have hset := held_set hi (some v)
    rw [Except.ok.inj h] at hset
    simpa [write, hi] using hset
  · cases h

theorem held_take (h : s.read i = .ok (some v)) :
    ((s.take i).after.held ++ [v]).Perm s.held := by
  unfold read at h
  split at h
  · rename_i hi
    have hset := held_set hi none
    rw [Except.ok.inj h] at hset
    simpa [take, hi] using hset
  · cases h

theorem take_destroyed (s : OptionCells α) (i : Nat) : (s.take i).destroyed = [] := by
  unfold take
  split <;> rfl

end OptionCells

end BoundedBuffer
