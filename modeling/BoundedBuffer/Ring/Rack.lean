import BoundedBuffer.Ring.Request

namespace BoundedBuffer.Ring

variable {σ : Type u} {α : Type v} [Cells σ α]

/-- Drains the source into the target for at most the given number of values, up to the first that
is refused. -/
def pourSteps : Nat → Ring σ → Ring σ → Effect (Ring σ × Ring σ) α (Except (Fault α) Unit)
  | 0, source, target => ⟨(source, target), .ok (), []⟩
  | n + 1, source, target =>
    match source.drainNext with
    | ⟨source, .ok none, lost⟩ => ⟨(source, target), .ok (), lost⟩
    | ⟨source, .error e, lost⟩ => ⟨(source, target), .error e, lost⟩
    | ⟨source, .ok (some v), lost⟩ =>
      match target.put v with
      | ⟨target, .error e, more⟩ => ⟨(source, target), .error e, lost ++ more⟩
      | ⟨target, .ok (), more⟩ =>
        let e := pourSteps n source target
        ⟨e.after, e.reply, lost ++ more ++ e.destroyed⟩

/-- Drains the source into the target. The source is cleared in any case, so a refusal costs what is
behind it. -/
def pour (source target : Ring σ) : Effect (Ring σ × Ring σ) α (Except (Fault α) Unit) :=
  let e := pourSteps source.count source target
  let c := e.after.1.clear
  ⟨(c.after, e.after.2), e.reply, e.destroyed ++ c.destroyed⟩

/-- Appends copies of the source's values to the target, up to the first that is refused. -/
def copy (source target : Ring σ) : Effect (Ring σ) α (Except (Fault α) Unit) :=
  match source.values with
  | .ok vs => let e := target.putAll vs; ⟨e.after, e.reply.1, e.destroyed⟩
  | .error e => ⟨target, .error e, []⟩

/-- Rings by number; one that was dropped leaves its number vacant. -/
structure Rack (σ : Type u) where
  rings : List (Option (Ring σ))

namespace Rack

inductive Request (α : Type u) where
  | ring (number : Nat) (request : Ring.Request α)
  | pour (source target : Nat)
  | copy (source target : Nat)
  | drop (number : Nat)
deriving DecidableEq

def ring? (k : Rack σ) (i : Nat) : Option (Ring σ) :=
  k.rings[i]?.join

def set (k : Rack σ) (i : Nat) (r : Option (Ring σ)) : Rack σ :=
  ⟨k.rings.set i r⟩

def takeFrom : List (Option (Ring σ)) → Nat → Option (Ring σ) × List (Option (Ring σ))
  | [], _ => (none, [])
  | r :: rest, 0 => (r, none :: rest)
  | r :: rest, i + 1 =>
    let (taken, rest) := takeFrom rest i
    (taken, r :: rest)

/-- Takes a ring out of the rack, so that its cells can be changed in place. -/
def take (k : Rack σ) (i : Nat) : Option (Ring σ) × Rack σ :=
  let (taken, rings) := takeFrom k.rings i
  (taken, ⟨rings⟩)

omit [Cells σ α] in
theorem takeFrom_eq (rings : List (Option (Ring σ))) (i : Nat) :
    takeFrom rings i = (rings[i]?.join, rings.set i none) := by
  induction rings generalizing i with
  | nil => rfl
  | cons r rest ih =>
    cases i with
    | zero => cases r <;> rfl
    | succ i => simp [takeFrom, ih]

omit [Cells σ α] in
theorem take_eq (k : Rack σ) (i : Nat) : k.take i = (k.ring? i, k.set i none) := by
  simp [take, takeFrom_eq, ring?, set]

/-- Answers nothing when a ring asked for is not there, or is to be moved into itself. -/
def perform (k : Rack σ) : Request α → Effect (Rack σ) α (Option (Reply α))
  | .ring i q =>
    match k.take i with
    | (some r, k) =>
      let e := r.perform q
      ⟨k.set i (some e.after), some e.reply, e.destroyed⟩
    | (none, k) => ⟨k, none, []⟩
  | .pour i j =>
    match k.take i with
    | (some source, k) =>
      match k.take j with
      | (some target, k) =>
        let e := source.pour target
        ⟨(k.set i (some e.after.1)).set j (some e.after.2), some (.ofUnit e.reply), e.destroyed⟩
      | (none, k) => ⟨k.set i (some source), none, []⟩
    | (none, k) => ⟨k, none, []⟩
  | .copy i j =>
    match k.take j with
    | (some target, k) =>
      match k.ring? i with
      | some source =>
        let e := source.copy target
        ⟨k.set j (some e.after), some (.ofUnit e.reply), e.destroyed⟩
      | none => ⟨k.set j (some target), none, []⟩
    | (none, k) => ⟨k, none, []⟩
  | .drop i =>
    match k.take i with
    | (some r, k) => ⟨k, some .done, r.release⟩
    | (none, k) => ⟨k, none, []⟩

/-- Performs the requests in turn; each answer, if there is one, stands beside what was destroyed
for it. -/
def run (k : Rack σ) : List (Request α) → Rack σ × List (Option (Reply α) × List α)
  | [] => (k, [])
  | q :: qs =>
    let e := k.perform q
    let (last, rs) := run e.after qs
    (last, (e.reply, e.destroyed) :: rs)

end Rack

end BoundedBuffer.Ring
