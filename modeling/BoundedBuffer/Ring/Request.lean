import BoundedBuffer.Ring.Walk

namespace BoundedBuffer.Ring

inductive Request (α : Type u) where
  | put (value : α)
  | get
  | peek
  | putAll (values : List α)
  | putArray (values : Array α)
  | clear
  | walk (steps : Nat)
  | values
  | drain (steps : Nat)
deriving DecidableEq

inductive Reply (α : Type u) where
  | done
  | fault (fault : Fault α)
  | value (value : α)
  | intake (fault : Option (Fault α)) (unread : List α)
  | trail (trail : Trail α)
  | values (values : List α)
deriving DecidableEq

namespace Reply

variable {α : Type u}

def ofUnit : Except (Fault α) Unit → Reply α
  | .ok () => .done
  | .error e => .fault e

def ofValue : Except (Fault α) α → Reply α
  | .ok v => .value v
  | .error e => .fault e

def ofIntake : Except (Fault α) Unit × List α → Reply α
  | (.ok (), unread) => .intake none unread
  | (.error e, unread) => .intake (some e) unread

def ofTrail : Except (Fault α) (Trail α) → Reply α
  | .ok t => .trail t
  | .error e => .fault e

def ofValues : Except (Fault α) (List α) → Reply α
  | .ok vs => .values vs
  | .error e => .fault e

end Reply

variable {σ : Type u} {α : Type v} [Cells σ α]

def perform (r : Ring σ) : Request α → Effect (Ring σ) α (Reply α)
  | .put v => let e := r.put v; ⟨e.after, .ofUnit e.reply, e.destroyed⟩
  | .get => let e := r.get; ⟨e.after, .ofValue e.reply, e.destroyed⟩
  | .peek => ⟨r, .ofValue r.peek, []⟩
  | .putAll vs => let e := r.putAll vs; ⟨e.after, .ofIntake e.reply, e.destroyed⟩
  | .putArray vs => let e := r.putArray vs; ⟨e.after, .ofUnit e.reply, e.destroyed⟩
  | .clear => let e := r.clear; ⟨e.after, .done, e.destroyed⟩
  | .walk n => ⟨r, .ofTrail (r.walk n), []⟩
  | .values => ⟨r, .ofValues r.values, []⟩
  | .drain n => let e := r.drain n; ⟨e.after, .ofTrail e.reply, e.destroyed⟩

/-- Performs the requests in turn; each answer stands beside what was destroyed for it. -/
def run (r : Ring σ) : List (Request α) → Ring σ × List (Reply α × List α)
  | [] => (r, [])
  | q :: qs =>
    let e := r.perform q
    let (t, rs) := run e.after qs
    (t, (e.reply, e.destroyed) :: rs)

end BoundedBuffer.Ring
