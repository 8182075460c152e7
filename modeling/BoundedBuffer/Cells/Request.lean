import BoundedBuffer.Cells.Basic

namespace BoundedBuffer.Cells

inductive Request (α : Type u) where
  | write (index : Nat) (value : α)
  | take (index : Nat)
  | read (index : Nat)
  | reset
deriving DecidableEq

inductive Reply (α : Type u) where
  | done
  | held (value : Option α)
  | outOfRange (fault : OutOfRange)
deriving DecidableEq

variable {σ : Type u} {α : Type v} [Cells σ α]

def Reply.ofWrite : Except OutOfRange Unit → Reply α
  | .ok () => .done
  | .error e => .outOfRange e

def Reply.ofHeld : Except OutOfRange (Option α) → Reply α
  | .ok v => .held v
  | .error e => .outOfRange e

def perform (s : σ) : Request α → Effect σ α (Reply α)
  | .write i v => let e := write s i v; ⟨e.after, .ofWrite e.reply, e.destroyed⟩
  | .take i => let e := take s i; ⟨e.after, .ofHeld e.reply, e.destroyed⟩
  | .read i => ⟨s, .ofHeld (read s i), []⟩
  | .reset => let e := reset s; ⟨e.after, .done, e.destroyed⟩

/-- Performs the requests in turn; each answer stands beside what was destroyed for it. -/
def run (s : σ) : List (Request α) → σ × List (Reply α × List α)
  | [] => (s, [])
  | q :: qs =>
    let e := perform s q
    let (t, rs) := run e.after qs
    (t, (e.reply, e.destroyed) :: rs)

end BoundedBuffer.Cells
