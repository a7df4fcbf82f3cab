import ShmSocket.Lib.StepMachine
import Mathlib.Data.List.Basic
import Mathlib.Tactic

/-! A bounded queue as an object. A `put` accepts any front part of what it is offered that
there is room for: it may accept nothing though there is room, for reasons of its own. A
`take` gets as many elements as it asks for and the queue has. -/
namespace BoundedFifo
open StepMachine
variable {α : Type*} {cap : ℕ}

inductive Op (α : Type*) where
  | put (offered : List α) (count : ℕ)
  | take (asked : ℕ) (got : List α)

/-- A queue of at most `cap` elements. -/
def fifo (α : Type*) [DecidableEq α] (cap : ℕ) : StepMachine (List α) (Op α) where
  init q := q = []
  step q
    | .put offered count =>
        if count ≤ offered.length ∧ q.length + count ≤ cap then some (q ++ offered.take count)
        else none
    | .take asked got => if got = q.take asked then some (q.drop asked) else none

variable [DecidableEq α] {q : List α}

theorem fifo_put {offered : List α} {count : ℕ} (hle : count ≤ offered.length)
    (hroom : q.length + count ≤ cap) :
    (fifo α cap).step q (.put offered count) = some (q ++ offered.take count) :=
  if_pos ⟨hle, hroom⟩

theorem fifo_take {asked : ℕ} {got : List α} (h : got = q.take asked) :
    (fifo α cap).step q (.take asked got) = some (q.drop asked) := if_pos h

end BoundedFifo
