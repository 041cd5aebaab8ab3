import BestFit.Failable

/-! Relays: actions run for their effect, all on the same value. -/
namespace BestFit

/-- A relay over actions of type `L`. -/
inductive Relay (L : Type) where
  | leaf (action : L)
  /-- Does nothing and never fails. -/
  | idle
  | andThen (first next : Relay L)
deriving Repr

namespace Relay

variable {L σ ε α : Type}

/-- Hands a value to every action in turn, up to the first failure. -/
def accept (run : L → α → Failable σ ε Unit) : Relay L → α → Failable σ ε Unit
  | leaf l, a => run l a
  | idle, _ => pure ()
  | andThen first next, a => do
      first.accept run a
      next.accept run a

/-- The actions in running order. -/
def actions : Relay L → List L
  | leaf l => [l]
  | idle => []
  | andThen first next => first.actions ++ next.actions

end Relay

/-- The measure of two arguments that is zero whatever they are. -/
def zeroMeasure {σ ε α β : Type} (_ : α) (_ : β) : Failable σ ε Int64 := pure 0

end BestFit
