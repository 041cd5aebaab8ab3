import BestFit.Failable

/-! Formulas: tests joined by negation, conjunction and disjunction. A test may fail
or leave effects, so a formula runs only the tests whose outcome it needs, from the
left. -/
namespace BestFit

/-- A formula over tests of type `L`. -/
inductive Formula (L : Type) where
  | leaf (test : L)
  | negate (inner : Formula L)
  | and (left right : Formula L)
  | or (left right : Formula L)
deriving Repr

namespace Formula

variable {L σ ε α : Type}

/-- Runs a formula on a value. The right side of a conjunction runs only if the left
held, that of a disjunction only if the left did not. -/
def test (run : L → α → Failable σ ε Bool) : Formula L → α → Failable σ ε Bool
  | leaf l, a => run l a
  | negate p, a => do return !(← p.test run a)
  | and p q, a => do
      let holds ← p.test run a
      if holds then q.test run a else return false
  | or p q, a => do
      let holds ← p.test run a
      if holds then return true else q.test run a

/-- The truth value of a formula under a valuation of its tests. -/
def eval (value : L → Bool) : Formula L → Bool
  | leaf l => value l
  | negate p => !p.eval value
  | and p q => p.eval value && q.eval value
  | or p q => p.eval value || q.eval value

end Formula

end BestFit
