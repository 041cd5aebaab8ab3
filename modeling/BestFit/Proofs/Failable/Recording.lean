import BestFit.Failable

/-!
# Recorded calls

A computation made of calls is told by what it calls, and in which order. `recorded` keeps a list
beside the state and adds a line to it before a call is made; run with all its calls recorded, a
computation leaves behind the list of its calls. `InTurn` says what calls on one value come to when
they are made one after the other.
-/
namespace BestFit

namespace Failable

variable {σ ε ρ α β L : Type} {s s' t : σ}

/-- Adds a line to the list beside the state, then does what `x` does to the state. -/
def recorded (line : ρ) (x : Failable σ ε α) : Failable (σ × List ρ) ε α :=
  ExceptT.mk fun (s, lines) => let (r, t) := x.runFrom s; (r, t, lines ++ [line])

@[simp] theorem runFrom_recorded (line : ρ) (x : Failable σ ε α) (s : σ) (lines : List ρ) :
    (recorded line x).runFrom (s, lines) =
      ((x.runFrom s).1, (x.runFrom s).2, lines ++ [line]) := rfl

theorem runFrom_bind_of_ok {x : Failable σ ε α} {a : α} (h : x.runFrom s = (.ok a, t))
    (f : α → Failable σ ε β) : (x >>= f).runFrom s = (f a).runFrom t := by
  rw [runFrom_bind, h]

theorem runFrom_bind_of_error {x : Failable σ ε α} {e : ε} (h : x.runFrom s = (.error e, t))
    (f : α → Failable σ ε β) : (x >>= f).runFrom s = (.error e, t) := by
  rw [runFrom_bind, h]

/-- Calls on `a`, each with what it comes to: the first is made in state `s`, each later one in
the state that the one before leaves, and the last leaves `t`. -/
inductive InTurn (call : L → α → Failable σ ε β) (a : α) :
    σ → List (L × Except ε β) → σ → Prop
  | nil (s : σ) : InTurn call a s [] s
  | cons {s s' t : σ} {l : L} {r : Except ε β} {calls : List (L × Except ε β)}
      (h : (call l a).runFrom s = (r, s')) (hrest : InTurn call a s' calls t) :
      InTurn call a s ((l, r) :: calls) t

namespace InTurn

variable {call : L → α → Failable σ ε β} {a : α} {l : L} {r : Except ε β}
  {calls later : List (L × Except ε β)}

theorem single (h : (call l a).runFrom s = (r, t)) : InTurn call a s [(l, r)] t :=
  .cons h (.nil t)

theorem append (h : InTurn call a s calls s') (h' : InTurn call a s' later t) :
    InTurn call a s (calls ++ later) t := by
  induction h with
  | nil => exact h'
  | cons hcall _ ih => exact .cons hcall (ih h')

theorem of_append (h : InTurn call a s (calls ++ later) t) :
    ∃ s', InTurn call a s calls s' ∧ InTurn call a s' later t := by
  induction calls generalizing s with
  | nil => exact ⟨s, .nil s, h⟩
  | cons c calls ih =>
    cases h with
    | cons hcall hrest =>
      obtain ⟨s', hcalls, hlater⟩ := ih hrest
      exact ⟨s', .cons hcall hcalls, hlater⟩

/-- Recorded, the calls come to the same and leave one line each. -/
theorem recorded (line : L → α → ρ) (h : InTurn call a s calls t) (lines : List ρ) :
    InTurn (fun l a => Failable.recorded (line l a) (call l a)) a (s, lines) calls
      (t, lines ++ calls.map fun c => line c.1 a) := by
  induction h generalizing lines with
  | nil s =>
    rw [List.map_nil, List.append_nil]
    exact .nil (s, lines)
  | cons h _ ih =>
    rw [List.map_cons, List.append_cons]
    exact .cons (by rw [runFrom_recorded, h]) (ih _)

end InTurn

end Failable

end BestFit
