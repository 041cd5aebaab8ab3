import BestFit.Failable

/-! Pipelines: stages run one after another, each on the result of the one before.
A pipeline is a tree over leaves of type `L α β`; what a leaf does is said when the
pipeline is run. A leaf of two arguments takes them as a pair. -/
namespace BestFit

/-- A pipeline from `α` to `β`. -/
inductive Pipeline (L : Type → Type → Type) : Type → Type → Type 1 where
  | leaf {α β : Type} (f : L α β) : Pipeline L α β
  | identity {α : Type} : Pipeline L α α
  | andThen {α β γ : Type} (first : Pipeline L α β) (next : Pipeline L β γ) : Pipeline L α γ
  /-- The second operand runs first. -/
  | compose {α β γ : Type} (last : Pipeline L β γ) (before : Pipeline L α β) : Pipeline L α γ

/-- A pipeline of two arguments: a leaf takes both, pipelines take what comes of it. -/
inductive BiPipeline (L : Type → Type → Type) (α β : Type) : Type → Type 1 where
  | leaf {γ : Type} (f : L (α × β) γ) : BiPipeline L α β γ
  | andThen {γ δ : Type} (first : BiPipeline L α β γ) (next : Pipeline L γ δ) : BiPipeline L α β δ

/-- The leaves of a pipeline in the order in which they run. -/
inductive Stages (L : Type → Type → Type) : Type → Type → Type 1 where
  | done {α : Type} : Stages L α α
  | step {α β γ : Type} (f : L α β) (rest : Stages L β γ) : Stages L α γ

namespace Stages

variable {L : Type → Type → Type}

/-- The stages of one list after those of another. -/
def append : {α β γ : Type} → Stages L α β → Stages L β γ → Stages L α γ
  | _, _, _, done, rest => rest
  | _, _, _, step f fs, rest => step f (fs.append rest)

/-- Runs the stages in order, each on the result of the one before, up to the first
failure. -/
def apply {σ ε : Type} (run : {α β : Type} → L α β → α → Failable σ ε β) :
    {α β : Type} → Stages L α β → α → Failable σ ε β
  | _, _, done, a => pure a
  | _, _, step f rest, a => do rest.apply run (← run f a)

end Stages

namespace Pipeline

variable {L : Type → Type → Type}

/-- Runs a pipeline: the second of two parts runs only if the first succeeds. -/
def apply {σ ε : Type} (run : {α β : Type} → L α β → α → Failable σ ε β) :
    {α β : Type} → Pipeline L α β → α → Failable σ ε β
  | _, _, leaf f, a => run f a
  | _, _, identity, a => pure a
  | _, _, andThen first next, a => do next.apply run (← first.apply run a)
  | _, _, compose last before, a => do last.apply run (← before.apply run a)

/-- The leaves in running order. -/
def stages : {α β : Type} → Pipeline L α β → Stages L α β
  | _, _, leaf f => .step f .done
  | _, _, identity => .done
  | _, _, andThen first next => first.stages.append next.stages
  | _, _, compose last before => before.stages.append last.stages

end Pipeline

namespace BiPipeline

variable {L : Type → Type → Type} {α β : Type}

/-- Runs a pipeline of two arguments: what comes next runs only if the first part succeeds. -/
def apply {σ ε : Type} (run : {α β : Type} → L α β → α → Failable σ ε β) :
    {γ : Type} → BiPipeline L α β γ → α → β → Failable σ ε γ
  | _, leaf f, a, b => run f (a, b)
  | _, andThen first next, a, b => do next.apply run (← first.apply run a b)

/-- The leaves in running order, the first one on the pair of both arguments. -/
def stages : {γ : Type} → BiPipeline L α β γ → Stages L (α × β) γ
  | _, leaf f => .step f .done
  | _, andThen first next => first.stages.append next.stages

end BiPipeline

end BestFit
