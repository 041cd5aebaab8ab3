import BestFit.Failable.Pipeline
import BestFit.Failable.Relay
import BestFit.Proofs.Failable.Recording

/-!
# Pipelines and relays run in sequence

A pipeline does what its stages do in a row, however the tree joins them (`Pipeline.apply_stages`).
`Stages.Runs` says what that is call by call, and `Stages.IsRunBy` that a computation makes these
calls and no others, whatever the leaves do. A relay hands one value to its actions in a row
(`Relay.accept_eq`, `Relay.IsHandedBy`). Main statement: `Failable.sequential`.
-/
namespace BestFit

open Failable (InTurn recorded)

/-! ## Stages -/

namespace Stages

variable {L : Type → Type → Type} {σ ε ρ : Type} {α β γ δ : Type}

/-- The leaves in running order, each with the types that it leads from and to. -/
def leaves : {α β : Type} → Stages L α β → List (Σ α β : Type, L α β)
  | _, _, done => []
  | _, _, step f rest => ⟨_, _, f⟩ :: rest.leaves

/-- A leaf called on an argument. -/
structure Call (L : Type → Type → Type) : Type 1 where
  {dom cod : Type}
  leaf : L dom cod
  argument : dom

/-- The leaf that a call calls, with its types. -/
def Call.callee (c : Call L) : Σ α β : Type, L α β := ⟨c.dom, c.cod, c.leaf⟩

/-- How stages run on an argument from state `s`: the calls in order, what comes of them, and the
state left behind. The next stage gets what the one before gave, and a failure ends the run. -/
inductive Runs (run : {α β : Type} → L α β → α → Failable σ ε β) :
    {α β : Type} → Stages L α β → α → σ → List (Call L) → Except ε β → σ → Prop
  | done {α : Type} (a : α) (s : σ) : Runs @run done a s [] (.ok a) s
  | goOn {α β γ : Type} {f : L α β} {rest : Stages L β γ} {a : α} {b : β} {s s' t : σ}
      {calls : List (Call L)} {r : Except ε γ} (h : (run f a).runFrom s = (.ok b, s'))
      (hrest : Runs @run rest b s' calls r t) :
      Runs @run (step f rest) a s (⟨f, a⟩ :: calls) r t
  | stop {α β γ : Type} {f : L α β} {rest : Stages L β γ} {a : α} {e : ε} {s s' : σ}
      (h : (run f a).runFrom s = (.error e, s')) :
      Runs @run (step f rest) a s [⟨f, a⟩] (.error e) s'

variable {run : {α β : Type} → L α β → α → Failable σ ε β} {fs : Stages L α β} {a : α} {s t : σ}
  {calls : List (Call L)} {r : Except ε β}

theorem exists_runs (run : {α β : Type} → L α β → α → Failable σ ε β) (fs : Stages L α β) (a : α)
    (s : σ) : ∃ calls r t, fs.Runs @run a s calls r t := by
  induction fs generalizing s with
  | done => exact ⟨[], .ok a, s, .done a s⟩
  | step f rest ih =>
    cases h : (run f a).runFrom s with
    | mk r s' =>
      cases r with
      | error e => exact ⟨_, _, _, .stop h⟩
      | ok b =>
        obtain ⟨calls, r, t, hrest⟩ := ih b s'
        exact ⟨_, r, t, .goOn h hrest⟩

namespace Runs

/-- What is computed by running the stages is what comes of the calls. -/
theorem apply_eq (h : fs.Runs @run a s calls r t) : (fs.apply run a).runFrom s = (r, t) := by
  induction h with
  | done => rfl
  | goOn h _ ih => rw [apply, Failable.runFrom_bind_of_ok h, ih]
  | stop h => rw [apply, Failable.runFrom_bind_of_error h]

/-- With every call recorded, the stages run as before. -/
theorem recorded (line : {α β : Type} → L α β → α → ρ) (h : fs.Runs @run a s calls r t)
    (lines : List ρ) :
    fs.Runs (fun f a => Failable.recorded (line f a) (run f a)) a (s, lines) calls r
      (t, lines ++ calls.map fun c => line c.leaf c.argument) := by
  induction h generalizing lines with
  | done a s =>
    rw [List.map_nil, List.append_nil]
    exact .done a (s, lines)
  | goOn h _ ih =>
    rw [List.map_cons, List.append_cons]
    exact .goOn (by rw [Failable.runFrom_recorded, h]) (ih _)
  | stop h => exact .stop (by rw [Failable.runFrom_recorded, h]; rfl)

/-- The leaves called are the first of the stages, in their order. -/
theorem callees_prefix (h : fs.Runs @run a s calls r t) : calls.map Call.callee <+: fs.leaves := by
  induction h with
  | done => exact List.nil_prefix
  | goOn _ _ ih => exact (List.prefix_cons_inj _).mpr ih
  | stop => exact (List.prefix_cons_inj _).mpr List.nil_prefix

/-- Where nothing fails, every leaf is called. -/
theorem callees_eq {b : β} (h : fs.Runs @run a s calls (.ok b) t) :
    calls.map Call.callee = fs.leaves := by
  generalize hr : (Except.ok b : Except ε β) = r at h
  induction h with
  | done => rfl
  | goOn _ _ ih => exact congrArg _ (ih hr)
  | stop => cases hr

end Runs

/-- Whatever the leaves do, `x` runs the stages on `a`: there are calls for which it comes to what
they come to, and to which it leads if every call is recorded, one line a call. They are calls of
the first leaves, and of all of them unless one fails. -/
def IsRunBy (fs : Stages L α β) (a : α)
    (x : {σ ε : Type} → ({α β : Type} → L α β → α → Failable σ ε β) → Failable σ ε β) : Prop :=
  ∀ {σ ε : Type} (run : {α β : Type} → L α β → α → Failable σ ε β) (s : σ),
    ∃ calls r t, fs.Runs @run a s calls r t ∧ (x @run).runFrom s = (r, t) ∧
      calls.map Call.callee <+: fs.leaves ∧
      (∀ b, r = .ok b → calls.map Call.callee = fs.leaves) ∧
      ∀ {ρ : Type} (line : {α β : Type} → L α β → α → ρ) (lines : List ρ),
        (x fun f a => recorded (line f a) (run f a)).runFrom (s, lines) =
          (r, t, lines ++ calls.map fun c => line c.leaf c.argument)

theorem isRunBy_apply (fs : Stages L α β) (a : α) : fs.IsRunBy a fun run => fs.apply run a := by
  intro σ ε run s
  obtain ⟨calls, r, t, h⟩ := exists_runs @run fs a s
  refine ⟨calls, r, t, h, h.apply_eq, h.callees_prefix, ?_, fun line lines => ?_⟩
  · rintro b rfl
    exact h.callees_eq
  · exact (h.recorded line lines).apply_eq

/-! ### Joining stages -/

theorem append_done (fs : Stages L α β) : fs.append .done = fs := by
  induction fs with
  | done => rfl
  | step f rest ih => rw [append, ih]

theorem append_assoc (fs : Stages L α β) (gs : Stages L β γ) (hs : Stages L γ δ) :
    (fs.append gs).append hs = fs.append (gs.append hs) := by
  induction fs with
  | done => rfl
  | step f rest ih => rw [append, append, append, ih]

theorem apply_append (fs : Stages L α β) (gs : Stages L β γ) (a : α) :
    (fs.append gs).apply run a = fs.apply run a >>= gs.apply run := by
  induction fs with
  | done => exact (pure_bind a _).symm
  | step f rest ih => simp only [append, apply, ih, bind_assoc]

end Stages

/-! ## Pipelines -/

section

variable {L : Type → Type → Type} {σ ε : Type} {α β γ δ : Type}
  {run : {α β : Type} → L α β → α → Failable σ ε β}

/-- A pipeline does what its stages do. -/
theorem Pipeline.apply_stages (p : Pipeline L α β) (a : α) :
    p.apply run a = p.stages.apply run a := by
  induction p with
  | leaf f => exact (bind_pure _).symm
  | identity => rfl
  | andThen first next ihfirst ihnext =>
    simp only [apply, stages, Stages.apply_append, ihfirst, ihnext]
  | compose last before ihlast ihbefore =>
    simp only [apply, stages, Stages.apply_append, ihlast, ihbefore]

theorem BiPipeline.apply_stages (p : BiPipeline L α β γ) (a : α) (b : β) :
    p.apply run a b = p.stages.apply run (a, b) := by
  induction p with
  | leaf f => exact (bind_pure (run f (a, b))).symm
  | andThen first next ih =>
    simp only [apply, stages, Stages.apply_append, ih, Pipeline.apply_stages]

theorem Pipeline.isRunBy_apply (p : Pipeline L α β) (a : α) :
    p.stages.IsRunBy a fun run => p.apply run a := by
  intro σ ε run s
  simpa only [apply_stages] using p.stages.isRunBy_apply a @run s

theorem BiPipeline.isRunBy_apply (p : BiPipeline L α β γ) (a : α) (b : β) :
    p.stages.IsRunBy (a, b) fun run => p.apply run a b := by
  intro σ ε run s
  simpa only [apply_stages] using p.stages.isRunBy_apply (a, b) @run s

/-- Pipelines of the same stages are the same computation. -/
theorem Pipeline.apply_congr {p q : Pipeline L α β} (h : p.stages = q.stages) :
    p.apply run = q.apply run := by
  funext a
  rw [apply_stages, apply_stages, h]

theorem BiPipeline.apply_congr {p q : BiPipeline L α β γ} (h : p.stages = q.stages) :
    p.apply run = q.apply run := by
  funext a b
  rw [apply_stages, apply_stages, h]

end

/-! ## Relays -/

namespace Relay

variable {L σ ε α : Type} {hand : L → α → Failable σ ε Unit} {v : α} {s t : σ} {actions : List L}
  {calls : List (L × Except ε Unit)} {r : Except ε Unit}

/-- A relay hands the value to its actions one by one. -/
theorem accept_eq (p : Relay L) (v : α) :
    p.accept hand v = p.actions.forM fun l => hand l v := by
  induction p with
  | leaf l => exact (bind_pure _).symm
  | idle => rfl
  | andThen first next ihfirst ihnext =>
    simp only [accept, actions, ihfirst, ihnext]
    exact List.forM_append.symm

/-- Calls of actions in their order, up to the first that fails, and what comes of them. -/
inductive UpToFailure : List L → List (L × Except ε Unit) → Except ε Unit → Prop
  | done : UpToFailure [] [] (.ok ())
  | goOn {l : L} {actions : List L} {calls : List (L × Except ε Unit)} {r : Except ε Unit}
      (h : UpToFailure actions calls r) : UpToFailure (l :: actions) ((l, .ok ()) :: calls) r
  | stop {l : L} {actions : List L} {e : ε} :
      UpToFailure (l :: actions) [(l, .error e)] (.error e)

theorem exists_calls (hand : L → α → Failable σ ε Unit) (v : α) (actions : List L) (s : σ) :
    ∃ calls r t, InTurn hand v s calls t ∧ UpToFailure actions calls r := by
  induction actions generalizing s with
  | nil => exact ⟨[], .ok (), s, .nil s, .done⟩
  | cons l actions ih =>
    cases h : (hand l v).runFrom s with
    | mk r s' =>
      cases r with
      | error e => exact ⟨_, _, s', .single h, .stop⟩
      | ok u =>
        obtain ⟨calls, r, t, hcalls, hup⟩ := ih s'
        exact ⟨_, r, t, .cons h hcalls, .goOn hup⟩

namespace UpToFailure

/-- What is computed by handing the value over one by one is what comes of the calls. -/
theorem forM_eq (h : UpToFailure actions calls r) (hcalls : InTurn hand v s calls t) :
    (actions.forM fun l => hand l v).runFrom s = (r, t) := by
  induction h generalizing s with
  | done => cases hcalls; rfl
  | goOn _ ih =>
    cases hcalls with
    | cons hl hrest => exact (Failable.runFrom_bind_of_ok hl _).trans (ih hrest)
  | stop =>
    cases hcalls with
    | cons hl hrest =>
      cases hrest
      exact Failable.runFrom_bind_of_error hl _

theorem callees_prefix (h : UpToFailure actions calls r) : calls.map Prod.fst <+: actions := by
  induction h with
  | done => exact List.nil_prefix
  | goOn _ ih => exact (List.prefix_cons_inj _).mpr ih
  | stop => exact (List.prefix_cons_inj _).mpr List.nil_prefix

/-- Where nothing fails, every action is called. -/
theorem callees_eq (h : UpToFailure actions calls r) (hr : r = .ok ()) :
    calls.map Prod.fst = actions := by
  induction h with
  | done => rfl
  | goOn _ ih => exact congrArg _ (ih hr)
  | stop => cases hr

end UpToFailure

/-- Whatever the actions do, `x` hands the value to them: there are calls, all of them on that
value, for which it comes to what they come to, and to which it leads if every call is recorded. -/
def IsHandedBy (actions : List L) (v : α)
    (x : {σ ε : Type} → (L → α → Failable σ ε Unit) → Failable σ ε Unit) : Prop :=
  ∀ {σ ε : Type} (hand : L → α → Failable σ ε Unit) (s : σ),
    ∃ calls r t, InTurn hand v s calls t ∧ UpToFailure actions calls r ∧
      (x hand).runFrom s = (r, t) ∧ calls.map Prod.fst <+: actions ∧
      (r = .ok () → calls.map Prod.fst = actions) ∧
      ∀ lines, (x fun l v => recorded (l, v) (hand l v)).runFrom (s, lines) =
        (r, t, lines ++ calls.map fun c => (c.1, v))

theorem isHandedBy_accept (p : Relay L) (v : α) :
    IsHandedBy p.actions v fun hand => p.accept hand v := by
  intro σ ε hand s
  obtain ⟨calls, r, t, hcalls, hup⟩ := exists_calls hand v p.actions s
  refine ⟨calls, r, t, hcalls, hup, ?_, hup.callees_prefix, hup.callees_eq, fun lines => ?_⟩
  · show (p.accept hand v).runFrom s = (r, t)
    rw [accept_eq]
    exact hup.forM_eq hcalls
  · show (p.accept (fun l v => recorded (l, v) (hand l v)) v).runFrom (s, lines) = _
    rw [accept_eq]
    exact hup.forM_eq (hcalls.recorded Prod.mk lines)

/-- Relays of the same actions are the same computation. -/
theorem accept_congr {p q : Relay L} (h : p.actions = q.actions) :
    p.accept hand = q.accept hand := by
  funext v
  rw [accept_eq, accept_eq, h]

end Relay

/-! ## In sequence -/

/-- Pipelines of one argument and of two run their leaves in flattened order, each on what the one
before gave, up to the first failure; a relay runs its actions so, each on the same value. How they
were joined makes no difference to results and effects: joining is associative, what does nothing
is neutral on either side, and to compose is to join the other way round. -/
theorem Failable.sequential {L : Type → Type → Type} {K V σ ε : Type}
    (run : {α β : Type} → L α β → α → Failable σ ε β) (hand : K → V → Failable σ ε Unit) :
    (∀ {α β : Type} (p : Pipeline L α β) (a : α), p.stages.IsRunBy a fun run => p.apply run a) ∧
    (∀ {α β γ : Type} (p : BiPipeline L α β γ) (a : α) (b : β),
      p.stages.IsRunBy (a, b) fun run => p.apply run a b) ∧
    (∀ (p : Relay K) (v : V), Relay.IsHandedBy p.actions v fun hand => p.accept hand v) ∧
    (∀ {α β γ δ : Type} (p : Pipeline L α β) (q : Pipeline L β γ) (r : Pipeline L γ δ),
      ((p.andThen q).andThen r).apply run = (p.andThen (q.andThen r)).apply run) ∧
    (∀ {α β : Type} (p : Pipeline L α β), (Pipeline.identity.andThen p).apply run = p.apply run ∧
      (p.andThen .identity).apply run = p.apply run) ∧
    (∀ {α β γ : Type} (p : Pipeline L α β) (q : Pipeline L β γ),
      (q.compose p).apply run = (p.andThen q).apply run) ∧
    (∀ {α β γ δ η : Type} (p : BiPipeline L α β γ) (q : Pipeline L γ δ) (r : Pipeline L δ η),
      ((p.andThen q).andThen r).apply run = (p.andThen (q.andThen r)).apply run) ∧
    (∀ {α β γ : Type} (p : BiPipeline L α β γ), (p.andThen .identity).apply run = p.apply run) ∧
    (∀ p q r : Relay K,
      ((p.andThen q).andThen r).accept hand = (p.andThen (q.andThen r)).accept hand) ∧
    ∀ p : Relay K, (Relay.idle.andThen p).accept hand = p.accept hand ∧
      (p.andThen .idle).accept hand = p.accept hand := by
  refine ⟨fun p a => p.isRunBy_apply a, fun p a b => p.isRunBy_apply a b,
    fun p v => p.isHandedBy_accept v, fun p q r => ?_, fun p => ⟨?_, ?_⟩, fun p q => ?_,
    fun p q r => ?_, fun p => ?_, fun p q r => ?_, fun p => ⟨?_, ?_⟩⟩
  · exact Pipeline.apply_congr (Stages.append_assoc _ _ _)
  · exact Pipeline.apply_congr rfl
  · exact Pipeline.apply_congr (Stages.append_done _)
  · exact Pipeline.apply_congr rfl
  · exact BiPipeline.apply_congr (Stages.append_assoc _ _ _)
  · exact BiPipeline.apply_congr (Stages.append_done _)
  · exact Relay.accept_congr (List.append_assoc _ _ _)
  · exact Relay.accept_congr rfl
  · exact Relay.accept_congr (List.append_nil _)

end BestFit
