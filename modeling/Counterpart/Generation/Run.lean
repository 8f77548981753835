/-
Whole runs. Around each phase a run calls hooks, which keep a state of their own and can end the run. The hook after
a phase is called only when the phase succeeds.
-/
import Counterpart.Generation.Phase

namespace Counterpart

/-- What happens around the phases of a run, with a state in `σ`. -/
structure Hooks (σ : Type) where
  /-- Where something is on disk. -/
  onDisk : σ → Path → Bool
  before : (phase : String) → Generation → σ → σ × Option Failure
  after : (phase : String) → Generation → σ → σ × Option Failure

/-- Nothing happens around the phases. -/
def Hooks.none (onDisk : Path → Bool) : Hooks Unit :=
  ⟨fun _ => onDisk, fun _ _ s => (s, .none), fun _ _ s => (s, .none)⟩

/-- Runs phases in turn until one of them or a hook fails. -/
def Hooks.runPhases {σ : Type} (h : Hooks σ) : List Phase → Generation → σ → σ × Except Failure Generation
  | [], g, s => (s, .ok g)
  | phase :: phases, g, s =>
    match h.before phase.name g s with
    | (s, some e) => (s, .error e)
    | (s, .none) =>
      match phase.run (h.onDisk s) g with
      | (_, some e) => (s, .error e)
      | (g, .none) =>
        match h.after phase.name g s with
        | (s, some e) => (s, .error e)
        | (s, .none) => h.runPhases phases g s

/-- A run over a project. The phases in `extra` follow the built-in ones. -/
def Hooks.run {σ : Type} (h : Hooks σ) (extra : List Phase) (project : Project) (options : Options) (s : σ) :
    σ × Except Failure Generation :=
  h.runPhases (Phase.builtin ++ extra) (.start project options) s

/-- A run with neither hooks nor further phases. -/
def generate (onDisk : Path → Bool) (project : Project) (options : Options) : Except Failure Generation :=
  ((Hooks.none onDisk).run [] project options ()).2

end Counterpart
