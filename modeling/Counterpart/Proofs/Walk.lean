/-
Induction over the walk that generates the counterparts: what every step keeps holds at the end (`Kept.walk`), and a walk
fails at no step that its invariant lets succeed (`Kept.walk_ok`). `Ready` says that the steps stand in an order in which
what they read of the table is settled; the steps of a class do (`Ready.fieldSteps`).
-/
import Counterpart.Proofs.Placing

namespace Counterpart.Entity

open Kotlin Output

/-! ## Induction over the walk -/

namespace Generator

variable {g : Generator}

/-- A property of the classes that remain, the state and the steps to take, that every step keeps. -/
structure Kept (g : Generator) (P : List ClassId → State → List Step → Prop) : Prop where
  place : ∀ {remaining s s' c scope steps new}, c ∈ remaining → g.place c scope s = .ok (s', new) →
    P remaining s (.visit c scope :: steps) → P (remaining.erase c) s' (new ++ steps)
  known : ∀ {remaining s c scope steps}, c ∉ remaining →
    P remaining s (.visit c scope :: steps) → P remaining s steps
  field : ∀ {remaining s sc f steps}, P remaining s (.field sc f :: steps) → P remaining (g.addField sc f s) steps
  finish : ∀ {remaining s s' sc steps}, g.finish sc s = .ok s' →
    P remaining s (.finish sc :: steps) → P remaining s' steps

/-- What every step keeps holds when the walk is over. -/
theorem Kept.walk {P : List ClassId → State → List Step → Prop} (hk : g.Kept P) {remaining : List ClassId}
    {s s' : State} {steps : List Step} (h : P remaining s steps) (hw : g.walk remaining s steps = (s', none)) :
    ∃ rest, P rest s' [] := by
  fun_induction g.walk remaining s steps with
  | case1 remaining s => cases hw; exact ⟨remaining, h⟩
  | case2 => cases hw
  | case3 remaining s c scope steps hc s₁ new hp ih => exact ih (hk.place hc hp h) hw
  | case4 remaining s c scope steps hc ih => exact ih (hk.known hc h) hw
  | case5 remaining s sc f steps ih => exact ih (hk.field h) hw
  | case6 => cases hw
  | case7 remaining s sc steps s₁ hf ih => exact ih (hk.finish hf h) hw

/-- A walk all of whose steps succeed does not fail. -/
theorem Kept.walk_ok {P : List ClassId → State → List Step → Prop} (hk : g.Kept P)
    (hplace : ∀ {remaining s c scope steps}, c ∈ remaining → P remaining s (.visit c scope :: steps) →
      ∃ s' new, g.place c scope s = .ok (s', new))
    (hfinish : ∀ {remaining s sc steps}, P remaining s (.finish sc :: steps) → ∃ s', g.finish sc s = .ok s')
    {remaining : List ClassId} {s : State} {steps : List Step} (h : P remaining s steps) :
    ∃ s', g.walk remaining s steps = (s', none) := by
  fun_induction g.walk remaining s steps with
  | case1 remaining s => exact ⟨s, rfl⟩
  | case2 remaining s c scope steps hc e hp =>
    obtain ⟨s', new, hp'⟩ := hplace hc h
    rw [hp] at hp'
    cases hp'
  | case3 remaining s c scope steps hc s₁ new hp ih => exact ih (hk.place hc hp h)
  | case4 remaining s c scope steps hc ih => exact ih (hk.known hc h)
  | case5 remaining s sc f steps ih => exact ih (hk.field h)
  | case6 remaining s sc steps e hf =>
    obtain ⟨s', hf'⟩ := hfinish h
    rw [hf] at hf'
    cases hf'
  | case7 remaining s sc steps s₁ hf ih => exact ih (hk.finish hf h)

end Generator

/-! ## Steps in order -/

/-- The class in whose generation a step is taken. -/
def Step.scope? : Step → Option Scope
  | .visit _ scope => scope
  | .field scope _ => some scope
  | .finish scope => some scope

/-- Every step that reads what became of classes comes when these are `done` or after their visits. -/
def Ready (p : Project) : (done : ClassId → Prop) → List Step → Prop
  | _, [] => True
  | done, .visit c _ :: steps => Ready p (fun d => d = c ∨ done d) steps
  | done, .field sc f :: steps => (∀ d ∈ p.mentionedBy sc.source f, done d) ∧ Ready p done steps
  | done, .finish sc :: steps => (∀ d ∈ p.mentions sc.source, done d) ∧ Ready p done steps

namespace Ready

variable {p : Project}

theorem mono {done done' : ClassId → Prop} {steps : List Step} (hd : ∀ c, done c → done' c)
    (h : Ready p done steps) : Ready p done' steps := by
  induction steps generalizing done done' with
  | nil => trivial
  | cons step steps ih =>
    cases step with
    | visit c scope => exact ih (fun d => Or.imp_right (hd d)) h
    | field sc f => exact ⟨fun d hm => hd d (h.1 d hm), ih hd h.2⟩
    | finish sc => exact ⟨fun d hm => hd d (h.1 d hm), ih hd h.2⟩

theorem append {done : ClassId → Prop} {steps steps' : List Step} (h : Ready p done steps)
    (h' : Ready p done steps') : Ready p done (steps ++ steps') := by
  induction steps generalizing done with
  | nil => exact h'
  | cons step steps ih =>
    cases step with
    | visit c scope => exact ih h (h'.mono fun d => Or.inr)
    | field sc f => exact ⟨h.1, ih h.2 h'⟩
    | finish sc => exact ⟨h.1, ih h.2 h'⟩

theorem visits {done : ClassId → Prop} (cs : List ClassId) (scope : Option Scope) {steps : List Step}
    (h : Ready p (fun d => d ∈ cs ∨ done d) steps) : Ready p done (cs.map (Step.visit · scope) ++ steps) := by
  induction cs generalizing done with
  | nil => exact h.mono fun d hd => by simpa using hd
  | cons c cs ih =>
    refine ih (h.mono fun d hd => ?_)
    rcases hd with hd | hd
    · rcases List.mem_cons.mp hd with hd | hd
      · exact .inr (.inl hd)
      · exact .inl hd
    · exact .inr (.inr hd)

theorem fields {done : ClassId → Prop} (sc : Scope) (fs : List Field) {steps : List Step}
    (h : Ready p (fun d => d ∈ fs.flatMap (p.mentionedBy sc.source) ∨ done d) steps) :
    Ready p done ((fs.flatMap fun f =>
      (p.mentionedBy sc.source f).map (Step.visit · (some sc)) ++ [.field sc f]) ++ steps) := by
  induction fs generalizing done with
  | nil => exact h.mono fun d hd => by simpa using hd
  | cons f fs ih =>
    rw [List.flatMap_cons, List.append_assoc, List.append_assoc]
    refine visits _ _ ⟨fun d hd => .inl hd, ih (h.mono fun d hd => ?_)⟩
    rcases hd with hd | hd
    · rw [List.flatMap_cons] at hd
      rcases List.mem_append.mp hd with hd | hd
      · exact .inr (.inl hd)
      · exact .inl hd
    · exact .inr (.inr hd)

/-- The steps of a class visit what its fields name before they read what became of it. -/
theorem fieldSteps (g : Generator) (done : ClassId → Prop) (sc : Scope) :
    Ready g.project done (g.fieldSteps sc) :=
  fields sc _ ⟨fun _ hd => .inl hd, trivial⟩

end Ready

/-- The classes that a list of steps visits, in order. -/
def visits : List Step → List ClassId
  | [] => []
  | .visit c _ :: steps => c :: visits steps
  | .field .. :: steps => visits steps
  | .finish _ :: steps => visits steps

theorem visits_append (steps steps' : List Step) : visits (steps ++ steps') = visits steps ++ visits steps' := by
  induction steps with
  | nil => rfl
  | cons step steps ih => cases step <;> simp [visits, ih]

theorem visits_map (cs : List ClassId) (scope : Option Scope) : visits (cs.map (Step.visit · scope)) = cs := by
  induction cs with
  | nil => rfl
  | cons c cs ih => rw [List.map_cons, visits, ih]

theorem visits_fieldSteps (g : Generator) (sc : Scope) :
    visits (g.fieldSteps sc) = g.project.mentions sc.source := by
  rw [Generator.fieldSteps, visits_append, Project.mentions]
  generalize (g.project.decl sc.source).visibleFields = fs
  induction fs with
  | nil => rfl
  | cons f fs ih =>
    rw [List.flatMap_cons, visits_append, visits_append, visits_map, List.flatMap_cons, ← ih]
    simp [visits]

theorem scope?_fieldSteps {g : Generator} {sc : Scope} {step : Step} (h : step ∈ g.fieldSteps sc) :
    step.scope? = some sc := by
  simp only [Generator.fieldSteps, List.mem_append, List.mem_flatMap, List.mem_map, List.mem_singleton] at h
  rcases h with ⟨f, -, ⟨c, -, rfl⟩ | rfl⟩ | rfl <;> rfl

end Counterpart.Entity
