/-
What planning leaves behind. From no files, a plan names files that are there and hold nothing yet, and it names one
for the source file of every reachable class (`Planner.run_planned`). All of them are in the package of the selected class
(`Planner.run_inPackage`).
-/
import Counterpart.Plan
import Counterpart.Proofs.Address

namespace Counterpart

open Output

/-- What generation relies on: every file that the plan names is there, nothing is in the files, and every source file
of the classes has an output. -/
structure Planned (p : Project) (plan : Plan) (classes : List ClassId) (w : Workspace) : Prop where
  entity_lt : ∀ o ∈ plan.outputs, o.entity < w.files.size
  mapper_lt : ∀ o ∈ plan.outputs, o.mapper < w.files.size
  declarations : ∀ id, (w.file id).declarations = []
  functions : ∀ id, (w.file id).functions = []
  covers : ∀ c ∈ classes, (plan.output? (p.decl c).file).isSome = true

namespace Planned

variable {p : Project} {plan : Plan} {classes : List ClassId} {w : Workspace}

theorem empty : Planned p .empty [] .empty where
  entity_lt := by simp [Plan.empty]
  mapper_lt := by simp [Plan.empty]
  declarations := fun _ => rfl
  functions := fun _ => rfl
  covers := by simp

/-- A class of whose file something is planned has an entity file. -/
theorem exists_entityFile? (h : Planned p plan classes w) {c : ClassId} (hc : c ∈ classes) :
    ∃ file, plan.entityFile? (p.decl c).file = some file ∧ file < w.files.size := by
  obtain ⟨o, ho⟩ := Option.isSome_iff_exists.mp (h.covers c hc)
  exact ⟨o.entity, by rw [Plan.entityFile?, ho]; rfl, h.entity_lt o (List.mem_of_find?_eq_some ho)⟩

theorem mapperFile?_lt (h : Planned p plan classes w) {file mapper : OutputId}
    (hm : plan.mapperFile? file = some mapper) : mapper < w.files.size := by
  obtain ⟨o, ho, rfl⟩ := Option.map_eq_some_iff.mp hm
  exact h.mapper_lt o (List.mem_of_find?_eq_some ho)

theorem create (h : Planned p plan classes w) (path : Path) (package : String) (role : FileRole) :
    Planned p plan classes (w.create path package role) where
  entity_lt o ho := by
    rw [Workspace.size_create]
    exact Nat.lt_succ_of_lt (h.entity_lt o ho)
  mapper_lt o ho := by
    rw [Workspace.size_create]
    exact Nat.lt_succ_of_lt (h.mapper_lt o ho)
  declarations id := by
    rw [Workspace.file_create]
    split
    · rfl
    · exact h.declarations id
  functions id := by
    rw [Workspace.file_create]
    split
    · rfl
    · exact h.functions id
  covers := h.covers

theorem output?_concat (plan : Plan) (o : PlannedOutput) (origin : FileId) :
    Plan.output? ⟨plan.outputs ++ [o]⟩ origin = (plan.output? origin).or (if o.origin = origin then some o else none) := by
  rw [Plan.output?, Plan.output?, List.find?_append]
  by_cases h : o.origin = origin
  · simp [h]
  · simp [h]

theorem record (h : Planned p plan classes w) {o : PlannedOutput} {c : ClassId} (he : o.entity < w.files.size)
    (hm : o.mapper < w.files.size) (ho : o.origin = (p.decl c).file) :
    Planned p ⟨plan.outputs ++ [o]⟩ (classes ++ [c]) w where
  entity_lt := by simpa [or_imp, forall_and] using ⟨h.entity_lt, he⟩
  mapper_lt := by simpa [or_imp, forall_and] using ⟨h.mapper_lt, hm⟩
  declarations := h.declarations
  functions := h.functions
  covers d hd := by
    rw [output?_concat]
    rcases List.mem_append.mp hd with hd | hd
    · obtain ⟨o', ho'⟩ := Option.isSome_iff_exists.mp (h.covers d hd)
      rw [ho']
      rfl
    · rw [List.mem_singleton] at hd
      subst hd
      rw [if_pos ho]
      cases plan.output? (p.decl d).file <;> rfl

theorem cover (h : Planned p plan classes w) {c : ClassId} (hc : (plan.output? (p.decl c).file).isSome = true) :
    Planned p plan (classes ++ [c]) w :=
  { h with
    covers := fun d hd => by
      rcases List.mem_append.mp hd with hd | hd
      · exact h.covers d hd
      · rw [List.mem_singleton] at hd
        exact hd ▸ hc }

end Planned

namespace Planner

variable {pl : Planner} {s s' : State} {classes : List ClassId}

theorem reserve_planned {path : Path} {origin : FileId} {role : FileRole} {id : OutputId}
    (hs : Planned pl.project s.plan classes s.workspace) (h : pl.reserve path origin role s = .ok (s', id)) :
    s'.plan = s.plan ∧ Planned pl.project s.plan classes s'.workspace ∧ id < s'.workspace.files.size ∧
      s.workspace.files.size ≤ s'.workspace.files.size := by
  unfold reserve at h
  split at h
  · cases h
  split at h
  · cases h
  dsimp only at h
  split at h
  next found hfound =>
    cases h
    obtain ⟨hlt, -⟩ := Array.findIdx?_eq_some_iff_getElem.mp hfound
    exact ⟨rfl, hs, hlt, Nat.le_refl _⟩
  next =>
    cases h
    refine ⟨rfl, hs.create .., ?_, ?_⟩ <;> simp [Workspace.size_create]

theorem allocate_planned {c : ClassId} (hs : Planned pl.project s.plan classes s.workspace)
    (h : pl.allocate c s = (s', none)) : Planned pl.project s'.plan (classes ++ [c]) s'.workspace := by
  unfold allocate at h
  dsimp only at h
  split at h
  next hc => cases h; exact hs.cover hc
  split at h
  · cases h
  next s₁ entity h₁ =>
    obtain ⟨hplan₁, hs₁, hlt₁, -⟩ := reserve_planned hs h₁
    split at h
    next =>
      cases h
      rw [← hplan₁] at hs₁
      exact hs₁.record hlt₁ hlt₁ rfl
    next =>
      split at h
      · cases h
      next s₂ mapper h₂ =>
        cases h
        rw [← hplan₁] at hs₁
        obtain ⟨hplan₂, hs₂, hlt₂, hle⟩ := reserve_planned hs₁ h₂
        rw [← hplan₂] at hs₂
        exact hs₂.record (Nat.lt_of_lt_of_le hlt₁ hle) hlt₂ rfl

theorem allocateAll_planned {cs : List ClassId} (hs : Planned pl.project s.plan classes s.workspace)
    (h : pl.allocateAll cs s = (s', none)) : Planned pl.project s'.plan (classes ++ cs) s'.workspace := by
  induction cs generalizing s classes with
  | nil => cases h; simpa using hs
  | cons c cs ih =>
    rw [allocateAll] at h
    split at h
    · cases h
    next h₁ => simpa using ih (allocate_planned hs h₁) h

/-- **A plan made from no files** covers every reachable class with files that are there and hold nothing. -/
theorem run_planned {w : Workspace} {plan : Plan} (h : pl.run .empty = (w, .ok plan)) :
    Planned pl.project plan (pl.project.reachable pl.naming.root) w := by
  unfold run at h
  split at h
  · cases h
  next h₁ =>
    cases h
    simpa using allocateAll_planned (s := ⟨.empty, [], .empty⟩) Planned.empty h₁

/-! ## The package of the files -/

/-- Planning keeps what creating a file in the package of the selected class keeps. -/
structure Kept (pl : Planner) (P : Workspace → Prop) : Prop where
  create : ∀ {w} path role, P w → P (w.create path (pl.project.fileOf pl.naming.root).package role)

namespace Kept

variable {P : Workspace → Prop}

theorem reserve (hk : pl.Kept P) {path : Path} {origin : FileId} {role : FileRole} {id : OutputId} (hs : P s.workspace)
    (h : pl.reserve path origin role s = .ok (s', id)) : P s'.workspace := by
  unfold Planner.reserve at h
  split at h
  · cases h
  split at h
  · cases h
  dsimp only at h
  split at h
  · cases h; exact hs
  · cases h; exact hk.create _ _ hs

theorem allocate (hk : pl.Kept P) (c : ClassId) (hs : P s.workspace) : P (pl.allocate c s).1.workspace := by
  unfold Planner.allocate
  dsimp only
  split
  · exact hs
  split
  · exact hs
  next h₁ =>
    have hs₁ := hk.reserve hs h₁
    split
    · exact hs₁
    split
    · exact hs₁
    next h₂ =>
      have hs₂ := hk.reserve hs₁ h₂
      exact hs₂

theorem allocateAll (hk : pl.Kept P) (cs : List ClassId) (hs : P s.workspace) :
    P (pl.allocateAll cs s).1.workspace := by
  induction cs generalizing s with
  | nil => exact hs
  | cons c cs ih =>
    have hc := hk.allocate c hs
    rw [Planner.allocateAll]
    split
    next h => rw [h] at hc; exact hc
    next h => rw [h] at hc; exact ih hc

theorem run (hk : pl.Kept P) {w : Workspace} (hw : P w) : P (pl.run w).1 := by
  have := hk.allocateAll (s := ⟨.empty, [], w⟩) (pl.project.reachable pl.naming.root) hw
  unfold Planner.run
  split
  next h => rw [h] at this; exact this
  next h => rw [h] at this; exact this

end Kept

/-- All files are in the package of the selected class. -/
theorem run_inPackage {w : Workspace} {r : Except Failure Plan} (h : pl.run .empty = (w, r)) :
    w.InPackage (pl.project.fileOf pl.naming.root).package := by
  have hk : pl.Kept (·.InPackage (pl.project.fileOf pl.naming.root).package) := {
    create := fun path role => .create path role }
  have := hk.run (Workspace.inPackage_empty _)
  rwa [h] at this

end Planner

end Counterpart
