/-
Reserving output files. A plan that starts from no files takes the path of every file that it creates (`State.Fresh`), so it
never meets one of its own files again: a reserved path is always that of a new file (`reserve_eq`). So with separate files the
roles of the files tell those of functions from those of counterparts (`roles_of_run`).
-/
import Counterpart.Proofs.Planning

namespace Counterpart.Planner

open Output

/-- The path of every file is taken. -/
def State.Fresh (s : State) : Prop :=
  ∀ i < s.workspace.files.size, ∃ taken ∈ s.taken, taken.1 = (s.workspace.file i).path

variable {pl : Planner} {s s' : State}

/-- The state with a new file at the path. -/
def State.creating (pl : Planner) (path : Path) (origin : FileId) (role : FileRole) (s : State) : State :=
  ⟨s.plan, s.taken ++ [(path, origin)], s.workspace.create path (pl.project.fileOf pl.naming.root).package role⟩

theorem State.Fresh.creating (hs : s.Fresh) (path : Path) (origin : FileId) (role : FileRole) :
    (s.creating pl path origin role).Fresh := by
  intro i hi
  rw [State.creating, Workspace.size_create] at hi
  simp only [State.creating, Workspace.file_create]
  split
  · exact ⟨(path, origin), List.mem_append_right _ List.mem_cons_self, rfl⟩
  next hne =>
    obtain ⟨taken, htaken, hpath⟩ := hs i (Nat.lt_of_le_of_ne (Nat.le_of_lt_succ hi) hne)
    exact ⟨taken, List.mem_append_left _ htaken, hpath⟩

/-- **Reserving a path** fails when it is taken or on disk, and otherwise creates its file. -/
theorem reserve_eq (hs : s.Fresh) (path : Path) (origin : FileId) (role : FileRole) :
    pl.reserve path origin role s =
      match s.taken.find? fun taken => taken.1.same path with
      | some (_, first) => .error (.pathConflict path (pl.project.file first).path (pl.project.file origin).path)
      | none =>
        if !pl.overwrite && pl.onDisk path then .error (.fileExists path)
        else .ok (s.creating pl path origin role, s.workspace.files.size) := by
  rw [reserve]
  cases htaken : s.taken.find? fun taken => taken.1.same path with
  | some taken => rfl
  | none =>
    have hnew : s.workspace.findFile? path = none := by
      rw [Workspace.findFile?, Array.findIdx?_eq_none_iff]
      intro file hfile
      obtain ⟨i, hi, rfl⟩ := Array.getElem_of_mem hfile
      obtain ⟨taken, hmem, hpath⟩ := hs i hi
      rw [show s.workspace.files[i] = s.workspace.file i by simp [Workspace.file, hi], ← hpath]
      simpa using List.find?_eq_none.mp htaken taken hmem
    simp only [hnew]
    rfl

theorem reserve_ok {path : Path} {origin : FileId} {role : FileRole} {id : OutputId} (hs : s.Fresh)
    (h : pl.reserve path origin role s = .ok (s', id)) :
    s' = s.creating pl path origin role ∧ id = s.workspace.files.size := by
  rw [reserve_eq hs] at h
  split at h
  · cases h
  split at h
  · cases h
  · cases h
    exact ⟨rfl, rfl⟩

/-! ## Separate files -/

end Counterpart.Planner

namespace Counterpart

open Output

/-- The outputs are a file of counterparts and a file of functions. -/
structure PlannedOutput.HasRoles (o : PlannedOutput) (w : Workspace) : Prop where
  entity_lt : o.entity < w.files.size
  mapper_lt : o.mapper < w.files.size
  entity : (w.file o.entity).role = .entity
  mapper : (w.file o.mapper).role = .mapper

theorem PlannedOutput.HasRoles.create {o : PlannedOutput} {w : Workspace} (h : o.HasRoles w) (path : Path) (package : String)
    (role : FileRole) : o.HasRoles (w.create path package role) where
  entity_lt := by
    rw [Workspace.size_create]
    exact Nat.lt_succ_of_lt h.entity_lt
  mapper_lt := by
    rw [Workspace.size_create]
    exact Nat.lt_succ_of_lt h.mapper_lt
  entity := by
    rw [Workspace.file_create, if_neg (Nat.ne_of_lt h.entity_lt)]
    exact h.entity
  mapper := by
    rw [Workspace.file_create, if_neg (Nat.ne_of_lt h.mapper_lt)]
    exact h.mapper

end Counterpart

namespace Counterpart.Planner

open Output

variable {pl : Planner} {s s' : State}

/-- All planned files have the roles that they are planned for. -/
structure State.Roled (s : State) : Prop where
  fresh : s.Fresh
  outputs : ∀ o ∈ s.plan.outputs, o.HasRoles s.workspace

theorem State.Roled.allocate (hpl : pl.placement = .separate) (hs : s.Roled) {c : ClassId}
    (h : pl.allocate c s = (s', none)) : s'.Roled := by
  simp only [Planner.allocate, hpl] at h
  split at h
  · cases h
    exact hs
  split at h
  · cases h
  next s₁ entity h₁ =>
    split at h
    · cases h
    next s₂ mapper h₂ =>
      cases h
      obtain ⟨rfl, rfl⟩ := reserve_ok hs.fresh h₁
      obtain ⟨rfl, rfl⟩ := reserve_ok (hs.fresh.creating _ _ _) h₂
      refine ⟨(hs.fresh.creating _ _ _).creating _ _ _, fun o ho => ?_⟩
      rcases List.mem_append.mp ho with ho | ho
      · exact ((hs.outputs o ho).create _ _ _).create _ _ _
      · rw [List.mem_singleton.mp ho]
        exact {
          entity_lt := by simp only [record, State.creating, Workspace.size_create]; exact Nat.lt_add_of_pos_right Nat.two_pos
          mapper_lt := by simp only [record, State.creating, Workspace.size_create]; exact Nat.lt_succ_self _
          entity := by simp [record, State.creating, Workspace.size_create, Workspace.file_create]
          mapper := by simp [record, State.creating, Workspace.size_create, Workspace.file_create] }

theorem State.Roled.allocateAll (hpl : pl.placement = .separate) {cs : List ClassId} (hs : s.Roled)
    (h : pl.allocateAll cs s = (s', none)) : s'.Roled := by
  induction cs generalizing s with
  | nil =>
    cases h
    exact hs
  | cons c cs ih =>
    rw [Planner.allocateAll] at h
    split at h
    · cases h
    next s₁ h₁ => exact ih (hs.allocate hpl h₁) h

/-- **With separate files** every planned file has the role that it is planned for. -/
theorem roles_of_run {w : Workspace} {plan : Plan} (hpl : pl.placement = .separate) (h : pl.run .empty = (w, .ok plan)) :
    ∀ o ∈ plan.outputs, o.HasRoles w := by
  rw [run] at h
  split at h
  · cases h
  next s hs =>
    cases h
    have hstart : State.Roled ⟨.empty, [], .empty⟩ := ⟨nofun, nofun⟩
    exact (hstart.allocateAll hpl hs).outputs

end Counterpart.Planner
