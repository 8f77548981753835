/-
All functions of a workspace. Declarations and imports come and go without them; adding a function adds that one
(`functions_addFunction`). So the walk that generates the counterparts leaves them as they are (`functions_walk`).
-/
import Counterpart.Proofs.Walk

namespace Counterpart.Output.Workspace

open Kotlin

/-- The functions of all files. -/
def functions (w : Workspace) : List Function := w.files.toList.flatMap (·.functions)

theorem functions_file_of_functions {w : Workspace} (h : w.functions = []) (i : OutputId) : (w.file i).functions = [] := by
  by_cases hi : i < w.files.size
  · refine List.flatMap_eq_nil_iff.mp h (w.file i) ?_
    simp [Workspace.file, hi]
  · simp [Workspace.file, hi]
    rfl

/-- Changing a file changes its stretch of the functions. -/
theorem functions_updateFile (w : Workspace) {id : OutputId} (f : File → File) (h : id < w.files.size) :
    ∃ before after, w.functions = before ++ (w.file id).functions ++ after ∧
      (w.updateFile id f).functions = before ++ (f (w.file id)).functions ++ after := by
  have h' : id < w.files.toList.length := by simpa using h
  have hfile : w.file id = w.files.toList[id] := by simp [file, h]
  refine ⟨(w.files.toList.take id).flatMap (·.functions), (w.files.toList.drop (id + 1)).flatMap (·.functions), ?_, ?_⟩
  · have hsplit : w.files.toList = w.files.toList.take id ++ w.files.toList[id] :: w.files.toList.drop (id + 1) := by
      rw [← List.drop_eq_getElem_cons h', List.take_append_drop]
    have := congrArg (List.flatMap (·.functions)) hsplit
    rw [functions, hfile, this, List.flatMap_append, List.flatMap_cons, List.append_assoc]
  · rw [functions, updateFile, Array.toList_modify, List.modify_eq_take_cons_drop h', hfile, List.flatMap_append,
      List.flatMap_cons, List.append_assoc]

theorem updateFile_of_size_le {w : Workspace} {id : OutputId} {f : File → File} (h : w.files.size ≤ id) :
    w.updateFile id f = w := by
  have : w.files.modify id f = w.files := Array.ext (by simp) fun i h₁ h₂ => by
    rw [Array.getElem_modify, if_neg]
    rintro rfl
    exact absurd h₂ (Nat.not_lt.mpr h)
  rw [updateFile, this]

theorem functions_updateFile_of_keep (w : Workspace) (id : OutputId) {f : File → File}
    (hf : ∀ file, (f file).functions = file.functions) : (w.updateFile id f).functions = w.functions := by
  rcases Nat.lt_or_ge id w.files.size with h | h
  · obtain ⟨before, after, hw, hw'⟩ := functions_updateFile w f h
    rw [hw', hw, hf]
  · rw [updateFile_of_size_le h]

theorem functions_addFunction (w : Workspace) {id : OutputId} (f : Function) (h : id < w.files.size) :
    (w.addFunction id f).functions.Perm (w.functions ++ [f]) := by
  obtain ⟨before, after, hw, hw'⟩ := functions_updateFile w (fun file => { file with functions := file.functions ++ [f] }) h
  rw [addFunction, hw', hw]
  simp only [List.append_assoc]
  exact (List.perm_append_comm.append_left _).append_left _

theorem functions_updateDeclaration {w w' : Workspace} {r : Ref} {f : Declaration → Declaration}
    (h : w.updateDeclaration r f = .ok w') : w'.functions = w.functions := by
  obtain ⟨ds, -, rfl⟩ := updateDeclaration_eq_ok.mp h
  exact functions_updateFile_of_keep w _ fun _ => rfl

theorem functions_addDeclaration {w w' : Workspace} {place : Place} {d : Declaration}
    (h : w.addDeclaration place d = .ok w') : w'.functions = w.functions := by
  cases place with
  | topLevel file => cases h; exact functions_updateFile_of_keep w _ fun _ => rfl
  | inside parent => exact functions_updateDeclaration h

theorem functions_foldl {α : Type} {f : Workspace → α → Workspace} (h : ∀ w a, (f w a).functions = w.functions)
    (as : List α) (w : Workspace) : (as.foldl f w).functions = w.functions := by
  induction as generalizing w with
  | nil => rfl
  | cons a as ih => rw [List.foldl_cons, ih, h]

theorem functions_addImport (w : Workspace) (id : OutputId) (i : Import) : (w.addImport id i).functions = w.functions :=
  functions_updateFile_of_keep w id fun f => by split <;> rfl

theorem functions_addReference (w : Workspace) (id : OutputId) (name : String) :
    (w.addReference id name).functions = w.functions :=
  functions_updateFile_of_keep w id fun _ => rfl

theorem functions_addReferences (w : Workspace) (id : OutputId) (names : List String) :
    (w.addReferences id names).functions = w.functions := by
  rw [addReferences]
  exact functions_foldl (fun w name => functions_addReference w id name) names w

end Counterpart.Output.Workspace

namespace Counterpart.Entity.Generator

open Output

variable {g : Generator}

theorem functions_addField (sc : Scope) (f : Kotlin.Field) (s : State) :
    (g.addField sc f s).workspace.functions = s.workspace.functions := by
  rw [workspace_addField, Workspace.functions_addReferences]

/-- The walk leaves the functions as they are. -/
theorem functions_walk {remaining : List ClassId} {s s' : State} {steps : List Step}
    (h : g.walk remaining s steps = (s', none)) : s'.workspace.functions = s.workspace.functions := by
  have hk : g.Kept fun _ t _ => t.workspace.functions = s.workspace.functions := {
    place := fun {_ t _ _ _ _ _} _ hp ht => by
      obtain ⟨place, -, ⟨-, -, _, rfl⟩ | ⟨-, target, w, -, hw, -, rfl⟩⟩ := place_cases hp
      · exact ht
      · exact ((Workspace.functions_foldl (fun w i => Workspace.functions_addImport w _ i) _ w).trans
          (Workspace.functions_addDeclaration hw)).trans ht
    known := fun _ ht => ht
    field := fun ht => (functions_addField ..).trans ht
    finish := fun hf ht => by
      obtain ⟨-, ⟨_, -, -, hw⟩, -⟩ := finish_cases hf
      exact (Workspace.functions_updateDeclaration hw).trans ht }
  exact (hk.walk rfl h).elim fun _ h => h

end Counterpart.Entity.Generator
