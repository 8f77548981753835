/-
What serving the queue generates, in order. Which functions come out depends on the project and the table alone
(`Setting.drafts`); the plan only says which file each of them goes into (`serve_eq`). So a file ends with the functions that
are destined for it, in the order of the queue, after those that it had (`file_afterDrafts`).
-/
import Counterpart.Proofs.Queue

namespace Counterpart.Mapper

open Kotlin Output Entity

namespace Setting

variable (g : Setting)

/-- The functions that serving the queue generates, and the failure that ends it. -/
def drafts (remaining : List ClassId) : (queue : List ClassId) → List Draft × Option Failure
  | [] => ([], none)
  | c :: queue =>
    match g.draft? c with
    | .error e => ([], some e)
    | .ok none => drafts remaining queue
    | .ok (some d) => (drafts (enqueue d.calls remaining queue).1 (enqueue d.calls remaining queue).2).map (d :: ·) id
termination_by queue => remaining.length + queue.length
decreasing_by
  · simp
  · rw [length_enqueue]; simp

/-- The functions of a run. -/
def allDrafts : List Draft × Option Failure :=
  let start := enqueue [g.naming.root] (List.range g.project.classes.size) []
  g.drafts start.1 start.2

/-- The state with the functions put into their files, one after the other. -/
def afterDrafts (plan : Plan) (s : State) (ds : List Draft) : State := ds.foldl (fun s d => s.addDraft plan d) s

variable {g} {plan : Plan}

/-- **Serving the queue** puts its functions into their files. -/
theorem serve_eq (remaining : List ClassId) (s : State) (queue : List ClassId) :
    g.serve plan remaining s queue = (afterDrafts plan s (g.drafts remaining queue).1, (g.drafts remaining queue).2) := by
  fun_induction g.serve plan remaining s queue with
  | case1 remaining s =>
    rw [drafts]
    rfl
  | case2 remaining s c queue e hd =>
    rw [drafts, hd]
    rfl
  | case3 remaining s c queue hd ih => rw [drafts, hd, ih]
  | case4 remaining s c queue d hd ih =>
    rw [drafts, hd, ih]
    rfl

theorem run_eq (w : Workspace) :
    g.run plan w = match g.allDrafts with
      | (ds, some e) => ((afterDrafts plan ⟨w, []⟩ ds).workspace, .error e)
      | (ds, none) => ((afterDrafts plan ⟨w, []⟩ ds).workspace, .ok (afterDrafts plan ⟨w, []⟩ ds).diagnostics) := by
  rw [run, serve_eq, allDrafts]
  generalize g.drafts _ _ = r
  obtain ⟨ds, o⟩ := r
  cases o <;> rfl

theorem run_ok {w w' : Workspace} {messages : List Diagnostic} (h : g.run plan w = (w', .ok messages)) :
    w' = (afterDrafts plan ⟨w, []⟩ g.allDrafts.1).workspace ∧
      messages = (afterDrafts plan ⟨w, []⟩ g.allDrafts.1).diagnostics := by
  rw [run_eq] at h
  generalize g.allDrafts = r at h
  obtain ⟨ds, o⟩ := r
  cases o with
  | none =>
    cases h
    exact ⟨rfl, rfl⟩
  | some e => cases h

/-- Every function that serving generates is that of a class with a counterpart. -/
theorem exists_of_mem_drafts {remaining queue : List ClassId} {d : Draft} (hd : d ∈ (g.drafts remaining queue).1) :
    ∃ c r, g.table.ref? c = some r ∧ d = g.draft c r := by
  fun_induction g.drafts remaining queue with
  | case1 => cases hd
  | case2 => cases hd
  | case3 remaining c queue hnone ih => exact ih hd
  | case4 remaining c queue d' hsome ih =>
    rcases List.mem_cons.mp hd with rfl | hd
    · obtain ⟨target, htarget, rfl⟩ : ∃ target, g.table.outcome? c = some (.generated target) ∧ d = g.draft c target := by
        rw [draft?] at hsome
        split at hsome
        next target htarget => cases hsome; exact ⟨target, htarget, rfl⟩
        · cases hsome
        · cases hsome
      refine ⟨c, target, ?_, rfl⟩
      rw [Table.ref?, htarget]
      rfl
    · exact ih hd

end Setting

/-! ## Files -/

/-- The file with a function and what the function needs imported. -/
def Draft.addTo (file : File) (d : Draft) : File :=
  { file with
    imports := d.imports.foldl (fun i name => i.addReference name file.package) file.imports
    functions := file.functions ++ [d.function] }

end Counterpart.Mapper

namespace Counterpart.Output.Workspace

theorem file_addReferences (w : Workspace) (id i : OutputId) (names : List String) :
    (w.addReferences id names).file i = if i = id ∧ i < w.files.size then
      { w.file i with imports := names.foldl (fun s name => s.addReference name (w.file i).package) (w.file i).imports }
      else w.file i := by
  rw [addReferences]
  induction names generalizing w with
  | nil => simp
  | cons name names ih =>
    rw [List.foldl_cons, ih, addReference, file_updateFile, size_updateFile]
    by_cases hi : i = id ∧ i < w.files.size
    · simp only [if_pos hi, List.foldl_cons]
    · simp only [if_neg hi]

end Counterpart.Output.Workspace

namespace Counterpart.Mapper.Setting

open Output

variable {plan : Plan}

theorem file_addDraft (s : State) (d : Draft) (i : OutputId) :
    (s.addDraft plan d).workspace.file i =
      if i = fileOf plan d.target ∧ i < s.workspace.files.size then d.addTo (s.workspace.file i) else s.workspace.file i := by
  have hsize : (s.workspace.addReferences (fileOf plan d.target) d.imports).files.size = s.workspace.files.size :=
    (Workspace.SameDeclarations.addReferences ..).size
  rw [show (s.addDraft plan d).workspace =
      (s.workspace.addReferences (fileOf plan d.target) d.imports).addFunction (fileOf plan d.target) d.function from rfl,
    Workspace.addFunction, Workspace.file_updateFile, hsize, Workspace.file_addReferences]
  split <;> rfl

theorem size_afterDrafts (s : State) (ds : List Draft) :
    (afterDrafts plan s ds).workspace.files.size = s.workspace.files.size := by
  induction ds generalizing s with
  | nil => rfl
  | cons d ds ih => exact (ih (s.addDraft plan d)).trans (same_addDraft plan d s).size

/-- The functions that go into the file `i`. -/
def destined (plan : Plan) (i : OutputId) (ds : List Draft) : List Draft := ds.filter fun d => fileOf plan d.target == i

theorem file_afterDrafts_eq_foldl {s : State} {i : OutputId} (hi : i < s.workspace.files.size) (ds : List Draft) :
    (afterDrafts plan s ds).workspace.file i =
      (destined plan i ds).foldl Draft.addTo (s.workspace.file i) := by
  induction ds generalizing s with
  | nil => rfl
  | cons d ds ih =>
    have hstep := ih (s := s.addDraft plan d) ((same_addDraft plan d s).size.symm ▸ hi)
    rw [file_addDraft] at hstep
    rw [show afterDrafts plan s (d :: ds) = afterDrafts plan (s.addDraft plan d) ds from rfl, hstep, destined, destined,
      List.filter_cons]
    by_cases hd : fileOf plan d.target = i
    · simp [hd, hi]
    · simp [hd, Ne.symm hd]

/-- Functions put into a file change its functions and imports alone. -/
theorem foldl_addTo (ds : List Draft) (file : File) :
    ds.foldl (fun file d => d.addTo file) file = { file with
      imports := (ds.flatMap (·.imports)).foldl (fun i name => i.addReference name file.package) file.imports
      functions := file.functions ++ ds.map (·.function) } := by
  induction ds generalizing file with
  | nil => simp
  | cons d ds ih =>
    rw [List.foldl_cons, ih]
    simp [Draft.addTo]

/-- **A file ends** with the functions that are destined for it and what they need imported. -/
theorem file_afterDrafts {s : State} {i : OutputId} (hi : i < s.workspace.files.size) (ds : List Draft) :
    (afterDrafts plan s ds).workspace.file i = { s.workspace.file i with
      imports := ((destined plan i ds).flatMap (·.imports)).foldl
        (fun is name => is.addReference name (s.workspace.file i).package) (s.workspace.file i).imports
      functions := (s.workspace.file i).functions ++ (destined plan i ds).map (·.function) } := by
  rw [file_afterDrafts_eq_foldl hi, foldl_addTo]

theorem diagnostics_afterDrafts (s : State) (ds : List Draft) :
    (afterDrafts plan s ds).diagnostics = s.diagnostics ++ ds.flatMap (·.diagnostics) := by
  induction ds generalizing s with
  | nil => simp [afterDrafts]
  | cons d ds ih =>
    rw [show afterDrafts plan s (d :: ds) = afterDrafts plan (s.addDraft plan d) ds from rfl, ih, State.addDraft,
      List.append_assoc, List.flatMap_cons]

end Counterpart.Mapper.Setting
