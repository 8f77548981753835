/-
The files of a plan that starts from none. They are those that were asked for, in this order (`Planner.files_stageAll`), so a path
leads to the file in the position of its request. The plan has one entry for each source file of a reachable class, named after the
first such class, and its entries number all files (`Planner.run_outputs`).
-/
import Mathlib.Data.List.Induction
import Counterpart.Proofs.Requests
import Counterpart.Proofs.Run
import Counterpart.Proofs.Siblings

namespace Counterpart

open Output

/-! ## The first of each kind -/

section

variable {α β : Type} [BEq β] (key : α → β)

theorem map_eraseDupsBy : ∀ l : List α, (l.eraseDupsBy fun a b => key a == key b).map key = (l.map key).eraseDups
  | [] => rfl
  | a :: l => by
    rw [List.eraseDupsBy_cons, List.map_cons, List.map_cons, List.eraseDups_cons, map_eraseDupsBy (l.filter _), List.filter_map]
    refine congrArg (fun rest => key a :: (rest.map key).eraseDups) (List.filter_congr fun b _ => ?_)
    simp
termination_by l => l.length
decreasing_by exact Nat.lt_succ_of_le (List.length_filter_le _ _)

theorem find?_of_mem_eraseDupsBy [LawfulBEq β] {c : α} :
    ∀ l : List α, c ∈ (l.eraseDupsBy fun a b => key a == key b) → l.find? (fun a => key a == key c) = some c
  | [], h => by cases h
  | a :: l, h => by
    rw [List.eraseDupsBy_cons, List.mem_cons] at h
    rcases h with rfl | h
    · exact List.find?_cons_of_pos (beq_self_eq_true _)
    · have hrest := find?_of_mem_eraseDupsBy (l.filter _) h
      have hc := (List.mem_filter.mp (List.mem_of_find?_eq_some hrest)).2
      have hne : key c ≠ key a := by simpa using hc
      rw [List.find?_cons_of_neg (by simpa using hne.symm), ← hrest, List.find?_filter]
      refine congrArg (List.find? · l) (funext fun b => ?_)
      by_cases hb : key b = key c
      · simp [hb, hne]
      · simp [hb]
termination_by l => l.length
decreasing_by exact Nat.lt_succ_of_le (List.length_filter_le _ _)

end

namespace Planner

variable {pl : Planner} {rs : List Request} {r : Request}

/-- The first reachable class of its source file. -/
theorem find?_of_mem_leaders {c : ClassId} (h : c ∈ pl.leaders) :
    (pl.project.reachable pl.naming.root).find? (fun d => (pl.project.decl d).file == (pl.project.decl c).file) = some c :=
  find?_of_mem_eraseDupsBy (fun d => (pl.project.decl d).file) _ h

/-! ## Files in the order of the requests -/

/-- The file that is created for a request in a position. -/
def newFile (pl : Planner) (i : Nat) (r : Request) : File := ⟨i, r.path, pl.package, r.role, .empty, [], []⟩

theorem files_stageAll (h : PathsApart rs) :
    (pl.stageAll .empty rs).files.toList = rs.mapIdx pl.newFile := by
  induction rs using List.reverseRecOn with
  | nil => rfl
  | append_singleton rs r ih =>
    obtain ⟨hrs, -, hr⟩ := List.pairwise_append.mp h
    have hfiles := ih hrs
    have hnone : (pl.stageAll .empty rs).findFile? r.path = none := by
      refine Array.findIdx?_eq_none_iff.mpr fun f hf => ?_
      rw [← Array.mem_toList_iff, hfiles, List.mem_mapIdx] at hf
      obtain ⟨i, hi, rfl⟩ := hf
      exact hr _ (List.getElem_mem hi) r (List.mem_singleton_self r)
    have hsize : (pl.stageAll .empty rs).files.size = rs.length := by
      rw [← Array.length_toList, hfiles, List.length_mapIdx]
    rw [stageAll_append, List.mapIdx_concat, ← hfiles, ← hsize]
    change (pl.stage (pl.stageAll .empty rs) r).files.toList = _
    rw [stage, hnone]
    exact Array.toList_push

theorem size_stageAll (h : PathsApart rs) :
    (pl.stageAll .empty rs).files.size = rs.length := by
  rw [← Array.length_toList, files_stageAll h, List.length_mapIdx]

theorem file_stageAll (h : PathsApart rs) {i : Nat} (hi : i < rs.length) :
    (pl.stageAll .empty rs).file i = pl.newFile i rs[i] := by
  have hsize : i < (pl.stageAll .empty rs).files.size := by rwa [size_stageAll h]
  rw [Workspace.file, Array.getD_eq_getD_getElem?, Array.getElem?_eq_getElem hsize, Option.getD_some, ← Array.getElem_toList]
  simp only [files_stageAll h, List.getElem_mapIdx]

/-- A path leads to the file in the position of its request. -/
theorem findFile?_stageAll (h : PathsApart rs) {i : Nat} (hi : i < rs.length) :
    (pl.stageAll .empty rs).findFile? rs[i].path = some i := by
  have hsize : (pl.stageAll .empty rs).files.size = rs.length := size_stageAll h
  have hfile : ∀ j (hj : j < rs.length), (pl.stageAll .empty rs).files[j].path = rs[j].path := by
    intro j hj
    rw [← Array.getElem_toList]
    simp only [files_stageAll h, List.getElem_mapIdx, newFile]
  refine Array.findIdx?_eq_some_iff_getElem.mpr ⟨hsize ▸ hi, ?_, fun j hj => ?_⟩
  · rw [hfile i hi]
    exact Path.same_iff.mpr rfl
  · rw [hfile j (Nat.lt_trans hj hi), List.pairwise_iff_getElem.mp h j i (Nat.lt_trans hj hi) hi hj]
    exact Bool.false_ne_true

theorem findFile?_stageAll_all (h : PathsApart rs) :
    rs.map (fun r => (pl.stageAll .empty rs).findFile? r.path) = (List.range rs.length).map some := by
  refine List.ext_getElem (by simp) fun i hi _ => ?_
  rw [List.length_map] at hi
  rw [List.getElem_map, findFile?_stageAll h hi, List.getElem_map, List.getElem_range]

/-- The file at the path of a request is the new one for it. -/
theorem file_of_findFile? (h : PathsApart rs) (hr : r ∈ rs) {id : OutputId}
    (hid : (pl.stageAll .empty rs).findFile? r.path = some id) : (pl.stageAll .empty rs).file id = pl.newFile id r := by
  obtain ⟨i, hi, rfl⟩ := List.getElem_of_mem hr
  cases (findFile?_stageAll h hi).symm.trans hid
  exact file_stageAll h hi

end Planner

/-! ## Entries -/

/-- The files of an entry. -/
def PlannedOutput.ids (placement : MapperPlacement) (o : PlannedOutput) : List OutputId :=
  match placement with
  | .inlined => [o.entity]
  | .separate => [o.entity, o.mapper]

/-- The files are called like the counterpart of a class and lie beside the source of the selected class, unless the name has a
slash. -/
structure PlannedOutput.NamedAfter (pl : Planner) (w : Workspace) (c : ClassId) (o : PlannedOutput) : Prop where
  entity : (w.file o.entity).path = pl.outputPath c ".kt" ∧ (w.file o.entity).role = .entity
  mapper : match pl.placement with
    | .inlined => o.mapper = o.entity
    | .separate => o.mapper ≠ o.entity ∧ (w.file o.mapper).path = pl.outputPath c "Mapper.kt" ∧ (w.file o.mapper).role = .mapper
  beside : '/' ∉ (pl.naming.className pl.project c).toList →
    (w.file o.entity).path.parent? = some (pl.project.fileOf pl.naming.root).dir ∧
      (w.file o.entity).path.fileName? = some (pl.naming.className pl.project c ++ ".kt")

namespace Planner

variable {pl : Planner}

theorem mem_requests {c : ClassId} (hc : c ∈ pl.leaders) {e : String × FileRole} (he : e ∈ outputEndings pl.placement) :
    ⟨pl.outputPath c e.1, (pl.project.decl c).file, e.2⟩ ∈ pl.requests :=
  List.mem_flatMap_of_mem hc (List.mem_map_of_mem he)

theorem outputPath_beside {c : ClassId} (hslash : '/' ∉ (pl.naming.className pl.project c).toList) :
    (pl.outputPath c ".kt").parent? = some (pl.project.fileOf pl.naming.root).dir ∧
      (pl.outputPath c ".kt").fileName? = some (pl.naming.className pl.project c ++ ".kt") := by
  have hlength : 2 < (pl.naming.className pl.project c ++ ".kt").length := by
    rw [String.length_append]
    exact Nat.lt_of_lt_of_le (by decide) (Nat.le_add_left _ _)
  refine (Path.child_join_iff (Path.isDirectory_dir _) hlength).mpr ?_
  rw [String.toList_append, List.mem_append, not_or]
  exact ⟨hslash, by decide⟩

theorem namedAfter_of_serves (h : PathsApart pl.requests) {c : ClassId}
    (hc : c ∈ pl.leaders) {o : PlannedOutput} (ho : o.Serves pl (pl.stageAll .empty pl.requests) c) :
    o.NamedAfter pl (pl.stageAll .empty pl.requests) c := by
  have hentity := file_of_findFile? h (r := ⟨pl.outputPath c ".kt", (pl.project.decl c).file, .entity⟩)
    (mem_requests hc (e := (".kt", .entity)) (by cases pl.placement <;> decide)) ho.entity
  refine ⟨by rw [hentity]; exact ⟨rfl, rfl⟩, ?_, fun hslash => by rw [hentity]; exact outputPath_beside hslash⟩
  have hserves := ho.mapper
  cases hplacement : pl.placement with
  | inlined =>
    simp only [hplacement] at hserves ⊢
    exact hserves
  | separate =>
    simp only [hplacement] at hserves ⊢
    have hmapper := file_of_findFile? h (r := ⟨pl.outputPath c "Mapper.kt", (pl.project.decl c).file, .mapper⟩)
      (mem_requests hc (e := ("Mapper.kt", .mapper)) (by rw [hplacement]; decide)) hserves
    refine ⟨fun heq => ?_, by rw [hmapper]; exact ⟨rfl, rfl⟩⟩
    rw [heq, hentity] at hmapper
    cases congrArg File.role hmapper

theorem ids_of_serves {w : Workspace} {c : ClassId} {o : PlannedOutput} (ho : o.Serves pl w c) :
    (o.ids pl.placement).map some = (pl.requestsFor c).map fun r => w.findFile? r.path := by
  have hmapper := ho.mapper
  rw [requestsFor]
  cases hplacement : pl.placement with
  | inlined => simp only [PlannedOutput.ids, outputEndings, List.map_cons, List.map_nil, ho.entity]
  | separate =>
    simp only [hplacement] at hmapper
    simp only [PlannedOutput.ids, outputEndings, List.map_cons, List.map_nil, ho.entity, hmapper]

theorem origins_of_serves {w : Workspace} {cs : List ClassId} {os : List PlannedOutput}
    (h : List.Forall₂ (fun c o => o.Serves pl w c) cs os) : os.map (·.origin) = cs.map fun c => (pl.project.decl c).file := by
  induction h with
  | nil => rfl
  | cons ho _ ih => rw [List.map_cons, List.map_cons, ho.origin, ih]

theorem exists_serves {w : Workspace} {cs : List ClassId} {os : List PlannedOutput}
    (h : List.Forall₂ (fun c o => o.Serves pl w c) cs os) {o : PlannedOutput} (ho : o ∈ os) : ∃ c ∈ cs, o.Serves pl w c := by
  induction h with
  | nil => cases ho
  | cons hc _ ih =>
    rcases List.mem_cons.mp ho with rfl | ho
    · exact ⟨_, List.mem_cons_self, hc⟩
    · obtain ⟨d, hd, hserves⟩ := ih ho
      exact ⟨d, List.mem_cons_of_mem _ hd, hserves⟩

theorem flatMap_ids_of_serves {w : Workspace} {cs : List ClassId} {os : List PlannedOutput}
    (h : List.Forall₂ (fun c o => o.Serves pl w c) cs os) :
    (os.flatMap (·.ids pl.placement)).map some = (cs.flatMap pl.requestsFor).map fun r => w.findFile? r.path := by
  induction h with
  | nil => rfl
  | cons ho _ ih => rw [List.flatMap_cons, List.map_append, ids_of_serves ho, ih, List.flatMap_cons, List.map_append]

/-- **A plan from no files** has one entry for each source file of a reachable class, in the order in which these are found. The
files of an entry are named after the first reachable class of its source file. No two files have one path; they are exactly those
of the entries, numbered in this order, in the package of the selected class. -/
theorem run_outputs {w : Workspace} {plan : Plan} (h : pl.run .empty = (w, .ok plan)) :
    plan.outputs.map (·.origin) =
        ((pl.project.reachable pl.naming.root).map fun c => (pl.project.decl c).file).eraseDups ∧
      (∀ o ∈ plan.outputs, ∃ c,
        (pl.project.reachable pl.naming.root).find? (fun c => (pl.project.decl c).file == o.origin) = some c ∧
          o.NamedAfter pl w c) ∧
      plan.outputs.flatMap (·.ids pl.placement) = List.range w.files.size ∧
      (w.files.toList.Pairwise fun f g => f.path.same g.path = false) ∧
      ∀ i < w.files.size, (w.file i).id = i ∧ (w.file i).package = (pl.project.fileOf pl.naming.root).package := by
  have hrun := run_granted pl .empty
  split at hrun
  next => cases h.symm.trans hrun
  next granted hgrant =>
    obtain ⟨plan', hrun, hserves⟩ := hrun
    cases h.symm.trans hrun
    have hpaths : PathsApart pl.requests := by
      have hgranted := pathsApart_of_grant hgrant List.Pairwise.nil
      rwa [eq_of_grant_none hgrant, List.nil_append] at hgranted
    have hsize : (pl.stageAll .empty pl.requests).files.size = pl.requests.length := size_stageAll hpaths
    refine ⟨?_, fun o ho => ?_, ?_, ?_, fun i hi => ?_⟩
    · rw [origins_of_serves hserves]
      exact map_eraseDupsBy _ _
    · obtain ⟨c, hc, ho⟩ := exists_serves hserves ho
      rw [ho.origin]
      exact ⟨c, find?_of_mem_leaders hc, namedAfter_of_serves hpaths hc ho⟩
    · refine List.map_injective_iff.mpr (fun _ _ => Option.some.inj) ?_
      rw [flatMap_ids_of_serves hserves, hsize]
      exact findFile?_stageAll_all hpaths
    · rw [files_stageAll hpaths, List.pairwise_iff_getElem]
      intro i j hi hj hij
      rw [List.getElem_mapIdx, List.getElem_mapIdx]
      exact List.pairwise_iff_getElem.mp hpaths i j _ _ hij
    · rw [file_stageAll hpaths (hsize ▸ hi)]
      exact ⟨rfl, rfl⟩

theorem run_outputs_ofUser :
    ∃ w plan, (ofUser "User" .separate).run .empty = (w, .ok plan) ∧ w.files.size = 4 ∧
      plan.outputs.map (·.origin) = [0, 1] ∧ plan.outputs.flatMap (·.ids .separate) = List.range w.files.size ∧
      (∀ o ∈ plan.outputs, ∃ c ∈ [0, 1], o.NamedAfter (ofUser "User" .separate) w c) ∧
      (w.files.toList.Pairwise fun f g => f.path.same g.path = false) ∧
      ∀ i < w.files.size, (w.file i).id = i ∧ (w.file i).package = "a" := by
  obtain ⟨hplan, hsize, hreachable, hfiles, hpackage⟩ :
      ((ofUser "User" .separate).run .empty).2.toOption.isSome = true ∧
        ((ofUser "User" .separate).run .empty).1.files.size = 4 ∧
        (ofUser "User" .separate).project.reachable 0 = [0, 1] ∧
        (((ofUser "User" .separate).project.reachable 0).map
          fun c => ((ofUser "User" .separate).project.decl c).file).eraseDups = [0, 1] ∧
        ((ofUser "User" .separate).project.fileOf 0).package = "a" := by
    decide +kernel
  cases hrun : (ofUser "User" .separate).run .empty with
  | mk w outcome =>
    rw [hrun] at hplan hsize
    obtain ⟨plan, hplan⟩ := Option.isSome_iff_exists.mp hplan
    cases ok_of_toOption hplan
    obtain ⟨horigins, hnamed, hids, hpaths, hnumbered⟩ := run_outputs hrun
    refine ⟨w, plan, rfl, hsize, horigins.trans hfiles, hids, fun o ho => ?_, hpaths, fun i hi => ?_⟩
    · obtain ⟨c, hc, ho⟩ := hnamed o ho
      exact ⟨c, hreachable ▸ List.mem_of_find?_eq_some hc, ho⟩
    · exact (hnumbered i hi).imp_right fun h => h.trans hpackage

end Planner

end Counterpart
