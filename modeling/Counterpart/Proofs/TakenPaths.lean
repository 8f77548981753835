/-
Where outputs are written. A planner takes the paths of outputs of the reachable classes and of nothing else, and its files are
at these paths (`Planner.State.Taken`). Chosen names have no slash, so the output of the selected class is beside its source; that
of another class is there exactly when the name of the class has no slash (`Planner.taken_beside`).
-/
import Counterpart.Proofs.Allocation
import Counterpart.Proofs.Loading
import Counterpart.Proofs.Siblings
import Counterpart.Proofs.Stages

namespace Counterpart

open Output

/-! ## Names -/

/-- The chosen names hold no slash. -/
structure Naming.Slashless (n : Naming) : Prop where
  rootName : '/' ∉ n.rootName.toList
  suffix : '/' ∉ n.suffix.toList

theorem Name.slash_notMem_keepIdentifier (s : String) : '/' ∉ (keepIdentifier s).toList := by
  intro h
  have := of_mem_keepIdentifier h
  revert this
  decide

namespace Generation

theorem slashless_of_namingOf {p : Project} {o : Options} {root : ClassId} {n : Naming} (h : namingOf p o root = .ok n) :
    n.Slashless := by
  obtain ⟨rfl, -⟩ := namingOf_ok h
  exact ⟨Name.slash_notMem_keepIdentifier _, Name.slash_notMem_keepIdentifier _⟩

end Generation

theorem Naming.Slashless.className_iff {n : Naming} (h : n.Slashless) (p : Project) (c : ClassId) :
    '/' ∉ (n.className p c).toList ↔ c = n.root ∨ '/' ∉ (p.decl c).name.toList := by
  rw [className, String.toList_append, List.mem_append, not_or, and_iff_left h.suffix]
  split
  next hroot => simp [hroot, h.rootName]
  next hroot => simp [hroot]

/-! ## Paths -/

namespace Planner

variable {pl : Planner} {s s' : State} {cs : List ClassId}

/-- What is put behind the name of a counterpart in the name of its file. -/
def endings : List String := [".kt", "Mapper.kt"]

/-- The paths taken are those of outputs of the classes, and the files are at paths taken. -/
structure State.Taken (pl : Planner) (cs : List ClassId) (s : State) : Prop where
  fresh : s.Fresh
  outputs : ∀ taken ∈ s.taken, ∃ c ∈ cs, ∃ ending ∈ endings, taken = (pl.outputPath c ending, (pl.project.decl c).file)

namespace State.Taken

theorem start : State.Taken pl cs ⟨.empty, [], .empty⟩ := ⟨nofun, nofun⟩

theorem creating (hs : s.Taken pl cs) {c : ClassId} (hc : c ∈ cs) {ending : String} (he : ending ∈ endings)
    (role : FileRole) : (s.creating pl (pl.outputPath c ending) (pl.project.decl c).file role).Taken pl cs where
  fresh := hs.fresh.creating _ _ _
  outputs taken htaken := by
    rcases List.mem_append.mp htaken with htaken | htaken
    · exact hs.outputs taken htaken
    · exact ⟨c, hc, ending, he, List.mem_singleton.mp htaken⟩

theorem record (hs : s.Taken pl cs) (o : PlannedOutput) : (Planner.record o s).Taken pl cs := ⟨hs.fresh, hs.outputs⟩

/-- One class takes the paths of its outputs, also when it fails. -/
theorem allocate (hs : s.Taken pl cs) {c : ClassId} (hc : c ∈ cs) : (pl.allocate c s).1.Taken pl cs := by
  unfold Planner.allocate
  dsimp only
  split
  · exact hs
  split
  · exact hs
  next s₁ entity h₁ =>
    obtain ⟨rfl, -⟩ := reserve_ok hs.fresh h₁
    have hkt : ".kt" ∈ endings := List.mem_cons_self
    have hs₁ := hs.creating hc hkt .entity
    split
    · exact hs₁.record _
    split
    · exact hs₁
    next s₂ mapper h₂ =>
      obtain ⟨rfl, -⟩ := reserve_ok hs₁.fresh h₂
      have hmapper : "Mapper.kt" ∈ endings := List.mem_cons_of_mem _ List.mem_cons_self
      exact (hs₁.creating hc hmapper .mapper).record _

theorem allocateAll (hs : s.Taken pl cs) {cs' : List ClassId} (hcs : ∀ c ∈ cs', c ∈ cs) :
    (pl.allocateAll cs' s).1.Taken pl cs := by
  induction cs' generalizing s with
  | nil => exact hs
  | cons c cs' ih =>
    have hc := hs.allocate (hcs c List.mem_cons_self)
    rw [Planner.allocateAll]
    split
    next h => rw [h] at hc; exact hc
    next h =>
      rw [h] at hc
      exact ih hc fun d hd => hcs d (List.mem_cons_of_mem c hd)

end State.Taken

/-- An output is beside the source of the selected class **exactly when** its name has no slash. -/
theorem outputPath_iff (hn : pl.naming.Slashless) (c : ClassId) {ending : String} (he : ending ∈ endings) :
    (pl.outputPath c ending).parent? = some (pl.project.fileOf pl.naming.root).dir ∧
        (pl.outputPath c ending).fileName? = some (pl.naming.className pl.project c ++ ending) ↔
      c = pl.naming.root ∨ '/' ∉ (pl.project.decl c).name.toList := by
  have hending : 2 < ending.length ∧ '/' ∉ ending.toList := by
    revert ending
    decide
  have hlength : 2 < (pl.naming.className pl.project c ++ ending).length := by
    rw [String.length_append]
    omega
  have hdir : (pl.project.fileOf pl.naming.root).dir.IsDirectory := Path.isDirectory_dir _
  rw [← hn.className_iff, outputPath, Path.child_join_iff hdir hlength, String.toList_append, List.mem_append, not_or,
    and_iff_left hending.2]

end Planner

/-- **Every path that a planner takes** is that of an output of a reachable class. It is a child of the directory of the source
file of the selected class, under the name of the counterpart, unless the class is another one with a slash in its name. -/
theorem Planner.taken_beside {p : Project} {o : Options} {root : ClassId} {n : Naming}
    (hn : Generation.namingOf p o root = .ok n) (onDisk : Path → Bool) :
    let pl := Planner.mk p n o.placement o.overwrite onDisk
    let s := (pl.allocateAll (p.reachable root) ⟨.empty, [], .empty⟩).1
    (∀ taken ∈ s.taken, ∃ c ∈ p.reachable root, ∃ ending ∈ endings, taken.2 = (p.decl c).file ∧
      taken.1 = pl.outputPath c ending ∧
      (taken.1.parent? = some (p.fileOf root).dir ∧ taken.1.fileName? = some (n.className p c ++ ending) ↔
        c = root ∨ '/' ∉ (p.decl c).name.toList)) ∧
    ∀ i < s.workspace.files.size, ∃ taken ∈ s.taken, taken.1 = (s.workspace.file i).path := by
  intro pl s
  obtain rfl := Generation.root_of_namingOf hn
  have hs : s.Taken pl (p.reachable n.root) := State.Taken.start.allocateAll fun c hc => hc
  refine ⟨fun taken htaken => ?_, hs.fresh⟩
  obtain ⟨c, hc, ending, he, rfl⟩ := hs.outputs taken htaken
  have hslashless : pl.naming.Slashless := Generation.slashless_of_namingOf hn
  exact ⟨c, hc, ending, he, rfl, rfl, outputPath_iff hslashless c he⟩

/-- A class inside one whose name is quoted, and a class with the name of a class inside that. -/
def quotedProject : Project :=
  (Project.empty.addSource "demo/A.kt" "package demo\nclass \x60../x\x60 \x7b\n  data class Y(val f: Y.Z)\n\x7d").addSource
    "demo/B.kt" "package demo\ndata class \x60../x.Y.Z\x60(val n: Int)"

theorem taken_beside_quotedProject :
    ∃ n, Generation.namingOf quotedProject (Options.ofClass "Y") 1 = .ok n ∧ quotedProject.reachable 1 = [1, 2] ∧
      (quotedProject.fileOf 1).dir = ⟨"demo"⟩ ∧
      let pl := Planner.mk quotedProject n .inlined false fun _ => false
      let s := (pl.allocateAll (quotedProject.reachable 1) ⟨.empty, [], .empty⟩).1
      s.taken = [(⟨"demo/YModel.kt"⟩, 0), (⟨"demo/../x.Y.ZModel.kt"⟩, 1)] ∧
      ∀ taken ∈ s.taken, ∃ c ∈ quotedProject.reachable 1, ∃ ending ∈ Planner.endings,
        taken.2 = (quotedProject.decl c).file ∧ taken.1 = pl.outputPath c ending ∧
        (taken.1.parent? = some (quotedProject.fileOf 1).dir ∧
            taken.1.fileName? = some (n.className quotedProject c ++ ending) ↔
          c = 1 ∨ '/' ∉ (quotedProject.decl c).name.toList) := by
  have hplan : ((Generation.namingOf quotedProject (Options.ofClass "Y") 1).toOption.map fun n =>
      let pl := Planner.mk quotedProject n .inlined false fun _ => false
      (quotedProject.reachable 1, (quotedProject.fileOf 1).dir,
        (pl.allocateAll (quotedProject.reachable 1) ⟨.empty, [], .empty⟩).1.taken)) =
      some ([1, 2], ⟨"demo"⟩, [(⟨"demo/YModel.kt"⟩, 0), (⟨"demo/../x.Y.ZModel.kt"⟩, 1)]) := by
    decide +kernel
  obtain ⟨n, hn, hplan⟩ := Option.map_eq_some_iff.mp hplan
  obtain ⟨hreachable, hdir, htaken⟩ := Prod.mk.inj hplan |>.imp_right Prod.mk.inj
  have hn := ok_of_toOption hn
  exact ⟨n, hn, hreachable, hdir, htaken, (Planner.taken_beside hn fun _ => false).1⟩

/-- A run that succeeds writes a file outside of the directory of all sources. -/
theorem quoted_not_beside :
    ∃ g, generate (fun _ => false) quotedProject (Options.ofClass "Y") = .ok g ∧
      quotedProject.selected "Y" = .ok 1 ∧ (quotedProject.fileOf 1).dir = ⟨"demo"⟩ ∧
      g.workspace.files.toList.map (·.path) = [⟨"demo/YModel.kt"⟩, ⟨"demo/../x.Y.ZModel.kt"⟩] ∧
      (⟨"demo/../x.Y.ZModel.kt"⟩ : Path).parent? = some ⟨"demo/.."⟩ := by
  have hrun : ((generate (fun _ => false) quotedProject (Options.ofClass "Y")).toOption.map fun g =>
      (quotedProject.selected "Y", (quotedProject.fileOf 1).dir, g.workspace.files.toList.map (·.path))) =
      some (.ok 1, ⟨"demo"⟩, [⟨"demo/YModel.kt"⟩, ⟨"demo/../x.Y.ZModel.kt"⟩]) := by
    decide +kernel
  obtain ⟨g, hg, hrun⟩ := Option.map_eq_some_iff.mp hrun
  obtain ⟨hselected, hdir, hpaths⟩ := Prod.mk.inj hrun |>.imp_right Prod.mk.inj
  exact ⟨g, ok_of_toOption hg, hselected, hdir, hpaths, by decide +kernel⟩

end Counterpart
