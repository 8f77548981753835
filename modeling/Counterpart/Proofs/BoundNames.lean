/-
The names that the import directives of a written file bind. Directives come from several places, each with no regard for the
others: those copied from source files, with their aliases, and the names of what fields refer to and functions want, without.
What is left of them once the needless ones are dropped binds no name twice exactly when these sources agree on every name that
the file mentions (`Hooks.boundNames_apart_iff`).
-/
import Counterpart.Proofs.FileImports

namespace Counterpart

open Kotlin Output Code

/-- A directive binds a name to what it imports: its alias, or the last part of the path. A star binds none. -/
def Binds (directive name path : String) : Prop :=
  localName? (Name.shortName directive) = some name ∧
    (directive = path ∧ Name.shortName path = name ∨ directive = path ++ " as " ++ name)

namespace Output.File

/-- The directives that are left when those are dropped whose name the body does not mention. -/
def keptImports (f : File) : List String := (FileCode.ofFile f).prune.imports

/-- The directives that are left bind no name to two things. -/
def BindsApart (f : File) : Prop :=
  ∀ directive ∈ f.keptImports, ∀ directive' ∈ f.keptImports, ∀ name path path',
    Binds directive name path → Binds directive' name path' → path = path'

end Output.File

theorem Output.ImportSet.mem_directives {s : ImportSet} {directive : String} :
    directive ∈ s.directives ↔ ∃ e : String × String, s.hasSymbol e.1 e.2 = true ∧ directive = Name.inPackage e.1 e.2 := by
  simp only [directives, List.mem_mergeSort, List.mem_flatMap, List.mem_map, hasSymbol_iff]
  constructor
  · rintro ⟨group, hgroup, symbol, hsymbol, rfl⟩
    exact ⟨(group.1, symbol), ⟨group, hgroup, rfl, hsymbol⟩, rfl⟩
  · rintro ⟨⟨package, symbol⟩, ⟨group, hgroup, rfl, hsymbol⟩, rfl⟩
    exact ⟨group, hgroup, symbol, hsymbol, rfl⟩

/-- A directive that binds a name is left when the name is mentioned. -/
theorem Output.File.mem_keptImports {f : File} {directive name path : String} (h : Binds directive name path) :
    directive ∈ f.keptImports ↔
      mentions (FileCode.ofFile f).body name = true ∧
        ∃ e : String × String, f.imports.hasSymbol e.1 e.2 = true ∧ directive = Name.inPackage e.1 e.2 := by
  rw [keptImports, FileCode.prune, List.mem_filter, FileCode.isNeeded, h.1, and_comm, ← ImportSet.mem_directives]
  rfl

/-- The directives that are left in a file bind no name twice when those that bind a mentioned name do not. -/
theorem Output.File.bindsApart_iff {f : File} :
    f.BindsApart ↔ ∀ e e' : String × String, f.imports.hasSymbol e.1 e.2 = true → f.imports.hasSymbol e'.1 e'.2 = true →
      ∀ name path path', mentions (FileCode.ofFile f).body name = true → Binds (Name.inPackage e.1 e.2) name path →
        Binds (Name.inPackage e'.1 e'.2) name path' → path = path' := by
  constructor
  · intro h e e' he he' name path path' hname hbinds hbinds'
    exact h _ ((mem_keptImports hbinds).mpr ⟨hname, e, he, rfl⟩) _ ((mem_keptImports hbinds').mpr ⟨hname, e', he', rfl⟩)
      name path path' hbinds hbinds'
  · intro h directive hd directive' hd' name path path' hbinds hbinds'
    obtain ⟨hname, e, he, rfl⟩ := (mem_keptImports hbinds).mp hd
    obtain ⟨-, e', he', rfl⟩ := (mem_keptImports hbinds').mp hd'
    exact h e e' he he' name path path' hname hbinds hbinds'

/-- **The names that a file of a run binds** are bound once exactly when all that the counterparts and the functions in it are
reasons for agrees on the names that it mentions. -/
theorem Hooks.boundNames_apart_iff {σ : Type} {h : Hooks σ} {p : Project} {o : Options} {s s' : σ} {g : Generation}
    (hrun : h.run [] p o s = (s', .ok g)) :
    ∃ n plan t, g.naming = some n ∧ g.plan = some plan ∧ g.table = some t ∧ ∀ i < g.workspace.files.size,
      ((g.workspace.file i).BindsApart ↔ ∀ e e', g.Reason p n plan t i e → g.Reason p n plan t i e' →
        ∀ name path path', mentions (FileCode.ofFile (g.workspace.file i)).body name = true →
          Binds (Name.inPackage e.1 e.2) name path → Binds (Name.inPackage e'.1 e'.2) name path' → path = path') := by
  obtain ⟨n, plan, w, w₁, r, ms, hst⟩ := stages_of_run hrun
  refine ⟨n, plan, r.table, hst.naming, hst.plan, hst.table, fun i hi => ?_⟩
  rw [File.bindsApart_iff]
  simp only [← hst.imports_iff hi, Workspace.Imports]

/-- A class with fields of two classes of the same name, one of them under an alias. -/
def aliasedProject : Project :=
  .ofSource "package demo\nimport a.X as Y\nimport b.X\ndata class R(val y: Y, val x: X)"

/-- The file imports the class with the alias under its own name as well. -/
theorem aliased_generated :
    ∃ g, (Hooks.none fun _ => false).run [] aliasedProject (.ofClass "R") () = ((), .ok g) ∧ g.workspace.files.size = 1 ∧
      (g.workspace.file 0).isEmpty = false ∧
      (g.workspace.file 0).imports.groups = [("a", ["X", "X as Y"]), ("b", ["X"])] ∧
      mentions (FileCode.ofFile (g.workspace.file 0)).body "X" = true := by
  have hresult : (((Hooks.none fun _ => false).run [] aliasedProject (.ofClass "R") ()).2.toOption.map fun g =>
      g.workspace.files.size == 1 && !(g.workspace.file 0).isEmpty &&
        (g.workspace.file 0).imports.groups == [("a", ["X", "X as Y"]), ("b", ["X"])] &&
        mentions (FileCode.ofFile (g.workspace.file 0)).body "X") = some true := by
    decide +kernel
  obtain ⟨g, hg, hresult⟩ := Option.map_eq_some_iff.mp hresult
  simp only [Bool.and_eq_true, Bool.not_eq_true', beq_iff_eq] at hresult
  obtain ⟨⟨⟨hsize, hempty⟩, hgroups⟩, hmentions⟩ := hresult
  exact ⟨g, eq_ok_of_toOption hg, hsize, hempty, hgroups, hmentions⟩

theorem boundNames_apart_iff_aliasedProject :
    ∃ g, (Hooks.none fun _ => false).run [] aliasedProject (.ofClass "R") () = ((), .ok g) ∧
      ∃ n plan t, g.naming = some n ∧ g.plan = some plan ∧ g.table = some t ∧ ∀ i < g.workspace.files.size,
        ((g.workspace.file i).BindsApart ↔ ∀ e e', g.Reason aliasedProject n plan t i e →
          g.Reason aliasedProject n plan t i e' → ∀ name path path',
            mentions (FileCode.ofFile (g.workspace.file i)).body name = true →
            Binds (Name.inPackage e.1 e.2) name path → Binds (Name.inPackage e'.1 e'.2) name path' → path = path') := by
  obtain ⟨g, hg, -⟩ := aliased_generated
  exact ⟨g, hg, Hooks.boundNames_apart_iff hg⟩

/-- The name of the two classes is bound to both. -/
theorem aliased_not_apart :
    ∃ g, (Hooks.none fun _ => false).run [] aliasedProject (.ofClass "R") () = ((), .ok g) ∧
      ¬ ∀ f ∈ g.workspace.files.toList, f.isEmpty = false → f.BindsApart := by
  obtain ⟨g, hg, hsize, hempty, hgroups, hmentions⟩ := aliased_generated
  refine ⟨g, hg, fun hall => ?_⟩
  have hmem : g.workspace.file 0 ∈ g.workspace.files.toList := by
    simp [Workspace.file, hsize]
  have hfirst : Binds "a.X" "X" "a.X" := ⟨by decide +kernel, .inl ⟨rfl, by decide +kernel⟩⟩
  have hsecond : Binds "b.X" "X" "b.X" := ⟨by decide +kernel, .inl ⟨rfl, by decide +kernel⟩⟩
  have hkept : "a.X" ∈ (g.workspace.file 0).keptImports := by
    refine (File.mem_keptImports hfirst).mpr ⟨hmentions, ("a", "X"), ?_, by decide +kernel⟩
    exact ImportSet.hasSymbol_iff.mpr ⟨_, hgroups ▸ List.mem_cons_self, rfl, List.mem_cons_self⟩
  have hkept' : "b.X" ∈ (g.workspace.file 0).keptImports := by
    refine (File.mem_keptImports hsecond).mpr ⟨hmentions, ("b", "X"), ?_, by decide +kernel⟩
    exact ImportSet.hasSymbol_iff.mpr ⟨_, hgroups ▸ List.mem_cons_of_mem _ List.mem_cons_self, rfl, List.mem_cons_self⟩
  exact absurd (hall _ hmem hempty _ hkept _ hkept' "X" _ _ hfirst hsecond) (by decide)

end Counterpart
