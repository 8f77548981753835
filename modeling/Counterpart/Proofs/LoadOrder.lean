/-
Runs over the same files, loaded in another order. When the classes have distinct qualified names, a selection means the same
class, or is ambiguous between the same ones (`Project.Reordered.selected`), and every phase does the same; so the same is
written and the same is said, whatever the order (`generate_of_perm`).
-/
import Counterpart.Kotlin.Body
import Counterpart.Proofs.DistinctNames
import Counterpart.Proofs.RenumberedRuns
import Counterpart.Proofs.Run
import Counterpart.Sources

namespace Counterpart

open Kotlin Output Text

/-! ## Loading -/

/-- What a source declares; nothing when the text is no source. -/
def Kotlin.SourceUnit.ofSourceD (text : String) : SourceUnit := (SourceUnit.ofSource text).toOption.getD ⟨"", [], []⟩

namespace Project

/-- Adds a file, given by its path and its text. -/
def addFile (p : Project) (file : Path × String) : Except SyntaxError Project :=
  (SourceUnit.ofSource file.2).map (p.add file.1)

/-- The project of source files, loaded in order. -/
def ofFiles (files : List (Path × String)) : Except SyntaxError Project := files.foldlM addFile .empty

theorem foldlM_addFile_iff {files : List (Path × String)} {p p' : Project} :
    files.foldlM addFile p = .ok p' ↔
      (∀ file ∈ files, (SourceUnit.ofSource file.2).isOk = true) ∧
        p' = p.addAll (files.map fun file => (file.1, SourceUnit.ofSourceD file.2)) := by
  induction files generalizing p with
  | nil => exact ⟨fun h => ⟨nofun, by cases h; rfl⟩, fun ⟨_, h⟩ => by rw [h]; rfl⟩
  | cons file files ih =>
    rw [List.foldlM_cons, List.forall_mem_cons, addFile]
    cases hsource : SourceUnit.ofSource file.2 with
    | error e => simp [Except.map, bind, Except.bind, Except.isOk, Except.toBool]
    | ok unit =>
      have hunit : SourceUnit.ofSourceD file.2 = unit := by rw [SourceUnit.ofSourceD, hsource]; rfl
      rw [List.map_cons, hunit]
      exact ih.trans (by simp [Except.isOk, Except.toBool, addAll])

/-- Files load when all of them are sources. -/
theorem ofFiles_iff {files : List (Path × String)} {p : Project} :
    ofFiles files = .ok p ↔ (∀ file ∈ files, (SourceUnit.ofSource file.2).isOk = true) ∧
      p = empty.addAll (files.map fun file => (file.1, SourceUnit.ofSourceD file.2)) :=
  foldlM_addFile_iff

/-- **The files in another order** load as well, and give the same project but for the numbers. -/
theorem ofFiles_of_perm {files files' : List (Path × String)} (hperm : files.Perm files') {p : Project}
    (h : ofFiles files = .ok p) :
    ∃ p' φ ψ, ofFiles files' = .ok p' ∧ p.Loaded ∧ p'.Loaded ∧ Reordered φ ψ p p' := by
  obtain ⟨hsources, rfl⟩ := ofFiles_iff.mp h
  obtain ⟨φ, ψ, hreordered⟩ := Reordered.of_perm (hperm.map fun file => (file.1, SourceUnit.ofSourceD file.2)) Loaded.empty
  exact ⟨_, φ, ψ, ofFiles_iff.mpr ⟨fun file hfile => hsources file (hperm.mem_iff.mpr hfile), rfl⟩, Loaded.empty.addAll _,
    Loaded.empty.addAll _, hreordered⟩

end Project

theorem Disk.loadFile_iff {d : Disk} {p p' : Project} {path : Path} :
    d.loadFile p path = .ok p' ↔ ∃ text, d.readText path = .ok text ∧ p.addFile (path, text) = .ok p' := by
  rw [loadFile]
  cases d.readText path with
  | error e => simp
  | ok text => cases h : SourceUnit.ofSource text <;> simp [Project.addFile, h, Except.map]

/-- What is loaded from disk is the project of the texts that the disk has. -/
theorem Disk.loadFiles_iff {d : Disk} {paths : List Path} {p p' : Project} :
    paths.foldlM d.loadFile p = .ok p' ↔ ∃ files : List (Path × String), files.map (·.1) = paths ∧
      (∀ file ∈ files, d.readText file.1 = .ok file.2) ∧ files.foldlM Project.addFile p = .ok p' := by
  induction paths generalizing p with
  | nil =>
    constructor
    · intro h
      cases h
      exact ⟨[], rfl, nofun, rfl⟩
    · rintro ⟨files, hpaths, -, h⟩
      rw [List.map_eq_nil_iff.mp hpaths] at h
      cases h
      rfl
  | cons path paths ih =>
    rw [List.foldlM_cons, bind_eq_ok_iff]
    constructor
    · rintro ⟨q, hq, h⟩
      obtain ⟨text, htext, hadd⟩ := loadFile_iff.mp hq
      obtain ⟨files, rfl, hread, hfiles⟩ := ih.mp h
      exact ⟨(path, text) :: files, rfl, List.forall_mem_cons.mpr ⟨htext, hread⟩,
        List.foldlM_cons.trans (bind_eq_ok_iff.mpr ⟨q, hadd, hfiles⟩)⟩
    · rintro ⟨_ | ⟨file, files⟩, hpaths, hread, h⟩
      · cases hpaths
      · cases hpaths
        obtain ⟨hfile, hread⟩ := List.forall_mem_cons.mp hread
        obtain ⟨q, hadd, hfiles⟩ := bind_eq_ok_iff.mp (List.foldlM_cons.symm.trans h)
        exact ⟨q, loadFile_iff.mpr ⟨file.2, hfile, hadd⟩, ih.mpr ⟨files, rfl, hread, hfiles⟩⟩

/-! ## Failures -/

/-- The failures are the same, but that the candidates for an ambiguous selection may come in another order. -/
inductive SameFailure : Failure → Failure → Prop
  | same (e : Failure) : SameFailure e e
  | ambiguous (name : String) {cs cs' : List String} (h : cs.Perm cs') :
    SameFailure (.ambiguousClass name cs) (.ambiguousClass name cs')

/-! ## The selected class -/

namespace Project.Reordered

variable {φ ψ : Equiv.Perm Nat} {p p' : Project}

theorem perm_candidates (h : Reordered φ ψ p p') (hp : p.Loaded) (hp' : p'.Loaded) (name : String) :
    (p'.candidates name).Perm ((p.candidates name).map φ) := by
  have halike := h.alike hp
  have hbyPath : ((List.range p'.classes.size).filter fun c => p'.nestedPath c == name).Perm
      (((List.range p.classes.size).filter fun c => p.nestedPath c == name).map φ) := by
    refine (List.perm_ext_iff_of_nodup (List.nodup_range.filter _) ((List.nodup_range.filter _).map φ.injective)).mpr fun d => ?_
    obtain ⟨c, rfl⟩ := φ.surjective d
    rw [List.mem_map_of_injective φ.injective, List.mem_filter, List.mem_filter, List.mem_range, List.mem_range, h.classes,
      h.lt_iff, halike.nestedPath]
  have hbyName : (p'.findBySimpleName name).Perm ((p.findBySimpleName name).map φ) := by
    refine (List.perm_ext_iff_of_nodup (hp'.nodup_map_id _) ((hp.nodup_map_id _).map φ.injective)).mpr fun d => ?_
    obtain ⟨c, rfl⟩ := φ.surjective d
    rw [List.mem_map_of_injective φ.injective, hp'.mem_map_id, hp.mem_map_id, h.classes, h.lt_iff, (halike.decl c).name]
  have hempty := hbyPath.isEmpty_eq
  rw [List.isEmpty_map] at hempty
  simp only [candidates, hempty]
  split
  · exact hbyName
  · exact hbyPath

theorem lt_of_mem_candidates (hp : p.Loaded) {name : String} {c : ClassId} (hc : c ∈ p.candidates name) :
    c < p.classes.size := by
  simp only [candidates] at hc
  split at hc
  · exact (hp.mem_map_id.mp hc).1
  · exact List.mem_range.mp (List.mem_of_mem_filter hc)

/-- **A selection** means the same class, or fails alike. -/
theorem selected (h : Reordered φ ψ p p') (hp : p.Loaded) (hp' : p'.Loaded) (hnames : p.qualifiedNames.Nodup)
    (selection : String) :
    (∃ c, p.selected selection = .ok c ∧ p'.selected selection = .ok (φ c)) ∨
      ∃ e e', p.selected selection = .error e ∧ p'.selected selection = .error e' ∧ SameFailure e e' := by
  have hrenumbered := h.renumbered hp hp' hnames
  have hperm := h.perm_candidates hp hp' (trim selection)
  simp only [Project.selected, hrenumbered.find?]
  cases p.find? (trim selection) with
  | some c => exact .inl ⟨c, rfl, rfl⟩
  | none =>
    simp only [Option.map_none]
    have hlt : ∀ c ∈ p.candidates (trim selection), c < p.classes.size := fun c => lt_of_mem_candidates hp
    generalize p.candidates (trim selection) = cs at hperm hlt ⊢
    match cs with
    | [] =>
      rw [List.map_nil, List.perm_nil] at hperm
      rw [hperm]
      exact .inr ⟨_, _, rfl, rfl, .same _⟩
    | [c] =>
      rw [List.map_singleton, List.perm_singleton] at hperm
      rw [hperm]
      exact .inl ⟨c, rfl, rfl⟩
    | c :: d :: cs =>
      have hlength := hperm.length_eq
      have hqualified : ((p'.candidates (trim selection)).map p'.qualifiedName).Perm ((c :: d :: cs).map p.qualifiedName) := by
        refine (hperm.map p'.qualifiedName).trans (.of_eq ?_)
        rw [List.map_map]
        exact List.map_congr_left fun e he => hrenumbered.qualifiedName (hlt e he)
      match hcs' : p'.candidates (trim selection) with
      | [] => simp [hcs'] at hlength
      | [e] => simp [hcs'] at hlength
      | e :: e' :: es => exact .inr ⟨_, _, rfl, rfl, .ambiguous _ (hcs' ▸ hqualified.symm)⟩

end Project.Reordered

/-! ## Runs -/

/-- Both runs went well, with the same files to write and the same messages, or both failed alike. -/
inductive SameOutcome : Except Failure Generation → Except Failure Generation → Prop
  | written {g g' : Generation} (root : g'.root = g.root) (files : Code.renderAll g'.workspace = Code.renderAll g.workspace)
    (messages : g'.diagnostics = g.diagnostics) : SameOutcome (.ok g) (.ok g')
  | failed {e e' : Failure} (h : SameFailure e e') : SameOutcome (.error e) (.error e')

theorem SameOutcome.of_preview {x x' : Except Failure Generation}
    (h : x'.map Generation.preview = x.map Generation.preview) : SameOutcome x x' := by
  match x, x' with
  | .ok g, .ok g' =>
    obtain ⟨hroot, hfiles, hmessages⟩ := Preview.mk.inj (Except.ok.inj h)
    exact .written hroot hfiles hmessages
  | .error e, .error e' =>
    cases h
    exact .failed (.same e)

theorem Project.Reordered.renumberedFiles {φ ψ : Equiv.Perm Nat} {p p' : Project} (h : Reordered φ ψ p p') (hp : p.Loaded)
    (hp' : p'.Loaded) (hnames : p.qualifiedNames.Nodup) : p.RenumberedFiles φ ψ (· < p.classes.size) p' where
  toRenumbered := h.renumbered hp hp' hnames
  file_injective := ψ.injective
  file c hc := by rw [h.decl c hc]; rfl
  path i := (h.file i).1

/-- **Runs over the same files in another order** have the same outcome. -/
theorem generate_reordered {φ ψ : Equiv.Perm Nat} {p p' : Project} (h : p.Reordered φ ψ p') (hp : p.Loaded) (hp' : p'.Loaded)
    (hnames : p.qualifiedNames.Nodup) (onDisk : Path → Bool) (o : Options) :
    SameOutcome (generate onDisk p o) (generate onDisk p' o) := by
  obtain ⟨c, hc, hc'⟩ | ⟨e, e', he, he', hsame⟩ := h.selected hp hp' hnames o.selection
  · exact .of_preview (generate_renumber onDisk (h.renumberedFiles hp hp' hnames) hc hc')
  · rw [generate_of_unselected onDisk he, generate_of_unselected onDisk he']
    exact .failed hsame

/-- **The order of the files** does not matter when the classes have distinct qualified names. -/
theorem generate_of_perm {files files' : List (Path × String)} (hperm : files.Perm files') {p : Project}
    (hfiles : Project.ofFiles files = .ok p) (hnames : p.qualifiedNames.Nodup) :
    ∃ p', Project.ofFiles files' = .ok p' ∧
      ∀ onDisk o, SameOutcome (generate onDisk p o) (generate onDisk p' o) := by
  obtain ⟨p', φ, ψ, hfiles', hp, hp', h⟩ := Project.ofFiles_of_perm hperm hfiles
  exact ⟨p', hfiles', generate_reordered h hp hp' hnames⟩

/-- Two files whose classes refer to each other. -/
def mutualFiles : List (Path × String) :=
  [(⟨"a/R.kt"⟩, "package a\nimport b.B\ndata class R(val e: E, val bs: List<B>) \x7b enum class E \x7b X, Y \x7d \x7d"),
    (⟨"b/B.kt"⟩, "package b\nimport a.R\ndata class B(val r: R?, val n: Int = 0)")]

theorem generate_of_perm_mutualFiles :
    ∃ p, Project.ofFiles mutualFiles = .ok p ∧ p.qualifiedNames = ["a.R", "a.R.E", "b.B"] ∧ p.qualifiedNames.Nodup ∧
      (∃ g, generate (fun _ => false) p (Options.ofClass "R") = .ok g ∧ (Code.renderAll g.workspace).length = 2) ∧
      mutualFiles.Perm mutualFiles.reverse ∧ ∃ p', Project.ofFiles mutualFiles.reverse = .ok p' ∧
        ∀ onDisk o, SameOutcome (generate onDisk p o) (generate onDisk p' o) := by
  have hfiles : ((Project.ofFiles mutualFiles).toOption.map fun p => (p.qualifiedNames,
      (generate (fun _ => false) p (Options.ofClass "R")).toOption.map fun g => (Code.renderAll g.workspace).length)) =
      some (["a.R", "a.R.E", "b.B"], some 2) := by
    decide +kernel
  obtain ⟨p, hp, hresult⟩ := Option.map_eq_some_iff.mp hfiles
  obtain ⟨hnames, hrun⟩ := Prod.mk.inj hresult
  obtain ⟨g, hg, hlength⟩ := Option.map_eq_some_iff.mp hrun
  have hp := ok_of_toOption hp
  have hdistinct : p.qualifiedNames.Nodup := by rw [hnames]; decide
  have hperm : mutualFiles.Perm mutualFiles.reverse := (List.reverse_perm _).symm
  exact ⟨p, hp, hnames, hdistinct, ⟨g, ok_of_toOption hg, hlength⟩, hperm, generate_of_perm hperm hp hdistinct⟩

end Counterpart
