/-
What references in generated code mean. A dotted name starts with a name nested in the declaration where it is written or in
one around that, the innermost first, else with one at the top of the files of the package. A reference is the path of a
counterpart from the top, so it is read as that counterpart exactly when no nested name hides where it starts, no other file
has that name at its top, and no name of the path has a dot in it (`Hooks.references_read_iff`). Where the names at the top
are found nowhere else, all references are read as they are meant (`Hooks.references_read`).
-/
import Mathlib.Data.List.Infix
import Counterpart.Proofs.QualifiedNames
import Counterpart.Proofs.References

namespace Counterpart

open Kotlin Output Text

/-! ## Reading names -/

/-- The address of a declaration and those of the declarations around it, innermost first. -/
def Output.Ref.outwards (r : Ref) : List Ref :=
  (r.path.inits.filter fun path => !path.isEmpty).reverse.map fun path => ⟨r.file, path⟩

theorem Output.Ref.mem_outwards {r s : Ref} : s ∈ r.outwards ↔ s.file = r.file ∧ s.path ≠ [] ∧ s.path <+: r.path := by
  obtain ⟨file, path⟩ := s
  simp only [outwards, List.mem_map, List.mem_reverse, List.mem_filter, List.mem_inits, Ref.mk.injEq]
  constructor
  · rintro ⟨path, ⟨hpre, hne⟩, rfl, rfl⟩
    exact ⟨rfl, by simpa using hne, hpre⟩
  · rintro ⟨rfl, hne, hpre⟩
    exact ⟨path, ⟨hpre, by simpa using hne⟩, rfl, rfl⟩

namespace Output.Workspace

/-- The files of a package that have a declaration of this name at the top. -/
def topLevelFiles (w : Workspace) (package name : String) : List OutputId :=
  (List.range w.files.size).filter fun id =>
    (w.file id).package == package && (w.declaration? (.topLevel id name)).isSome

/-- The address that a simple name leads to from inside the declaration at `scope`. A name at the top of two files leads
nowhere. -/
def lookUp? (w : Workspace) (scope : Ref) (name : String) : Option Ref :=
  match scope.outwards.find? fun r => (w.declaration? (r.child name)).isSome with
  | some r => some (r.child name)
  | none =>
    match w.topLevelFiles (w.file scope.file).package name with
    | [id] => some (.topLevel id name)
    | _ => none

/-- The declaration that a dotted name leads to from inside the declaration at `scope`. -/
def read? (w : Workspace) (scope : Ref) (written : String) : Option Declaration :=
  let segments := split '.' written
  (w.lookUp? scope (segments.headD "")).bind fun r => w.declaration? ⟨r.file, r.path ++ segments.drop 1⟩

/-- Inside the declaration at `scope` the dotted name is read as the counterpart of the class `c`. -/
def ReadsAs (w : Workspace) (scope : Ref) (written : String) (c : ClassId) : Prop :=
  (w.read? scope written).map (·.source) = some c

/-- Inside the declaration at `scope` nothing comes before the declaration at `target` when its path is read. -/
structure Unobscured (w : Workspace) (scope target : Ref) : Prop where
  dotless : ∀ name ∈ target.path, '.' ∉ name.toList
  nested : ∀ name ∈ target.path.head?, ∀ r ∈ scope.outwards, w.declaration? (r.child name) = none
  topLevel : ∀ name ∈ target.path.head?, ∀ id, (w.declaration? (.topLevel id name)).isSome = true → id = target.file

variable {w : Workspace} {scope target r : Ref} {name : String}

/-- What is read is at the written path inside a declaration around, or at the top of a file when none of these has the first
name. -/
theorem read?_cases {written : String} {d : Declaration} (h : w.read? scope written = some d) :
    ∃ q, w.declaration? q = some d ∧
      ((∃ around ∈ scope.outwards, q.path = around.path ++ split '.' written) ∨
        ∃ name, (split '.' written).head? = some name ∧ q.path = split '.' written ∧
          (∀ around ∈ scope.outwards, w.declaration? (around.child name) = none) ∧
          w.topLevelFiles (w.file scope.file).package name = [q.file]) := by
  obtain ⟨name, rest, hsplit⟩ := List.exists_cons_of_ne_nil (split_ne_nil '.' written)
  obtain ⟨r, hr, hd⟩ := Option.bind_eq_some_iff.mp h
  rw [hsplit] at hr hd ⊢
  refine ⟨_, hd, ?_⟩
  simp only [List.headD_cons, lookUp?] at hr
  split at hr
  next around hfound =>
    cases hr
    refine .inl ⟨around, List.mem_of_find?_eq_some hfound, ?_⟩
    rw [Ref.child, List.append_assoc]
    rfl
  next hnone =>
    split at hr
    next id hid =>
      cases hr
      exact .inr ⟨name, rfl, rfl, by simpa using hnone, hid⟩
    next => cases hr

/-- A name that nothing hides leads to the only file that has it at the top. -/
theorem lookUp?_eq_topLevel {id : OutputId} (hnested : ∀ around ∈ scope.outwards, w.declaration? (around.child name) = none)
    (htop : w.topLevelFiles (w.file scope.file).package name = [id]) : w.lookUp? scope name = some (.topLevel id name) := by
  have hnone : (scope.outwards.find? fun r => (w.declaration? (r.child name)).isSome) = none := by simpa using hnested
  rw [lookUp?, hnone]
  simp only
  rw [htop]

/-- In a workspace of one package the files that have a name at the top are those where it leads to a declaration. -/
theorem mem_topLevelFiles {package : String} (hp : w.InPackage package) (hscope : scope.file < w.files.size) {id : OutputId} :
    id ∈ w.topLevelFiles (w.file scope.file).package name ↔ (w.declaration? (.topLevel id name)).isSome = true := by
  rw [topLevelFiles, List.mem_filter, List.mem_range]
  constructor
  · rintro ⟨-, h⟩
    exact (Bool.and_eq_true_iff.mp h).2
  · intro h
    obtain ⟨d, hd⟩ := Option.isSome_iff_exists.mp h
    have hlt : id < w.files.size := lt_size_of_declaration? hd
    exact ⟨hlt, by rw [hp id hlt, hp _ hscope, h]; simp⟩

theorem topLevelFiles_eq_singleton_iff {package : String} (hp : w.InPackage package) (hscope : scope.file < w.files.size)
    {id : OutputId} : w.topLevelFiles (w.file scope.file).package name = [id] ↔
      ∀ i, (w.declaration? (.topLevel i name)).isSome = true ↔ i = id := by
  have hnodup : (w.topLevelFiles (w.file scope.file).package name).Nodup := List.nodup_range.filter _
  rw [← List.perm_singleton, List.perm_ext_iff_of_nodup hnodup (List.nodup_singleton id)]
  simp only [mem_topLevelFiles hp hscope, List.mem_singleton]

end Output.Workspace

/-! ## References -/

namespace Generation.Made

variable {g : Generation} {p : Project} {n : Naming} {plan : Plan} {t : Entity.Table} {cs : List ClassId}
variable {c e : ClassId} {r s : Ref}

theorem file_lt (h : g.Made p n plan t cs) (hr : t.ref? c = some r) : r.file < g.workspace.files.size := by
  obtain ⟨d, hd, -⟩ := h.ref?_iff.mp hr
  exact Workspace.lt_size_of_declaration? hd

theorem readsAs_of_unobscured (h : g.Made p n plan t cs) (hr : t.ref? c = some r) (hs : t.ref? e = some s)
    (hclear : g.workspace.Unobscured r s) : g.workspace.ReadsAs r s.qualifiedName e := by
  have hne := h.arranged.path_ne_nil hs
  obtain ⟨name, rest, hpath⟩ := List.exists_cons_of_ne_nil hne
  have hhead : name ∈ s.path.head? := by rw [hpath]; rfl
  obtain ⟨d, hd, hde⟩ := h.ref?_iff.mp hs
  have htop : g.workspace.topLevelFiles (g.workspace.file r.file).package name = [s.file] := by
    refine (Workspace.topLevelFiles_eq_singleton_iff h.inPackage (h.file_lt hr)).mpr fun i => ?_
    refine ⟨hclear.topLevel name hhead i, ?_⟩
    rintro rfl
    exact h.isSome_topLevel hs hhead
  rw [Workspace.ReadsAs, Workspace.read?, (Ref.split_qualifiedName_iff hne).mpr hclear.dotless, hpath, List.headD_cons,
    Workspace.lookUp?_eq_topLevel (hclear.nested name hhead) htop, Option.bind_some]
  have hs' : (⟨s.file, [name] ++ rest⟩ : Ref) = s := by rw [List.singleton_append, ← hpath]
  rw [Ref.topLevel, List.drop_one, List.tail_cons, hs', hd, Option.map_some, hde]

theorem unobscured_of_readsAs (h : g.Made p n plan t cs) (hr : t.ref? c = some r) (hs : t.ref? e = some s)
    (hreads : g.workspace.ReadsAs r s.qualifiedName e) : g.workspace.Unobscured r s := by
  obtain ⟨d, hd, hde⟩ := Option.map_eq_some_iff.mp hreads
  obtain ⟨q, hq, hcases⟩ := Workspace.read?_cases hd
  have hsq : s = q := Option.some.inj (hs.symm.trans (h.ref?_iff.mpr ⟨d, hq, hde⟩))
  subst hsq
  have hjoin : join "." (split '.' s.qualifiedName) = join "." s.path := join_split '.' s.qualifiedName
  rcases hcases with ⟨around, haround, hpath⟩ | ⟨name, hname, hpath, hnested, htop⟩
  · -- a path from further inside is longer than the one that was written
    obtain ⟨-, hne, -⟩ := Ref.mem_outwards.mp haround
    rw [hpath] at hjoin
    exact absurd hjoin.symm (join_append_ne (by decide) hne (split_ne_nil '.' _))
  · have eq_name : ∀ m ∈ s.path.head?, m = name := by
      intro m hm
      rw [hpath] at hm
      exact Option.some.inj (hm.symm.trans hname)
    constructor
    · exact (Ref.split_qualifiedName_iff (h.arranged.path_ne_nil hs)).mp hpath.symm
    · intro m hm
      rw [eq_name m hm]
      exact hnested
    · intro m hm i hi
      rw [eq_name m hm] at hi
      exact ((Workspace.topLevelFiles_eq_singleton_iff h.inPackage (h.file_lt hr)).mp htop i).mp hi

end Generation.Made

/-! ## Runs -/

/-- **References in a run that succeeds** are read as the counterparts of the classes that the fields name exactly when nothing
comes before these. -/
theorem Hooks.references_read_iff {σ : Type} {h : Hooks σ} {p : Project} {o : Options} {s s' : σ} {g : Generation}
    (hrun : h.run [] p o s = (s', .ok g)) :
    g.ForReferences p fun r e target =>
      (g.workspace.ReadsAs r target.qualifiedName e ↔ g.workspace.Unobscured r target) := by
  obtain ⟨n, plan, t, cs, hmade⟩ := h.made_of_run hrun
  refine hmade.forReferences fun c r e target hr htarget => ?_
  exact ⟨hmade.unobscured_of_readsAs hr htarget, hmade.readsAs_of_unobscured hr htarget⟩

/-- When no name at the top of a file is found a second time, at the top of another file or further inside, references are
read as what they are written for. -/
theorem Hooks.references_read {σ : Type} {h : Hooks σ} {p : Project} {o : Options} {s s' : σ} {g : Generation}
    (hrun : h.run [] p o s = (s', .ok g))
    (hdots : ∀ t c, g.table = some t → (t.ref? c).isSome = true → '.' ∉ (p.decl c).name.toList)
    (htop : g.workspace.topLevelNames.Nodup)
    (hinside : ∀ (r : Ref) name, r.path ≠ [] → name ∈ g.workspace.topLevelNames →
      g.workspace.declaration? (r.child name) = .none) :
    g.ForReferences p fun r e target => g.workspace.ReadsAs r target.qualifiedName e := by
  obtain ⟨n, plan, t, cs, hmade⟩ := h.made_of_run hrun
  refine hmade.forReferences fun c r e target hr htarget => hmade.readsAs_of_unobscured hr htarget ?_
  constructor
  · exact hmade.dot_not_mem_path (fun c hc => hdots t c hmade.table hc) htarget
  · intro name hname around haround
    obtain ⟨-, hne, -⟩ := Ref.mem_outwards.mp haround
    exact hinside around name hne (Workspace.mem_topLevelNames.mpr ⟨_, hmade.isSome_topLevel htarget hname⟩)
  · intro name hname id hid
    exact hmade.arranged.distinct.nodup_topLevelNames_iff.mp htop _ _ name hid (hmade.isSome_topLevel htarget hname)

/-- A class that names two classes `Item`, one nested in it and one beside it. -/
def hidingProject : Project :=
  .ofSource ("package demo\ndata class R(val a: R.Item, val b: demo.Item) \x7b\n" ++
    "data class Item(val x: Int)\n\x7d\ndata class Item(val y: String)")

/-- What is generated for the class: `ItemModel` in both places, and the one inside is read. -/
theorem hiding_generated :
    ∃ g t d, (Hooks.none fun _ => false).run [] hidingProject (.ofClass "R") () = ((), .ok g) ∧ g.table = some t ∧
      g.workspace.declaration? ⟨0, ["RModel"]⟩ = some d ∧ d.source = 0 ∧ t.ref? 2 = some ⟨0, ["ItemModel"]⟩ ∧
      (g.workspace.read? ⟨0, ["RModel"]⟩ "ItemModel").map (·.source) = some 1 ∧
      ∃ f ∈ (hidingProject.decl 0).visibleFields, 2 ∈ hidingProject.mentionedBy 0 f := by
  have hrun : (((Hooks.none fun _ => false).run [] hidingProject (.ofClass "R") ()).2.toOption.map fun g =>
      (g.table.map fun t => t.ref? 2, (g.workspace.declaration? ⟨0, ["RModel"]⟩).map (·.source),
        (g.workspace.read? ⟨0, ["RModel"]⟩ "ItemModel").map (·.source))) =
          some (some (some ⟨0, ["ItemModel"]⟩), some 0, some 1) := by decide +kernel
  have hfield : ∃ f ∈ (hidingProject.decl 0).visibleFields, 2 ∈ hidingProject.mentionedBy 0 f := by decide +kernel
  obtain ⟨g, hg, hresult⟩ := Option.map_eq_some_iff.mp hrun
  simp only [Prod.mk.injEq] at hresult
  obtain ⟨htable, hroot, hread⟩ := hresult
  obtain ⟨t, ht, hitem⟩ := Option.map_eq_some_iff.mp htable
  obtain ⟨d, hd, hsource⟩ := Option.map_eq_some_iff.mp hroot
  exact ⟨g, t, d, eq_ok_of_toOption hg, ht, hd, hsource, hitem, hread, hfield⟩

theorem references_read_iff_hidingProject :
    ∃ g, (Hooks.none fun _ => false).run [] hidingProject (.ofClass "R") () = ((), .ok g) ∧
      g.ForReferences hidingProject fun r e target =>
        (g.workspace.ReadsAs r target.qualifiedName e ↔ g.workspace.Unobscured r target) := by
  obtain ⟨g, -, -, hg, -⟩ := hiding_generated
  exact ⟨g, hg, Hooks.references_read_iff hg⟩

/-- The reference to the counterpart beside the class is read as the one inside. -/
theorem hiding_not_read :
    ∃ g, (Hooks.none fun _ => false).run [] hidingProject (.ofClass "R") () = ((), .ok g) ∧
      ¬ g.ForReferences hidingProject fun r e target => g.workspace.ReadsAs r target.qualifiedName e := by
  obtain ⟨g, t, d, hg, ht, hd, hsource, hitem, hread, f, hf, hmentioned⟩ := hiding_generated
  refine ⟨g, hg, fun hall => ?_⟩
  have href : (2, ⟨0, ["ItemModel"]⟩) ∈ hidingProject.references t 0 f :=
    Project.mem_references.mpr ⟨hmentioned, hitem⟩
  have hname : Ref.qualifiedName ⟨0, ["ItemModel"]⟩ = "ItemModel" := rfl
  have hreads := hall.of_mem ht hd hsource hf href
  rw [Workspace.ReadsAs, hname, hread] at hreads
  cases hreads

end Counterpart
