/-
Outputs that differ in numbers. A declaration or a function has the number of its class in it, and an address the number of
its file; nothing that is done to a workspace depends on either (`Workspace.Alike`, kept by every change).
-/
import Counterpart.Output.Workspace
import Counterpart.Proofs.Address

namespace Counterpart

/-- Both give a result, and the results are related, or both fail for the same reason. -/
inductive Agree {α β : Type} (R : α → β → Prop) : Except Failure α → Except Failure β → Prop
  | ok {a : α} {b : β} (h : R a b) : Agree R (.ok a) (.ok b)
  | error (e : Failure) : Agree R (.error e) (.error e)

theorem Agree.of_ok {α β : Type} {R : α → β → Prop} {a : α} {y : Except Failure β} (h : Agree R (.ok a) y) :
    ∃ b, y = .ok b ∧ R a b := by
  cases h with
  | ok h => exact ⟨_, rfl, h⟩

theorem Agree.of_error {α β : Type} {R : α → β → Prop} {e : Failure} {y : Except Failure β} (h : Agree R (.error e) y) :
    y = .error e := by
  cases h
  rfl

theorem Agree.bind {α β γ δ : Type} {R : α → β → Prop} {S : γ → δ → Prop} {x : Except Failure α} {y : Except Failure β}
    {next : α → Except Failure γ} {next' : β → Except Failure δ} (h : Agree R x y)
    (hnext : ∀ a b, R a b → Agree S (next a) (next' b)) : Agree S (x >>= next) (y >>= next') := by
  cases h with
  | ok h => exact hnext _ _ h
  | error e => exact .error e

namespace Output

variable {f : ClassId → ClassId} {ρ : OutputId → OutputId}

/-! ## Other numbers -/

/-- The address with another number for its file. -/
def Ref.renumber (ρ : OutputId → OutputId) (r : Ref) : Ref := ⟨ρ r.file, r.path⟩

@[simp] theorem Ref.qualifiedName_renumber (r : Ref) : (r.renumber ρ).qualifiedName = r.qualifiedName := rfl

/-- The place with another number for its file. -/
def Place.renumber (ρ : OutputId → OutputId) : Place → Place
  | topLevel file => .topLevel (ρ file)
  | inside parent => .inside (parent.renumber ρ)

theorem Place.refTo_renumber (name : String) (place : Place) :
    (place.renumber ρ).refTo name = (place.refTo name).renumber ρ := by
  cases place <;> rfl

/-- The function with another number for its class. -/
def Function.renumber (f : ClassId → ClassId) (fn : Function) : Function := { fn with source := f fn.source }

namespace Declaration

mutual

/-- The declaration with other numbers for the classes. -/
def renumber (f : ClassId → ClassId) : Declaration → Declaration
  | ⟨name, kind, source, typeParams, params, entries, nested⟩ =>
    ⟨name, kind, f source, typeParams, params, entries, renumberAll f nested⟩

def renumberAll (f : ClassId → ClassId) : List Declaration → List Declaration
  | [] => []
  | d :: ds => renumber f d :: renumberAll f ds

end

theorem renumberAll_eq (ds : List Declaration) : renumberAll f ds = ds.map (renumber f) := by
  induction ds with
  | nil => rfl
  | cons d ds ih => rw [renumberAll, ih, List.map_cons]

theorem renumber_eq (d : Declaration) :
    d.renumber f = { d with source := f d.source, nested := d.nested.map (renumber f) } := by
  obtain ⟨name, kind, source, typeParams, params, entries, nested⟩ := d
  rw [renumber, renumberAll_eq]

@[simp] theorem name_renumber (d : Declaration) : (d.renumber f).name = d.name := by rw [renumber_eq]

@[simp] theorem kind_renumber (d : Declaration) : (d.renumber f).kind = d.kind := by rw [renumber_eq]

@[simp] theorem nested_renumber (d : Declaration) : (d.renumber f).nested = d.nested.map (renumber f) := by
  rw [renumber_eq]

theorem findIn?_renumber (name : String) (ds : List Declaration) :
    findIn? name (ds.map (renumber f)) = (findIn? name ds).map (renumber f) := by
  induction ds with
  | nil => rfl
  | cons d ds ih =>
    rw [List.map_cons, findIn?_cons, findIn?_cons, ih, name_renumber]
    split <;> rfl

theorem at?_renumber (path : List String) (ds : List Declaration) :
    at? path (ds.map (renumber f)) = (at? path ds).map (renumber f) := by
  fun_induction at? path ds with
  | case1 => rfl
  | case2 name ds => exact findIn?_renumber name ds
  | case3 name rest ds hrest ih =>
    rw [at?, findIn?_renumber]
    · cases findIn? name ds with
      | none => rfl
      | some d =>
        simp only [Option.map_some, Option.bind_some, nested_renumber]
        exact ih d
    · exact hrest

theorem updateFirst?_renumber {F F' : Declaration → Option Declaration}
    (hF : ∀ d, F' (d.renumber f) = (F d).map (renumber f)) (name : String) (ds : List Declaration) :
    updateFirst? name F' (ds.map (renumber f)) = (updateFirst? name F ds).map (·.map (renumber f)) := by
  induction ds with
  | nil => rfl
  | cons d ds ih =>
    rw [List.map_cons, updateFirst?, updateFirst?, ih, name_renumber]
    split
    · rw [hF, Option.map_map, Option.map_map]
      rfl
    · rw [Option.map_map, Option.map_map]
      rfl

theorem updateAt?_renumber {F F' : Declaration → Declaration} (hF : ∀ d, F' (d.renumber f) = (F d).renumber f)
    (path : List String) (ds : List Declaration) :
    updateAt? F' path (ds.map (renumber f)) = (updateAt? F path ds).map (·.map (renumber f)) := by
  fun_induction updateAt? F path ds with
  | case1 => rfl
  | case2 name ds =>
    refine updateFirst?_renumber (fun d => ?_) name ds
    rw [hF]
    rfl
  | case3 name rest ds hrest ih =>
    rw [updateAt?]
    · refine updateFirst?_renumber (fun d => ?_) name ds
      rw [nested_renumber, ih d, Option.map_map, Option.map_map]
      refine congrArg (Option.map · _) (funext fun nested => ?_)
      simp only [Function.comp, renumber_eq]
    · exact hrest

end Declaration

/-! ## Alike workspaces -/

/-- The files agree but for the numbers of the classes. -/
structure File.Alike (f : ClassId → ClassId) (a b : File) : Prop where
  path : b.path = a.path
  package : b.package = a.package
  role : b.role = a.role
  imports : b.imports = a.imports
  declarations : b.declarations = a.declarations.map (Declaration.renumber f)
  functions : b.functions = a.functions.map (Function.renumber f)

/-- The workspace `w'` has the files of `w`, at the places that `ρ` gives. -/
structure Workspace.Alike (f : ClassId → ClassId) (ρ : OutputId → OutputId) (w w' : Workspace) : Prop where
  injective : Function.Injective ρ
  size : ∀ i, ρ i < w'.files.size ↔ i < w.files.size
  file : ∀ i, (w.file i).Alike f (w'.file (ρ i))

namespace Workspace.Alike

variable {w w' : Workspace}

theorem declaration? (h : Alike f ρ w w') (r : Ref) :
    w'.declaration? (r.renumber ρ) = (w.declaration? r).map (Declaration.renumber f) := by
  rw [Workspace.declaration?, Ref.renumber, (h.file r.file).declarations, Declaration.at?_renumber, Workspace.declaration?]

theorem holds (h : Alike f ρ w w') (place : Place) (name : String) :
    w'.holds (place.renumber ρ) name = w.holds place name := by
  cases place with
  | topLevel file =>
    simp only [Place.renumber, Workspace.holds, (h.file file).declarations, Declaration.findIn?_renumber,
      Option.isSome_map]
  | inside parent =>
    simp only [Place.renumber, Workspace.holds, h.declaration?]
    cases w.declaration? parent with
    | none => rfl
    | some d =>
      simp only [Option.map_some, Option.bind_some, Declaration.findNested?, Declaration.nested_renumber,
        Declaration.findIn?_renumber, Option.isSome_map]

theorem updateFile (h : Alike f ρ w w') (id : OutputId) {F F' : File → File}
    (hF : (F (w.file id)).Alike f (F' (w'.file (ρ id)))) : Alike f ρ (w.updateFile id F) (w'.updateFile (ρ id) F') where
  injective := h.injective
  size i := by rw [size_updateFile, size_updateFile, h.size]
  file i := by
    rw [file_updateFile, file_updateFile]
    simp only [h.injective.eq_iff, h.size]
    split
    next hi => rw [hi.1]; exact hF
    · exact h.file i

theorem updateDeclaration (h : Alike f ρ w w') (r : Ref) {F F' : Declaration → Declaration}
    (hF : ∀ d, F' (d.renumber f) = (F d).renumber f) :
    Agree (Alike f ρ) (w.updateDeclaration r F) (w'.updateDeclaration (r.renumber ρ) F') := by
  have hfile := h.file r.file
  rw [Workspace.updateDeclaration, Workspace.updateDeclaration, Ref.qualifiedName_renumber, Ref.renumber,
    hfile.declarations, Declaration.updateAt?_renumber hF, hfile.path]
  cases Declaration.updateAt? F r.path (w.file r.file).declarations with
  | none => exact .error _
  | some ds => exact .ok (h.updateFile r.file { hfile with declarations := rfl })

theorem addDeclaration (h : Alike f ρ w w') (place : Place) (d : Declaration) :
    Agree (Alike f ρ) (w.addDeclaration place d) (w'.addDeclaration (place.renumber ρ) (d.renumber f)) := by
  cases place with
  | topLevel file =>
    have hfile := h.file file
    refine .ok (h.updateFile file { hfile with declarations := ?_ })
    rw [hfile.declarations, List.map_append, List.map_singleton]
  | inside parent =>
    refine h.updateDeclaration parent fun e => ?_
    simp only [Declaration.renumber_eq, List.map_append, List.map_singleton]

theorem addImport (h : Alike f ρ w w') (id : OutputId) (i : Kotlin.Import) :
    Alike f ρ (w.addImport id i) (w'.addImport (ρ id) i) := by
  have hfile := h.file id
  refine h.updateFile id ?_
  simp only [hfile.package]
  split
  · exact hfile
  · exact { hfile with package := rfl, imports := by rw [hfile.imports] }

theorem addReference (h : Alike f ρ w w') (id : OutputId) (name : String) :
    Alike f ρ (w.addReference id name) (w'.addReference (ρ id) name) := by
  have hfile := h.file id
  exact h.updateFile id { hfile with imports := by rw [hfile.imports, hfile.package] }

theorem addImports (h : Alike f ρ w w') (id : OutputId) (is : List Kotlin.Import) :
    Alike f ρ (is.foldl (fun w i => w.addImport id i) w) (is.foldl (fun w i => w.addImport (ρ id) i) w') := by
  induction is generalizing w w' with
  | nil => exact h
  | cons i is ih => exact ih (h.addImport id i)

theorem addReferences (h : Alike f ρ w w') (id : OutputId) (names : List String) :
    Alike f ρ (w.addReferences id names) (w'.addReferences (ρ id) names) := by
  induction names generalizing w w' with
  | nil => exact h
  | cons name names ih => exact ih (h.addReference id name)

theorem addFunction (h : Alike f ρ w w') (id : OutputId) (fn : Function) :
    Alike f ρ (w.addFunction id fn) (w'.addFunction (ρ id) (fn.renumber f)) := by
  have hfile := h.file id
  refine h.updateFile id { hfile with functions := ?_ }
  rw [hfile.functions, List.map_append, List.map_singleton]

end Workspace.Alike

end Output

end Counterpart
