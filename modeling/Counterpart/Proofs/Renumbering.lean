/-
Projects that differ in the numbers of their classes. What generation reads of a class is the same but for the numbers in it
(`Renumbered`), so written types mean the same (`Renumbered.resolve`), are treated the same (`Renumbered.categoryOf`), and
lead to the same classes in the same order (`Renumbered.reachable`).
-/
import Mathlib.Data.List.Basic
import Counterpart.Proofs.Reachable

namespace Counterpart

open Kotlin Text

/-! ## Other numbers -/

mutual

/-- The type with other numbers for the classes in it. -/
def ResolvedType.renumber (f : ClassId → ClassId) : ResolvedType → ResolvedType
  | ⟨written, qualifiedName, importName, classId, args⟩ =>
    ⟨written, qualifiedName, importName, classId.map f, ResolvedType.renumberArgs f args⟩

def ResolvedType.renumberArgs (f : ClassId → ClassId) : List (TypeArg ResolvedType) → List (TypeArg ResolvedType)
  | [] => []
  | a :: as => ResolvedType.renumberArg f a :: ResolvedType.renumberArgs f as

def ResolvedType.renumberArg (f : ClassId → ClassId) : TypeArg ResolvedType → TypeArg ResolvedType
  | .star => .star
  | .type variance ty => .type variance (ResolvedType.renumber f ty)

end

namespace ResolvedType

variable {f : ClassId → ClassId}

@[simp] theorem written_renumber (t : ResolvedType) : (t.renumber f).written = t.written := by
  obtain ⟨written, qualifiedName, importName, classId, args⟩ := t
  rfl

@[simp] theorem qualifiedName_renumber (t : ResolvedType) : (t.renumber f).qualifiedName = t.qualifiedName := by
  obtain ⟨written, qualifiedName, importName, classId, args⟩ := t
  rfl

@[simp] theorem importName_renumber (t : ResolvedType) : (t.renumber f).importName = t.importName := by
  obtain ⟨written, qualifiedName, importName, classId, args⟩ := t
  rfl

@[simp] theorem classId_renumber (t : ResolvedType) : (t.renumber f).classId = t.classId.map f := by
  obtain ⟨written, qualifiedName, importName, classId, args⟩ := t
  rfl

@[simp] theorem args_renumber (t : ResolvedType) : (t.renumber f).args = renumberArgs f t.args := by
  obtain ⟨written, qualifiedName, importName, classId, args⟩ := t
  rfl

@[simp] theorem nullable_renumber (t : ResolvedType) : (t.renumber f).nullable = t.nullable := by
  rw [nullable, written_renumber, nullable]

@[simp] theorem isEmpty_renumberArgs (as : List (TypeArg ResolvedType)) : (renumberArgs f as).isEmpty = as.isEmpty := by
  cases as <;> rfl

mutual

/-- Whether `dom` holds of all classes in the type. -/
def Within (dom : ClassId → Prop) : ResolvedType → Prop
  | ⟨_, _, _, classId, args⟩ => (∀ c ∈ classId, dom c) ∧ WithinArgs dom args

def WithinArgs (dom : ClassId → Prop) : List (TypeArg ResolvedType) → Prop
  | [] => True
  | a :: as => WithinArg dom a ∧ WithinArgs dom as

def WithinArg (dom : ClassId → Prop) : TypeArg ResolvedType → Prop
  | .star => True
  | .type _ ty => Within dom ty

end

theorem within_iff {dom : ClassId → Prop} {t : ResolvedType} :
    t.Within dom ↔ (∀ c ∈ t.classId, dom c) ∧ WithinArgs dom t.args := by
  obtain ⟨written, qualifiedName, importName, classId, args⟩ := t
  rfl

end ResolvedType

/-- The meaning with another number for its class. -/
def Meaning.renumber (f : ClassId → ClassId) (m : Meaning) : Meaning := ⟨m.qualifiedName, m.classId.map f⟩

/-- The treatment with another number for the class in it. -/
def Category.renumber (f : ClassId → ClassId) : Category → Category
  | .userClass id kind => .userClass (f id) kind
  | .unsupported id => .unsupported (f id)
  | .basic b => .basic b
  | .generic base => .generic base
  | .foreign => .foreign

/-! ## Alike projects -/

/-- The class `d` is like `c`, among classes that have the numbers `f` gives. -/
structure ClassDecl.Alike (f : ClassId → ClassId) (c d : ClassDecl) : Prop where
  name : d.name = c.name
  kind : d.kind = c.kind
  enclosing : d.enclosing = c.enclosing.map f
  typeParams : d.typeParams = c.typeParams
  fields : d.fields = c.fields
  entries : d.entries = c.entries

/-- The source files agree but for their numbers. -/
structure SourceFile.Alike (a b : SourceFile) : Prop where
  path : b.path = a.path
  package : b.package = a.package
  imports : b.imports = a.imports

/-- The classes of `p'` are those of `p` with the numbers that `f` gives. The files of the classes in `dom` are alike too. -/
structure Project.Alike (f : ClassId → ClassId) (dom : ClassId → Prop) (p p' : Project) : Prop where
  injective : Function.Injective f
  size : ∀ c, f c < p'.classes.size ↔ c < p.classes.size
  decl : ∀ c, (p.decl c).Alike f (p'.decl (f c))
  fileOf : ∀ c, dom c → (p.fileOf c).Alike (p'.fileOf (f c))
  outermost : ∀ c, dom c → (p'.decl (f c)).outermost = f (p.decl c).outermost
  supported : ∀ c, (p.decl c).isSupported = true → dom c
  dom_enclosing : ∀ c, dom c → ∀ d ∈ (p.decl c).enclosing, dom d
  dom_outermost : ∀ c, dom c → dom (p.decl c).outermost

/-- The project `p'` is `p` with the numbers of the classes that `f` gives: names lead to the same classes. -/
structure Project.Renumbered (f : ClassId → ClassId) (dom : ClassId → Prop) (p p' : Project) : Prop extends
    p.Alike f dom p' where
  find? : ∀ name, p'.find? name = (p.find? name).map f
  findNested? : ∀ c name, p'.findNested? (f c) name = (p.findNested? c name).map f
  dom_find? : ∀ name c, p.find? name = some c → dom c
  dom_nested : ∀ c name d, p.findNested? c name = some d → dom d

namespace Project.Alike

variable {f : ClassId → ClassId} {dom : ClassId → Prop} {p p' : Project} {c d : ClassId}

/-! ## Classes -/

theorem isEnum (h : Alike f dom p p') (c : ClassId) : (p'.decl (f c)).isEnum = (p.decl c).isEnum := by
  rw [ClassDecl.isEnum, (h.decl c).kind, ClassDecl.isEnum]

theorem isSupported (h : Alike f dom p p') (c : ClassId) : (p'.decl (f c)).isSupported = (p.decl c).isSupported := by
  rw [ClassDecl.isSupported, (h.decl c).kind, ClassDecl.isSupported]

theorem visibleFields (h : Alike f dom p p') (c : ClassId) :
    (p'.decl (f c)).visibleFields = (p.decl c).visibleFields := by
  rw [ClassDecl.visibleFields, (h.decl c).fields, ClassDecl.visibleFields]

theorem parent? (h : Alike f dom p p') (c : ClassId) : (p'.decl (f c)).parent? = (p.decl c).parent?.map f := by
  rw [ClassDecl.parent?, (h.decl c).enclosing, List.head?_map, ClassDecl.parent?]

theorem isNestedIn (h : Alike f dom p p') (c d : ClassId) : p'.isNestedIn (f c) (f d) = p.isNestedIn c d := by
  rw [Project.isNestedIn, Project.isNestedIn, h.parent?]
  cases (p.decl c).parent? with
  | none => rfl
  | some e => rw [Option.map_some, Bool.eq_iff_iff, beq_iff_eq, beq_iff_eq, Option.some_inj, Option.some_inj, h.injective.eq_iff]

theorem nestedPath (h : Alike f dom p p') (c : ClassId) : p'.nestedPath (f c) = p.nestedPath c := by
  have hnames : ∀ cs : List ClassId, (cs.map f).map (fun c => (p'.decl c).name) = cs.map fun c => (p.decl c).name := by
    intro cs
    rw [List.map_map]
    exact List.map_congr_left fun d _ => (h.decl d).name
  rw [Project.nestedPath, Project.nestedPath, (h.decl c).enclosing, ← List.map_cons, ← List.map_reverse, hnames]

theorem packageOf (h : Alike f dom p p') (hc : dom c) : p'.packageOf (f c) = p.packageOf c :=
  (h.fileOf c hc).package

theorem qualifiedName (h : Alike f dom p p') (hc : dom c) : p'.qualifiedName (f c) = p.qualifiedName c := by
  rw [Project.qualifiedName, h.packageOf hc, h.nestedPath, Project.qualifiedName]

end Project.Alike

namespace Project.Renumbered

variable {f : ClassId → ClassId} {dom : ClassId → Prop} {p p' : Project} {c d : ClassId}

/-! ## Meanings -/

theorem lookAround (h : Renumbered f dom p p') (name : String) (cs : List ClassId) :
    p'.lookAround name (cs.map f) = (p.lookAround name cs).map (Option.map f) := by
  induction cs with
  | nil => rfl
  | cons c cs ih =>
    rw [List.map_cons, Project.lookAround, Project.lookAround, (h.decl c).typeParams, h.findNested?, (h.decl c).name, ih]
    split
    · rfl
    cases p.findNested? c name with
    | some d => rfl
    | none =>
      rw [Option.map_none]
      simp only
      split <;> rfl

/-- What is found around classes whose files are alike is one of them or nested in one. -/
theorem dom_of_lookAround (h : Renumbered f dom p p') {name : String} {cs : List ClassId} (hcs : ∀ c ∈ cs, dom c)
    (hd : p.lookAround name cs = some (some d)) : dom d := by
  induction cs with
  | nil => cases hd
  | cons c cs ih =>
    rw [Project.lookAround] at hd
    split at hd
    · cases hd
    cases hnested : p.findNested? c name with
    | some e =>
      rw [hnested] at hd
      cases hd
      exact h.dom_nested c name d hnested
    | none =>
      rw [hnested] at hd
      simp only at hd
      split at hd
      · cases hd
        exact hcs d List.mem_cons_self
      · exact ih (fun e he => hcs e (List.mem_cons_of_mem c he)) hd

theorem declared? (h : Renumbered f dom p p') (name : String) :
    p'.declared? name = (p.declared? name).map (Meaning.renumber f) := by
  rw [Project.declared?, Project.declared?, h.find?, Option.map_map, Option.map_map]
  rfl

theorem meaningInFile? (h : Renumbered f dom p p') {a b : SourceFile} (hab : a.Alike b) (name : String) :
    p'.meaningInFile? b name = (p.meaningInFile? a name).map (Meaning.renumber f) := by
  rw [Project.meaningInFile?, Project.meaningInFile?, hab.imports, hab.package]
  split
  · rw [h.find?]
    rfl
  · have hstars : ∀ is : List Import, (is.findSome? fun i => p'.declared? (i.path ++ "." ++ name)) =
        (is.findSome? fun i => p.declared? (i.path ++ "." ++ name)).map (Meaning.renumber f) := by
      intro is
      induction is with
      | nil => rfl
      | cons i is ih =>
        rw [List.findSome?_cons, List.findSome?_cons, h.declared?, ih]
        cases p.declared? (i.path ++ "." ++ name) <;> rfl
    have hdefault : (defaultType? name).map (Meaning.renumber f ∘ fun q => ⟨q, none⟩) =
        (defaultType? name).map fun q => (⟨q, none⟩ : Meaning) := rfl
    rw [h.declared?, hstars, Option.map_or, Option.map_or, Option.map_map, hdefault]

theorem meaning? (h : Renumbered f dom p p') (hc : dom c) (name : String) :
    p'.meaning? (f c) name = (p.meaning? c name).map (Meaning.renumber f) := by
  rw [Project.meaning?, Project.meaning?, (h.decl c).enclosing, ← List.map_cons, h.lookAround]
  cases hd : p.lookAround name (c :: (p.decl c).enclosing) with
  | none => exact h.meaningInFile? (h.fileOf c hc) name
  | some found =>
    cases found with
    | none => rfl
    | some d =>
      have hdom : dom d := h.dom_of_lookAround (List.forall_mem_cons.mpr ⟨hc, h.dom_enclosing c hc⟩) hd
      simp only [Option.map_some, h.qualifiedName hdom]
      rfl

theorem descend (h : Renumbered f dom p p') (c : Option ClassId) (names : List String) :
    p'.descend (c.map f) names = (p.descend c names).map f := by
  induction names generalizing c with
  | nil => rfl
  | cons name names ih =>
    rw [Project.descend, Project.descend, ← ih]
    cases c with
    | none => rfl
    | some c => rw [Option.map_some, Option.bind_some, Option.bind_some, h.findNested?]

theorem meaningOfPath? (h : Renumbered f dom p p') (hc : dom c) (name : String) :
    p'.meaningOfPath? (f c) name = (p.meaningOfPath? c name).map fun m => (m.1.renumber f, m.2) := by
  simp only [Project.meaningOfPath?, h.meaning? hc]
  cases p.meaning? c ((split '.' name).headD "") with
  | none =>
    simp only [Option.map_none]
    split
    · rfl
    · rw [h.find?]
      rfl
  | some m =>
    simp only [Option.map_some, Meaning.renumber, h.descend, h.find?, Option.map_or]

/-! ## Types -/

mutual

/-- **A written type** means the same in both projects. -/
theorem resolve (h : Renumbered f dom p p') (hc : dom c) :
    ∀ ty : TypeRef, p'.resolve (f c) ty = (p.resolve c ty).renumber f
  | .function nullable text => rfl
  | .named name args nullable text => by
    rw [Project.resolve, Project.resolve, h.meaningOfPath? hc, resolveArgs h hc args, ResolvedType.renumber]
    cases p.meaningOfPath? c name <;> rfl

theorem resolveArgs (h : Renumbered f dom p p') (hc : dom c) :
    ∀ as : List (TypeArg TypeRef), p'.resolveArgs (f c) as = ResolvedType.renumberArgs f (p.resolveArgs c as)
  | [] => rfl
  | a :: as => by
    rw [Project.resolveArgs, Project.resolveArgs, ResolvedType.renumberArgs, resolveArg h hc a, resolveArgs h hc as]

theorem resolveArg (h : Renumbered f dom p p') (hc : dom c) :
    ∀ a : TypeArg TypeRef, p'.resolveArg (f c) a = ResolvedType.renumberArg f (p.resolveArg c a)
  | .star => rfl
  | .type variance ty => by
    rw [Project.resolveArg, Project.resolveArg, ResolvedType.renumberArg, resolve h hc ty]

end

theorem dom_of_meaning? (h : Renumbered f dom p p') (hc : dom c) {name : String} {m : Meaning}
    (hm : p.meaning? c name = some m) (hd : d ∈ m.classId) : dom d := by
  have hdeclared : ∀ {q : String} {m : Meaning}, p.declared? q = some m → d ∈ m.classId → dom d := by
    intro q m hm hd
    obtain ⟨e, he, rfl⟩ := Option.map_eq_some_iff.mp hm
    cases hd
    exact h.dom_find? q d he
  rw [Project.meaning?] at hm
  split at hm
  next e he =>
    cases hm
    cases hd
    exact h.dom_of_lookAround (List.forall_mem_cons.mpr ⟨hc, h.dom_enclosing c hc⟩) he
  · cases hm
  · rw [Project.meaningInFile?] at hm
    split at hm
    next i _ =>
      cases hm
      exact h.dom_find? i.path d hd
    · rcases Option.or_eq_some_iff.mp hm with hm | ⟨-, hm⟩
      · exact hdeclared hm hd
      rcases Option.or_eq_some_iff.mp hm with hm | ⟨-, hm⟩
      · obtain ⟨i, _, hi⟩ := List.exists_of_findSome?_eq_some hm
        exact hdeclared hi hd
      · obtain ⟨q, _, rfl⟩ := Option.map_eq_some_iff.mp hm
        cases hd

theorem dom_of_descend (h : Renumbered f dom p p') {o : Option ClassId} (ho : ∀ c ∈ o, dom c) (names : List String) :
    ∀ c ∈ p.descend o names, dom c := by
  induction names generalizing o with
  | nil => exact ho
  | cons name names ih =>
    refine ih fun c hc => ?_
    obtain ⟨d, _, hd⟩ := Option.bind_eq_some_iff.mp hc
    exact h.dom_nested d name c hd

theorem dom_of_meaningOfPath? (h : Renumbered f dom p p') (hc : dom c) {name : String} {m : Meaning × Option String}
    (hm : p.meaningOfPath? c name = some m) (hd : d ∈ m.1.classId) : dom d := by
  simp only [Project.meaningOfPath?] at hm
  split at hm
  next head hhead =>
    cases hm
    rcases Option.or_eq_some_iff.mp hd with hd | ⟨-, hd⟩
    · exact h.dom_of_descend (fun e he => h.dom_of_meaning? hc hhead he) _ d hd
    · exact h.dom_find? _ d hd
  · split at hm
    · cases hm
    · cases hm
      exact h.dom_find? name d hd

mutual

/-- A type leads only to classes whose files are alike. -/
theorem within_resolve (h : Renumbered f dom p p') (hc : dom c) : ∀ ty : TypeRef, (p.resolve c ty).Within dom
  | .function nullable text => by
    rw [Project.resolve, ResolvedType.Within, ResolvedType.WithinArgs]
    exact ⟨nofun, trivial⟩
  | .named name args nullable text => by
    rw [Project.resolve, ResolvedType.Within]
    refine ⟨fun d hd => ?_, within_resolveArgs h hc args⟩
    obtain ⟨m, hm, hd⟩ := Option.bind_eq_some_iff.mp hd
    exact h.dom_of_meaningOfPath? hc hm hd

theorem within_resolveArgs (h : Renumbered f dom p p') (hc : dom c) :
    ∀ as : List (TypeArg TypeRef), ResolvedType.WithinArgs dom (p.resolveArgs c as)
  | [] => trivial
  | a :: as => ⟨within_resolveArg h hc a, within_resolveArgs h hc as⟩

theorem within_resolveArg (h : Renumbered f dom p p') (hc : dom c) :
    ∀ a : TypeArg TypeRef, ResolvedType.WithinArg dom (p.resolveArg c a)
  | .star => trivial
  | .type _ ty => within_resolve h hc ty

end

/-- **A type** is treated the same in both projects. -/
theorem categoryOf (h : Renumbered f dom p p') (t : ResolvedType) :
    p'.categoryOf (t.renumber f) = (p.categoryOf t).renumber f := by
  simp only [Project.categoryOf, ResolvedType.written_renumber, ResolvedType.classId_renumber, ResolvedType.args_renumber,
    ResolvedType.isEmpty_renumberArgs, ResolvedType.qualifiedName_renumber]
  split
  · rfl
  cases t.classId with
  | some d =>
    simp only [Option.map_some, (h.decl d).kind]
    cases (p.decl d).kind <;> simp only <;> first | rfl | (split <;> rfl)
  | none =>
    simp only [Option.map_none]
    split
    · rfl
    cases t.qualifiedName.bind BasicType.ofQualifiedName? <;> rfl

/-! ## Reachable classes -/

mutual

theorem mentioned (h : Renumbered f dom p p') :
    ∀ t : ResolvedType, p'.mentioned (t.renumber f) = (p.mentioned t).map f
  | ⟨written, qualifiedName, importName, classId, args⟩ => by
    have hcategory := h.categoryOf ⟨written, qualifiedName, importName, classId, args⟩
    rw [ResolvedType.renumber] at hcategory ⊢
    rw [Project.mentioned, Project.mentioned, hcategory]
    cases p.categoryOf ⟨written, qualifiedName, importName, classId, args⟩ with
    | generic base => exact mentionedInArgs h args
    | _ => rfl

theorem mentionedInArgs (h : Renumbered f dom p p') : ∀ as : List (TypeArg ResolvedType),
    p'.mentionedInArgs (ResolvedType.renumberArgs f as) = (p.mentionedInArgs as).map f
  | [] => rfl
  | a :: as => by
    rw [ResolvedType.renumberArgs, Project.mentionedInArgs, Project.mentionedInArgs, List.map_append, mentionedInArg h a,
      mentionedInArgs h as]

theorem mentionedInArg (h : Renumbered f dom p p') : ∀ a : TypeArg ResolvedType,
    p'.mentionedInArg (ResolvedType.renumberArg f a) = (p.mentionedInArg a).map f
  | .star => rfl
  | .type variance ty => by
    rw [ResolvedType.renumberArg, Project.mentionedInArg, Project.mentionedInArg, mentioned h ty]

end

theorem mentionedBy (h : Renumbered f dom p p') (hc : dom c) (fd : Field) :
    p'.mentionedBy (f c) fd = (p.mentionedBy c fd).map f := by
  rw [Project.mentionedBy, h.resolve hc, h.mentioned, Project.mentionedBy]

theorem mentions (h : Renumbered f dom p p') (hc : dom c) : p'.mentions (f c) = (p.mentions c).map f := by
  rw [Project.mentions, Project.mentions, h.visibleFields, List.map_flatMap]
  exact List.flatMap_congr fun fd _ => h.mentionedBy hc fd

theorem dom_of_mentions (h : Renumbered f dom p p') (hd : d ∈ p.mentions c) : dom d :=
  h.supported d (isSupported_of_mentions hd)

theorem dom_of_mem_reachable (h : Renumbered f dom p p') (hc : dom c) (hd : d ∈ p.reachable c) : dom d := by
  cases (mem_reachable.mp hd).2 with
  | refl => exact hc
  | tail _ hd => exact h.dom_of_mentions hd

end Project.Renumbered

/-! ## Classes that remain -/

/-- The classes that remain in two runs are the same but for their numbers. -/
structure SameRemaining (f : ClassId → ClassId) (remaining remaining' : List ClassId) : Prop where
  mem : ∀ c, f c ∈ remaining' ↔ c ∈ remaining
  nodup : remaining.Nodup
  nodup' : remaining'.Nodup

namespace SameRemaining

variable {f : ClassId → ClassId} {remaining remaining' : List ClassId}

theorem erase (h : SameRemaining f remaining remaining') (hf : Function.Injective f) (c : ClassId) :
    SameRemaining f (remaining.erase c) (remaining'.erase (f c)) where
  mem d := by rw [h.nodup.mem_erase_iff, h.nodup'.mem_erase_iff, h.mem, hf.ne_iff]
  nodup := h.nodup.erase c
  nodup' := h.nodup'.erase (f c)

/-- Gathering over alike classes gathers alike classes. -/
theorem gather (h : SameRemaining f remaining remaining') (hf : Function.Injective f) {dom : ClassId → Prop}
    {next next' : ClassId → List ClassId} (hnext : ∀ c, dom c → next' (f c) = (next c).map f)
    (hdom : ∀ c, ∀ d ∈ next c, dom d) (pending : List ClassId) (hpending : ∀ c ∈ pending, dom c) :
    Project.gather next' remaining' (pending.map f) = (Project.gather next remaining pending).map f := by
  induction remaining, pending using Project.gather_induction next generalizing remaining' with
  | nil => simp
  | skip remaining c pending hc ih =>
    rw [List.map_cons, Project.gather_cons_of_not_mem hc, Project.gather_cons_of_not_mem (mt (h.mem c).mp hc)]
    exact ih h fun d hd => hpending d (List.mem_cons_of_mem c hd)
  | visit remaining c pending hc ih =>
    rw [List.map_cons, Project.gather_cons_of_mem hc, Project.gather_cons_of_mem ((h.mem c).mpr hc),
      hnext c (hpending c List.mem_cons_self), ← List.map_append, List.map_cons]
    refine congrArg _ (ih (h.erase hf c) fun d hd => ?_)
    rcases List.mem_append.mp hd with hd | hd
    · exact hdom c d hd
    · exact hpending d (List.mem_cons_of_mem c hd)

end SameRemaining

namespace Project.Renumbered

variable {f : ClassId → ClassId} {dom : ClassId → Prop} {p p' : Project} {c : ClassId}

theorem sameRemaining (h : Renumbered f dom p p') :
    SameRemaining f (List.range p.classes.size) (List.range p'.classes.size) where
  mem c := by rw [List.mem_range, List.mem_range, h.size]
  nodup := List.nodup_range
  nodup' := List.nodup_range

/-- **The reachable classes** are the same, in the same order. -/
theorem reachable (h : Renumbered f dom p p') (hc : dom c) : p'.reachable (f c) = (p.reachable c).map f :=
  h.sameRemaining.gather h.injective (fun _ hd => h.mentions hd) (fun _ _ he => h.dom_of_mentions he) [c] (by simpa using hc)

end Project.Renumbered

end Counterpart
