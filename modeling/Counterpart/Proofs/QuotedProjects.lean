/-
Projects of sources with names quoted. Their classes are called as before and stand in the same places (`Project.QuotedAs`), so
where the scopes are the same, only the import directives and the names that are looked up decide what is found
(`Project.QuotedAs.classOf?_withImports`); and where the types lead to the same classes, the same classes are reachable.
-/
import Mathlib.Data.List.Forall2
import Counterpart.Proofs.LoadOrder
import Counterpart.Proofs.QuotedSources
import Counterpart.Proofs.Reachable

namespace Counterpart

open Kotlin Text
open List (Forall₂)

/-- Whether there is a backtick in the text. -/
def HasQuote (s : String) : Prop := '\x60' ∈ s.toList

instance : DecidablePred HasQuote := fun s => inferInstanceAs (Decidable ('\x60' ∈ s.toList))

theorem not_hasQuote_of_isPlain {s : String} (h : Name.isPlain s) : ¬HasQuote s := fun hquote =>
  absurd (isNameChar_of_isPlain h _ hquote) (by decide)

theorem not_hasQuote_unquote {s s' : String} (h : Requoted s s') : ¬HasQuote (Name.unquote s) := by
  cases h with
  | quoted hplain _ =>
    rw [unquote_of_isPlain hplain]
    exact not_hasQuote_of_isPlain hplain
  | same h =>
    obtain hplain | ⟨ds, hds, hnot⟩ := h
    · rw [unquote_of_isPlain hplain]
      exact not_hasQuote_of_isPlain hplain
    · rwa [unquote_quoted hds, HasQuote, String.toList_ofList]

/-! ## Classes and files -/

/-- A class, and the same class of sources with names quoted. -/
structure ClassDecl.QuotedAs (c d : ClassDecl) : Prop where
  id : d.id = c.id
  name : d.name = c.name
  kind : d.kind = c.kind
  file : d.file = c.file
  enclosing : d.enclosing = c.enclosing
  fields : Forall₂ (Field.Alike Requoted) c.fields d.fields
  unquoted : ¬HasQuote c.name

mutual

theorem ClassDecl.quotedAs_ofTree {file : FileId} {enclosing : List ClassId} {next : ClassId} {t t' : ClassTree} :
    t.Alike Requoted t' → Forall₂ QuotedAs (ofTree file enclosing next t) (ofTree file enclosing next t')
  | .mk htext _ _ _ _ hfields _ hnested => by
    rw [ofTree, ofTree]
    exact .cons ⟨rfl, Spelling.unquote htext, rfl, rfl, rfl, hfields, not_hasQuote_unquote htext⟩ (quotedAs_ofTrees hnested)

theorem ClassDecl.quotedAs_ofTrees {file : FileId} {enclosing : List ClassId} {next : ClassId} {ts ts' : List ClassTree} :
    ClassTree.AllAlike Requoted ts ts' → Forall₂ QuotedAs (ofTrees file enclosing next ts) (ofTrees file enclosing next ts')
  | .nil => .nil
  | .cons ht hts => by
    rw [ofTrees, ofTrees]
    have hfirst : Forall₂ QuotedAs (ofTree file enclosing next _) (ofTree file enclosing next _) := quotedAs_ofTree ht
    rw [← hfirst.length_eq]
    exact List.rel_append hfirst (quotedAs_ofTrees hts)

end

/-- A source file, and the same file with names quoted. -/
structure SourceFile.QuotedAs (f g : SourceFile) : Prop where
  id : g.id = f.id
  path : g.path = f.path
  imports : Forall₂ (Import.Alike Requoted) f.imports g.imports

namespace Project

/-- A project, and the project of the same sources with names quoted. -/
structure QuotedAs (p p' : Project) : Prop where
  files : Forall₂ SourceFile.QuotedAs p.files.toList p'.files.toList
  classes : Forall₂ ClassDecl.QuotedAs p.classes.toList p'.classes.toList

variable {p p' : Project} {c : ClassId}

/-! ## Loading -/

/-- The files with the chosen names of each between backticks. -/
def quoteFiles (chosen : FileId → Nat → Bool) (files : List (Path × String)) : List (Path × String) :=
  files.mapIdx fun i file => (file.1, quoteSource (chosen i) file.2)

theorem QuotedAs.empty : QuotedAs .empty .empty := ⟨.nil, .nil⟩

theorem QuotedAs.size_files (h : p.QuotedAs p') : p'.files.size = p.files.size := by
  simpa using h.files.length_eq.symm

theorem QuotedAs.size_classes (h : p.QuotedAs p') : p'.classes.size = p.classes.size := by
  simpa using h.classes.length_eq.symm

theorem QuotedAs.add (h : p.QuotedAs p') (path : Path) {u u' : SourceUnit} (hu : u.Alike Requoted u') :
    (p.add path u).QuotedAs (p'.add path u') := by
  constructor
  · simp only [Project.add, Array.toList_push, h.size_files]
    exact List.rel_append h.files (.cons ⟨rfl, rfl, hu.imports⟩ .nil)
  · simp only [Project.add, Array.toList_append, h.size_files, h.size_classes]
    exact List.rel_append h.classes (ClassDecl.quotedAs_ofTrees hu.classes)

theorem exists_foldlM_quoteFiles {files : List (Path × String)} {q : Project} (h : p.QuotedAs p')
    (hq : files.foldlM addFile p = .ok q) (chosen : FileId → Nat → Bool) :
    ∃ q', (quoteFiles chosen files).foldlM addFile p' = .ok q' ∧ q.QuotedAs q' := by
  induction files generalizing p p' chosen with
  | nil =>
    cases hq
    exact ⟨p', rfl, h⟩
  | cons file files ih =>
    rw [List.foldlM_cons, addFile] at hq
    cases hsource : SourceUnit.ofSource file.2 with
    | error e =>
      rw [hsource] at hq
      cases hq
    | ok u =>
      rw [hsource] at hq
      obtain ⟨u', hu', halike⟩ := SourceUnit.ofSource_quoteSource hsource (chosen 0)
      obtain ⟨q', hq', hquoted⟩ := ih (h.add file.1 halike) hq fun i => chosen (i + 1)
      refine ⟨q', ?_, hquoted⟩
      rw [quoteFiles, List.mapIdx_cons, List.foldlM_cons, addFile, hu']
      exact hq'

theorem exists_ofFiles_quoteFiles {files : List (Path × String)} (h : ofFiles files = .ok p) (chosen : FileId → Nat → Bool) :
    ∃ p', ofFiles (quoteFiles chosen files) = .ok p' ∧ p.QuotedAs p' := exists_foldlM_quoteFiles .empty h chosen

/-! ## Scopes -/

theorem getD_of_forall₂ {α β : Type} {R : α → β → Prop} {as : List α} {bs : List β} {a : α} {b : β}
    (h : Forall₂ R as bs) (hdefault : R a b) (i : Nat) : R (as.getD i a) (bs.getD i b) := by
  induction h generalizing i with
  | nil => exact hdefault
  | cons hhead _ ih =>
    cases i with
    | zero => exact hhead
    | succ i => exact ih i

theorem QuotedAs.decl (h : p.QuotedAs p') (c : ClassId) : (p.decl c).QuotedAs (p'.decl c) := by
  have := getD_of_forall₂ h.classes (a := default) (b := default) ⟨rfl, rfl, rfl, rfl, rfl, .nil, by decide⟩ c
  simpa [Project.decl, Array.getD_eq_getD_getElem?] using this

theorem QuotedAs.nested (h : p.QuotedAs p') (c : ClassId) : p'.nested c = p.nested c := by
  have hclasses := h.classes
  rw [Project.nested, Project.nested]
  generalize p.classes.toList = cs, p'.classes.toList = ds at hclasses
  induction hclasses with
  | nil => rfl
  | cons hd _ ih =>
    rw [List.filter_cons, List.filter_cons, ClassDecl.parent?, hd.enclosing, ← ClassDecl.parent?]
    split
    · rw [List.map_cons, List.map_cons, hd.id, ih]
    · exact ih

theorem QuotedAs.findNested? (h : p.QuotedAs p') (c : ClassId) (name : String) :
    p'.findNested? c name = p.findNested? c name := by
  simp only [Project.findNested?, h.nested, (h.decl _).name]

/-- The files have the same packages, and the classes type parameters of the same names. -/
structure SameScopes (p p' : Project) : Prop where
  package : ∀ i < p.files.size, (p'.file i).package = (p.file i).package
  typeParams : ∀ c < p.classes.size,
    (TypeParams.ofOption (p'.decl c).typeParams).names = (TypeParams.ofOption (p.decl c).typeParams).names

instance (p p' : Project) : Decidable (p.SameScopes p') :=
  decidable_of_iff ((∀ i < p.files.size, (p'.file i).package = (p.file i).package) ∧ ∀ c < p.classes.size,
    (TypeParams.ofOption (p'.decl c).typeParams).names = (TypeParams.ofOption (p.decl c).typeParams).names)
    ⟨fun h => ⟨h.1, h.2⟩, fun h => ⟨h.1, h.2⟩⟩

/-- Names lead to the same classes in both projects, where no import directive is asked. -/
structure SameNames (p q : Project) : Prop where
  enclosing : ∀ c, (q.decl c).enclosing = (p.decl c).enclosing
  packageOf : ∀ c, q.packageOf c = p.packageOf c
  qualifiedName : ∀ c, q.qualifiedName c = p.qualifiedName c
  find? : ∀ name, q.find? name = p.find? name
  findNested? : ∀ c name, q.findNested? c name = p.findNested? c name
  lookAround : ∀ name cs, q.lookAround name cs = p.lookAround name cs

theorem QuotedAs.sameNames (h : p.QuotedAs p') (hscopes : p.SameScopes p') : p.SameNames p' := by
  have hpackage (i : FileId) : (p'.file i).package = (p.file i).package := by
    by_cases hi : i < p.files.size
    · exact hscopes.package i hi
    · rw [file_of_size_le (Nat.le_of_not_lt hi), file_of_size_le (h.size_files ▸ Nat.le_of_not_lt hi)]
  have htypeParams (c : ClassId) : (TypeParams.ofOption (p'.decl c).typeParams).names =
      (TypeParams.ofOption (p.decl c).typeParams).names := by
    by_cases hc : c < p.classes.size
    · exact hscopes.typeParams c hc
    · rw [decl_of_size_le (Nat.le_of_not_lt hc), decl_of_size_le (h.size_classes ▸ Nat.le_of_not_lt hc)]
  have hpackageOf (c : ClassId) : p'.packageOf c = p.packageOf c := by
    rw [packageOf, fileOf, (h.decl c).file, hpackage, packageOf, fileOf]
  have hqualified (c : ClassId) : p'.qualifiedName c = p.qualifiedName c := by
    simp only [qualifiedName, nestedPath, hpackageOf, (h.decl _).name, (h.decl _).enclosing]
  refine ⟨fun c => (h.decl c).enclosing, hpackageOf, hqualified, fun name => ?_, h.findNested?, fun name cs => ?_⟩
  · simp only [find?, hqualified, h.size_classes]
  · induction cs with
    | nil => rfl
    | cons c cs ih =>
      rw [lookAround, lookAround, TypeParams.contains, TypeParams.contains, htypeParams, h.findNested?, (h.decl c).name, ih]

/-! ## Looking up names -/

/-- The class that a dotted name means inside a class. -/
def classOf? (p : Project) (scope : ClassId) (name : String) : Option ClassId :=
  (p.meaningOfPath? scope name).bind (·.1.classId)

namespace SameNames

variable {q r : Project}

theorem symm (h : p.SameNames q) : q.SameNames p :=
  ⟨fun c => (h.enclosing c).symm, fun c => (h.packageOf c).symm, fun c => (h.qualifiedName c).symm,
    fun name => (h.find? name).symm, fun c name => (h.findNested? c name).symm, fun name cs => (h.lookAround name cs).symm⟩

theorem trans (h : p.SameNames q) (h' : q.SameNames r) : p.SameNames r :=
  ⟨fun c => (h'.enclosing c).trans (h.enclosing c), fun c => (h'.packageOf c).trans (h.packageOf c),
    fun c => (h'.qualifiedName c).trans (h.qualifiedName c), fun name => (h'.find? name).trans (h.find? name),
    fun c name => (h'.findNested? c name).trans (h.findNested? c name),
    fun name cs => (h'.lookAround name cs).trans (h.lookAround name cs)⟩

theorem descend (h : p.SameNames q) (o : Option ClassId) (names : List String) : q.descend o names = p.descend o names := by
  induction names generalizing o with
  | nil => rfl
  | cons name names ih => simp only [Project.descend, h.findNested?, ih]

/-- The class of a dotted name is found by what its first segment means. -/
theorem classOf?_of_meaning? (h : p.SameNames q) {name : String}
    (hmeaning : q.meaning? c ((split '.' name).headD "") = p.meaning? c ((split '.' name).headD "")) :
    q.classOf? c name = p.classOf? c name := by
  simp only [Project.classOf?, meaningOfPath?, hmeaning, h.descend, h.find?]

/-- A name means the same in a class when its file has the same directives. -/
theorem classOf? (h : p.SameNames q) (himports : (q.fileOf c).imports = (p.fileOf c).imports) (name : String) :
    q.classOf? c name = p.classOf? c name := by
  have hpackage : (q.fileOf c).package = (p.fileOf c).package := h.packageOf c
  refine h.classOf?_of_meaning? ?_
  simp only [meaning?, meaningInFile?, declared?, h.enclosing, h.lookAround, h.qualifiedName, h.find?, himports, hpackage]

end SameNames

/-- The project with other import directives at the top of its files. -/
def withImports (p : Project) (imports : FileId → List Import) : Project :=
  { p with files := p.files.mapIdx fun i f => { f with imports := imports i } }

theorem file_withImports (p : Project) (imports : FileId → List Import) (i : FileId) :
    (p.withImports imports).file i = if i < p.files.size then { p.file i with imports := imports i } else default := by
  by_cases hi : i < p.files.size <;> simp [file, withImports, Array.getD_eq_getD_getElem?, hi]

theorem sameNames_withImports (p : Project) (imports : FileId → List Import) : p.SameNames (p.withImports imports) := by
  have hpackageOf (c : ClassId) : (p.withImports imports).packageOf c = p.packageOf c := by
    change ((p.withImports imports).file (p.decl c).file).package = (p.file (p.decl c).file).package
    rw [file_withImports]
    split
    next => rfl
    next hi => rw [file_of_size_le (Nat.le_of_not_lt hi)]
  have hqualified (c : ClassId) : (p.withImports imports).qualifiedName c = p.qualifiedName c := by
    rw [qualifiedName, hpackageOf]
    rfl
  refine ⟨fun c => rfl, hpackageOf, hqualified, fun name => ?_, fun c name => rfl, fun name cs => ?_⟩
  · simp only [find?, hqualified]
    rfl
  · induction cs with
    | nil => rfl
    | cons c cs ih =>
      rw [lookAround, lookAround, ih]
      rfl

theorem imports_withImports (p : Project) (imports : FileId → List Import) (c : ClassId) :
    ((p.withImports imports).fileOf c).imports = if (p.decl c).file < p.files.size then imports (p.decl c).file else [] := by
  change ((p.withImports imports).file (p.decl c).file).imports = _
  rw [file_withImports]
  split <;> rfl

theorem withImports_self (p : Project) : (p.withImports fun i => (p.file i).imports) = p := by
  obtain ⟨files, classes⟩ := p
  simp only [withImports, mk.injEq, and_true]
  refine Array.ext (by simp) fun i hi hi' => ?_
  simp [file, hi']

/-- **With the same directives** a name means the same, whatever is quoted where it is declared. -/
theorem QuotedAs.classOf?_withImports (h : p.QuotedAs p') (hscopes : p.SameScopes p') (imports : FileId → List Import)
    (c : ClassId) (name : String) : (p'.withImports imports).classOf? c name = (p.withImports imports).classOf? c name := by
  have hnames := (p.sameNames_withImports imports).symm.trans ((h.sameNames hscopes).trans (p'.sameNames_withImports imports))
  refine hnames.classOf? ?_ name
  rw [imports_withImports, imports_withImports, (h.decl c).file, h.size_files]

/-! ## Reachable classes -/

/-- What a type mentions, by the class of its name. -/
theorem mentioned_resolve (p : Project) (c : ClassId) (name : String) (args : List (TypeArg TypeRef)) (nullable : Bool)
    (text : String) : p.mentioned (p.resolve c (.named name args nullable text)) =
      match p.classOf? c name with
      | some d => if (p.decl d).isSupported then [d] else p.mentionedInArgs (p.resolveArgs c args)
      | none => p.mentionedInArgs (p.resolveArgs c args) := by
  have hempty : (p.resolveArgs c args).isEmpty = true → p.mentionedInArgs (p.resolveArgs c args) = [] := by
    intro h
    rw [List.isEmpty_iff.mp h, mentionedInArgs]
  have hclass : ((p.meaningOfPath? c name).bind fun m => m.1.classId) = p.classOf? c name := rfl
  rw [resolve, mentioned, categoryOf, if_neg (by simp [TypeRef.isFunction])]
  simp only [hclass]
  cases p.classOf? c name with
  | some d =>
    obtain ⟨kind, hkind⟩ : ∃ kind, (p.decl d).kind = kind := ⟨_, rfl⟩
    simp only [ClassDecl.isSupported, hkind]
    cases kind with
    | data | enum => rfl
    | _ =>
      by_cases hargs : (p.resolveArgs c args).isEmpty = true
      · simp [ClassKind.isSupported, hargs, hempty hargs]
      · simp [ClassKind.isSupported, hargs]
  | none =>
    by_cases hargs : (p.resolveArgs c args).isEmpty = true
    · simp only [hargs, hempty hargs, Bool.not_true, Bool.false_eq_true, if_false]
      split <;> rename_i h <;> split at h <;> first | rfl | cases h
    · simp [hargs]

mutual

/-- The classes that the names in a type mean inside a class, in the order of the text. -/
def classesIn (p : Project) (scope : ClassId) : TypeRef → List (Option ClassId)
  | .named name args _ _ => p.classOf? scope name :: p.classesInArgs scope args
  | .function _ _ => []

def classesInArgs (p : Project) (scope : ClassId) : List (TypeArg TypeRef) → List (Option ClassId)
  | [] => []
  | a :: as => p.classesInArg scope a ++ p.classesInArgs scope as

def classesInArg (p : Project) (scope : ClassId) : TypeArg TypeRef → List (Option ClassId)
  | .star => []
  | .type _ ty => p.classesIn scope ty

end

section SameForm

variable {R : String → String → Prop}

mutual

theorem length_classesIn {ty ty' : TypeRef} :
    ty.Alike R ty' → (p'.classesIn c ty').length = (p.classesIn c ty).length
  | .named _ hargs _ _ _ => by rw [classesIn, classesIn, List.length_cons, List.length_cons, length_classesInArgs hargs]
  | .function _ _ _ => rfl

theorem length_classesInArgs {as as' : List (TypeArg TypeRef)} :
    TypeRef.ArgsAlike R as as' → (p'.classesInArgs c as').length = (p.classesInArgs c as).length
  | .nil => rfl
  | .cons ha has => by
    rw [classesInArgs, classesInArgs, List.length_append, List.length_append, length_classesInArg ha, length_classesInArgs has]

theorem length_classesInArg {a a' : TypeArg TypeRef} :
    TypeRef.ArgAlike R a a' → (p'.classesInArg c a').length = (p.classesInArg c a).length
  | .star => rfl
  | .type _ hty => by rw [classesInArg, classesInArg, length_classesIn hty]

end

mutual

theorem QuotedAs.mentioned (h : p.QuotedAs p') {ty ty' : TypeRef} :
    ty.Alike R ty' → p'.classesIn c ty' = p.classesIn c ty →
      p'.mentioned (p'.resolve c ty') = p.mentioned (p.resolve c ty)
  | .named _ hargs _ _ _, hclasses => by
    obtain ⟨hname, hclasses⟩ := List.cons.inj hclasses
    rw [mentioned_resolve, mentioned_resolve, hname, h.mentionedInArgs hargs hclasses]
    cases p.classOf? c _ with
    | none => rfl
    | some d =>
      simp only [ClassDecl.isSupported, (h.decl d).kind]
      rfl
  | .function _ _ _, _ => rfl

theorem QuotedAs.mentionedInArgs (h : p.QuotedAs p') {as as' : List (TypeArg TypeRef)} :
    TypeRef.ArgsAlike R as as' → p'.classesInArgs c as' = p.classesInArgs c as →
      p'.mentionedInArgs (p'.resolveArgs c as') = p.mentionedInArgs (p.resolveArgs c as)
  | .nil, _ => rfl
  | .cons ha has, hclasses => by
    obtain ⟨hfirst, hrest⟩ := List.append_inj hclasses (length_classesInArg ha)
    rw [resolveArgs, resolveArgs, Project.mentionedInArgs, Project.mentionedInArgs, h.mentionedInArg ha hfirst,
      h.mentionedInArgs has hrest]

theorem QuotedAs.mentionedInArg (h : p.QuotedAs p') {a a' : TypeArg TypeRef} :
    TypeRef.ArgAlike R a a' → p'.classesInArg c a' = p.classesInArg c a →
      p'.mentionedInArg (p'.resolveArg c a') = p.mentionedInArg (p.resolveArg c a)
  | .star, _ => rfl
  | .type _ hty, hclasses => by
    rw [resolveArg, resolveArg, Project.mentionedInArg, Project.mentionedInArg, h.mentioned hty hclasses]

end

end SameForm

/-- The types of the visible fields mean the same classes in both projects. -/
def SameClasses (p p' : Project) : Prop :=
  ∀ c < p.classes.size, ((p'.decl c).visibleFields.map fun f => p'.classesIn c f.ty) =
    (p.decl c).visibleFields.map fun f => p.classesIn c f.ty

instance (p p' : Project) : Decidable (p.SameClasses p') := Nat.decidableBallLT _ _

theorem QuotedAs.visibleFields (h : p.QuotedAs p') (c : ClassId) :
    Forall₂ (Field.Alike Requoted) (p.decl c).visibleFields (p'.decl c).visibleFields := by
  have hfields := (h.decl c).fields
  rw [ClassDecl.visibleFields, ClassDecl.visibleFields]
  generalize (p.decl c).fields = fs, (p'.decl c).fields = fs' at hfields
  induction hfields with
  | nil => exact .nil
  | cons hf _ ih =>
    rw [List.filter_cons, List.filter_cons, Field.isPrivate, Field.isPrivate, hf.visibility]
    split
    · exact .cons hf ih
    · exact ih

/-- **Where all types mean the same classes**, the same classes are reachable, in the same order. -/
theorem QuotedAs.reachable (h : p.QuotedAs p') (hclasses : p.SameClasses p') (root : ClassId) :
    p'.reachable root = p.reachable root := by
  rw [Project.reachable, Project.reachable, h.size_classes]
  refine (gather_congr fun c hc => ?_).symm
  have hsame := hclasses c (List.mem_range.mp (subset_of_gather _ _ hc))
  have hfields := h.visibleFields c
  rw [mentions, mentions]
  generalize (p.decl c).visibleFields = fs, (p'.decl c).visibleFields = fs' at hfields hsame
  induction hfields with
  | nil => rfl
  | cons hf _ ih =>
    obtain ⟨hty, hsame⟩ := List.cons.inj hsame
    rw [List.flatMap_cons, List.flatMap_cons, mentionedBy, mentionedBy, h.mentioned hf.ty hty, ih hsame]

end Project

end Counterpart
