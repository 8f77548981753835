/-
A project kept by links. `Links` is what a reader can keep while classes come in one by one: every class knows the class
directly around it, every class and every file has a list of the classes directly inside it, and an index has the first class
of every qualified name. Names are read off by climbing from a class to the one around it. Registering the classes of a source
one after the other keeps these three in step with the project (`Links.Mirrors`), so after any number of files the links,
the lists and the index say the same (`Links.ofSources_linked`).
-/
import Std.Data.HashMap.Lemmas
import Counterpart.Proofs.DistinctNames
import Counterpart.Proofs.KnownNames

namespace Counterpart

open Kotlin Text

/-! ## Links -/

/-- What is kept of a class. -/
structure LinkedClass where
  name : String
  file : FileId
  /-- The class directly around it. -/
  parent : Option ClassId
  /-- The classes directly inside it. -/
  nested : List ClassId
  /-- The byte offset of the name. -/
  offset : Nat

/-- What is kept of a file. -/
structure LinkedFile where
  package : String
  /-- The classes that are inside no other. -/
  classes : List ClassId

/-- A project as links. A number of a class or a file is its place in the list of them. -/
structure Links where
  files : List LinkedFile
  classes : List LinkedClass
  /-- The first class of each qualified name. -/
  index : Std.HashMap String ClassId

namespace Links

/-- Nothing registered. -/
def empty : Links := ⟨[], [], ∅⟩

/-- The classes met by climbing from a class, itself first; none when a link leads nowhere, or when `steps` steps do not get to
the end. -/
def climb? (l : Links) : (steps : Nat) → Option ClassId → Option (List ClassId)
  | _, none => some []
  | 0, some _ => none
  | steps + 1, some c => do
    let entry ← l.classes[c]?
    return c :: (← l.climb? steps entry.parent)

/-- The classes met by climbing, in as many steps as there are classes. -/
def around? (l : Links) (c : Option ClassId) : Option (List ClassId) := l.climb? l.classes.length c

/-- The name of a class with those of the classes around it, outermost first: collected on the way up, then turned round. -/
def nestedPath? (l : Links) (c : ClassId) : Option String := do
  let cs ← l.around? (some c)
  let names ← cs.mapM fun c => (l.classes[c]?).map (·.name)
  return join "." names.reverse

/-- The qualified name of a class of this name, file and parent: each name met on the way up is put in front. -/
def nameOf? (l : Links) (name : String) (file : FileId) (parent : Option ClassId) : Option String := do
  let cs ← l.around? parent
  let path ← cs.foldlM (fun path c => (l.classes[c]?).map fun entry => entry.name ++ "." ++ path) name
  let f ← l.files[file]?
  return if f.package.isEmpty then path else f.package ++ "." ++ path

def qualifiedName? (l : Links) (c : ClassId) : Option String := do
  let entry ← l.classes[c]?
  l.nameOf? entry.name entry.file entry.parent

/-- The outermost class around a class, or the class itself. -/
def outermost? (l : Links) (c : ClassId) : Option ClassId := do
  let cs ← l.around? (some c)
  cs.getLast?

/-- The class of this qualified name that the index has. -/
def find? (l : Links) (name : String) : Option ClassId := l.index[name]?

/-! ## Registering -/

/-- Registers a file. -/
def addFile (l : Links) (package : String) : Links := { l with files := l.files ++ [⟨package, []⟩] }

/-- Puts a class behind those of the class around it, or else of its file. -/
def link? (l : Links) (id : ClassId) (file : FileId) : (parent : Option ClassId) → Option Links
  | some q => (l.classes[q]?).map fun _ =>
    { l with classes := l.classes.modify q fun entry => { entry with nested := entry.nested ++ [id] } }
  | none => (l.files[file]?).map fun _ =>
    { l with files := l.files.modify file fun f => { f with classes := f.classes ++ [id] } }

/-- Registers a class: links it, and puts it into the index unless its name is there. -/
def addClass (l : Links) (name : String) (file : FileId) (parent : Option ClassId) (offset : Nat) : Option Links := do
  let id := l.classes.length
  let linked ← l.link? id file parent
  let qualified ← linked.nameOf? name file parent
  return { linked with
    classes := linked.classes ++ [⟨name, file, parent, [], offset⟩]
    index := linked.index.insertIfNew qualified id }

mutual

/-- Registers a class, then the classes inside it. -/
def addTree (l : Links) (file : FileId) (parent : Option ClassId) : ClassTree → Option Links
  | ⟨name, _, _, _, _, nested, offset⟩ => do
    let added ← l.addClass name file parent offset
    added.addTrees file (some l.classes.length) nested

/-- Registers the classes of a list in turn. -/
def addTrees (l : Links) (file : FileId) (parent : Option ClassId) : List ClassTree → Option Links
  | [] => some l
  | t :: ts => do
    let added ← l.addTree file parent t
    added.addTrees file parent ts

end

/-- Registers a source: its file, then its classes. -/
def addUnit (l : Links) (unit : SourceUnit) : Option Links :=
  (l.addFile unit.package).addTrees l.files.length none unit.classes

end Links

namespace Project

/-! ## A project by its links -/

/-- No class is directly inside one that is still to come. -/
theorem Numbered.nested_size {p : Project} (h : p.Numbered) : p.nested p.classes.size = [] := by
  rw [nested, List.map_eq_nil_iff, List.filter_eq_nil_iff]
  intro d hd hparent
  obtain ⟨c, hc, rfl⟩ := List.mem_iff_getElem.mp hd
  have hc' : c < p.classes.size := by simpa using hc
  have hdecl : p.classes.toList[c] = p.decl c := by simp [decl, hc']
  rw [hdecl, beq_iff_eq, ClassDecl.parent?] at hparent
  have hlt := h.lt_of_mem_enclosing hc' (List.mem_of_head? hparent)
  omega

/-- The project with one more class. -/
def push (p : Project) (d : ClassDecl) : Project := ⟨p.files, p.classes.push d⟩

/-- The classes `enclosing`, innermost first, are a class of the project, in the file, and the classes around it. -/
def Encloses (p : Project) (file : FileId) (enclosing : List ClassId) : Prop :=
  enclosing = [] ∨ ∃ e : Nat, e < p.classes.size ∧ enclosing = e :: (p.decl e).enclosing ∧ (p.decl e).file = file

def linkedClass (p : Project) (c : ClassId) : LinkedClass :=
  ⟨(p.decl c).name, (p.decl c).file, (p.decl c).parent?, p.nested c, (p.decl c).offset⟩

def linkedFile (p : Project) (f : FileId) : LinkedFile := ⟨(p.file f).package, p.topLevel f⟩

section Push

variable {p : Project} {d : ClassDecl}

theorem size_push : (p.push d).classes.size = p.classes.size + 1 := by
  simp [push]

theorem decl_push (c : Nat) : (p.push d).decl c = if c = p.classes.size then d else p.decl c := by
  simp only [decl, push, Array.getD_eq_getD_getElem?, Array.getElem?_push]
  split <;> rfl

theorem decl_push_of_lt {c : Nat} (hc : c < p.classes.size) : (p.push d).decl c = p.decl c := by
  rw [decl_push, if_neg (Nat.ne_of_lt hc)]

/-- The next class comes behind those of its kind. -/
theorem idsWhere_push (which : ClassDecl → Bool) : ((p.push d).classes.toList.filter which).map (·.id) =
    (p.classes.toList.filter which).map (·.id) ++ if which d then [d.id] else [] := by
  have htail : (p.push d).classes.toList = p.classes.toList ++ [d] := Array.toList_push
  rw [htail, List.filter_append, List.map_append, List.filter_singleton]
  cases which d <;> rfl

theorem nested_push (c : ClassId) : (p.push d).nested c = p.nested c ++ if d.parent? = some c then [d.id] else [] := by
  rw [nested, idsWhere_push]
  simp only [beq_iff_eq]
  rfl

theorem topLevel_push (f : FileId) :
    (p.push d).topLevel f = p.topLevel f ++ if d.file = f ∧ d.enclosing = [] then [d.id] else [] := by
  rw [topLevel, idsWhere_push]
  simp only [Bool.and_eq_true, beq_iff_eq, List.isEmpty_iff]
  rfl

variable (hn : p.Numbered)
include hn

theorem Encloses.lt_of_mem {file : FileId} {enclosing : List ClassId} (h : p.Encloses file enclosing) {e : Nat}
    (he : e ∈ enclosing) : e < p.classes.size := by
  obtain rfl | ⟨q, hq, rfl, -⟩ := h
  · cases he
  · rcases List.mem_cons.mp he with rfl | he
    · exact hq
    · exact Nat.lt_trans (hn.lt_of_mem_enclosing hq he) hq

/-- The qualified name of a class is read off the classes before it. -/
theorem qualifiedName_push_of_lt {c : Nat} (hc : c < p.classes.size) : (p.push d).qualifiedName c = p.qualifiedName c := by
  have hnames : ((c :: (p.decl c).enclosing).reverse.map fun e => ((p.push d).decl e).name) =
      (c :: (p.decl c).enclosing).reverse.map fun e => (p.decl e).name := by
    refine List.map_congr_left fun e he => ?_
    rw [List.mem_reverse] at he
    rcases List.mem_cons.mp he with rfl | he
    · rw [decl_push_of_lt hc]
    · rw [decl_push_of_lt (Nat.lt_trans (hn.lt_of_mem_enclosing hc he) hc)]
  have hfile : (p.push d).fileOf c = p.fileOf c := by
    rw [fileOf, fileOf, decl_push_of_lt hc]
    rfl
  rw [qualifiedName, qualifiedName, nestedPath, nestedPath, packageOf, packageOf, hfile, decl_push_of_lt hc, hnames]

theorem Numbered.push (hid : d.id = p.classes.size) (hfile : d.file < p.files.size) (henclosing : p.Encloses d.file d.enclosing) :
    (p.push d).Numbered := by
  have kept : ∀ {file : FileId} {enclosing : List ClassId} {bound : Nat}, bound ≤ p.classes.size →
      (enclosing = [] ∨ ∃ e : Nat, e < bound ∧ enclosing = e :: (p.decl e).enclosing ∧ (p.decl e).file = file) →
      enclosing = [] ∨
        ∃ e : Nat, e < bound ∧ enclosing = e :: ((p.push d).decl e).enclosing ∧ ((p.push d).decl e).file = file := by
    intro file enclosing bound hbound h
    refine h.imp_right fun ⟨e, he, h⟩ => ⟨e, he, ?_⟩
    rwa [decl_push_of_lt (Nat.lt_of_lt_of_le he hbound)]
  intro c hc
  rw [size_push] at hc
  by_cases hold : c < p.classes.size
  · obtain ⟨hid', hfile', henclosing'⟩ := hn c hold
    refine ⟨?_, ?_, ?_⟩ <;> rw [decl_push_of_lt hold]
    · exact hid'
    · exact hfile'
    · exact kept (Nat.le_of_lt hold) henclosing'
  · have hnew : c = p.classes.size := by omega
    subst hnew
    have hdecl : (p.push d).decl p.classes.size = d := by rw [decl_push, if_pos rfl]
    refine ⟨?_, ?_, ?_⟩ <;> rw [hdecl]
    · exact hid
    · exact hfile
    · exact kept (Nat.le_refl _) henclosing

end Push

theorem Encloses.push {p : Project} {file : FileId} {enclosing : List ClassId} (d : ClassDecl) (h : p.Encloses file enclosing) :
    (p.push d).Encloses file enclosing := by
  refine h.imp_right fun ⟨e, he, h⟩ => ⟨e, by rw [size_push]; omega, ?_⟩
  rwa [decl_push_of_lt he]

end Project

/-! ## Links that mirror a project -/

/-- Changing one entry of a list that is given entry by entry. -/
theorem modify_map_range {α : Type} {f g : Nat → α} {change : α → α} {n k : Nat}
    (h : ∀ i < n, g i = if k = i then change (f i) else f i) : ((List.range n).map f).modify k change = (List.range n).map g := by
  refine List.ext_getElem? fun i => ?_
  by_cases hi : i < n
  · rw [List.getElem?_modify, List.getElem?_map, List.getElem?_map, List.getElem?_range hi, Option.map_some, Option.map_some,
      h i hi]
    split <;> rfl
  · simp [hi]

/-- The links of the first `n` classes, the lists and the index say what the project says of these. -/
structure Links.Mirrors (l : Links) (p : Project) (n : Nat) : Prop where
  le : n ≤ p.classes.size
  files : l.files = (List.range p.files.size).map p.linkedFile
  classes : l.classes = (List.range n).map p.linkedClass
  index : ∀ name, l.find? name = (List.range n).find? fun c => p.qualifiedName c == name

namespace Links.Mirrors

variable {l : Links} {p : Project} {n : Nat} (h : l.Mirrors p n)
include h

theorem length_classes : l.classes.length = n := by
  rw [h.classes, List.length_map, List.length_range]

theorem length_files : l.files.length = p.files.size := by
  rw [h.files, List.length_map, List.length_range]

theorem getElem?_classes {c : Nat} (hc : c < n) : l.classes[c]? = some (p.linkedClass c) := by
  rw [h.classes, List.getElem?_map, List.getElem?_range hc, Option.map_some]

theorem getElem?_files {f : Nat} (hf : f < p.files.size) : l.files[f]? = some (p.linkedFile f) := by
  rw [h.files, List.getElem?_map, List.getElem?_range hf, Option.map_some]

variable (hn : p.Numbered)
include hn

/-! ## Climbing -/

/-- **Climbing ends**: from a class one gets to the classes around it, in no more steps than there are classes before it. -/
theorem climb?_eq {c : Nat} (hc : c < n) {steps : Nat} (hsteps : c < steps) :
    l.climb? steps (some c) = some (c :: (p.decl c).enclosing) := by
  induction c using Nat.strongRecOn generalizing steps with
  | ind c ih =>
    obtain ⟨steps, rfl⟩ := Nat.exists_eq_add_one_of_ne_zero (Nat.ne_zero_of_lt hsteps)
    rw [climb?, h.getElem?_classes hc]
    obtain henclosing | ⟨e, he, henclosing, -⟩ := (hn c (Nat.lt_of_lt_of_le hc h.le)).enclosing
    · simp [Project.linkedClass, ClassDecl.parent?, henclosing, climb?]
    · have hlt : e < steps := by omega
      have hrest := ih e he (Nat.lt_trans he hc) hlt
      simp [Project.linkedClass, ClassDecl.parent?, henclosing, hrest]

theorem around?_eq {c : Nat} (hc : c < n) : l.around? (some c) = some (c :: (p.decl c).enclosing) :=
  h.climb?_eq hn hc (by rwa [h.length_classes])

theorem around?_parent? {c : Nat} (hc : c ≤ n) (hsize : c < p.classes.size) :
    l.around? (p.decl c).parent? = some (p.decl c).enclosing := by
  obtain henclosing | ⟨e, he, henclosing, -⟩ := (hn c hsize).enclosing
  · rw [ClassDecl.parent?, henclosing, List.head?_nil, around?]
    cases l.classes.length <;> rfl
  · rw [ClassDecl.parent?, henclosing]
    exact h.around?_eq hn (Nat.lt_of_lt_of_le he hc)

theorem nestedPath?_eq {c : Nat} (hc : c < n) : l.nestedPath? c = some (p.nestedPath c) := by
  have hnames : ∀ cs : List Nat, (∀ e ∈ cs, e < n) →
      cs.mapM (fun e => (l.classes[e]?).map (·.name)) = some (cs.map fun e => (p.decl e).name) := by
    intro cs hcs
    induction cs with
    | nil => rfl
    | cons e cs ih =>
      rw [List.forall_mem_cons] at hcs
      rw [List.mapM_cons, h.getElem?_classes hcs.1, ih hcs.2]
      rfl
  have hall : ∀ e ∈ c :: (p.decl c).enclosing, e < n := by
    intro e he
    rcases List.mem_cons.mp he with rfl | he
    · exact hc
    · exact Nat.lt_trans (hn.lt_of_mem_enclosing (Nat.lt_of_lt_of_le hc h.le) he) hc
  rw [nestedPath?, h.around?_eq hn hc, Project.nestedPath, List.map_reverse, Option.bind_eq_bind, Option.bind_some,
    Option.bind_eq_bind, hnames _ hall]
  rfl

omit hn in
/-- Putting the names in front one after the other gives the path that is collected. -/
theorem foldlM_names (name : String) (cs : List Nat) (hcs : ∀ e ∈ cs, e < n) :
    cs.foldlM (fun path e => (l.classes[e]?).map fun entry => entry.name ++ "." ++ path) name =
      some (join "." ((cs.reverse.map fun e => (p.decl e).name) ++ [name])) := by
  induction cs generalizing name with
  | nil => rfl
  | cons e cs ih =>
    rw [List.forall_mem_cons] at hcs
    rw [List.foldlM_cons, h.getElem?_classes hcs.1]
    refine (ih _ hcs.2).trans ?_
    rw [List.reverse_cons, List.map_append, List.append_assoc]
    by_cases hempty : cs.reverse.map (fun e => (p.decl e).name) = []
    · rw [hempty]
      rfl
    · rw [join_append hempty (by simp), join_append hempty (by simp)]
      rfl

/-- A class gets its qualified name when the classes before it are registered. -/
theorem nameOf?_eq {c : Nat} (hc : c ≤ n) (hsize : c < p.classes.size) :
    l.nameOf? (p.decl c).name (p.decl c).file (p.decl c).parent? = some (p.qualifiedName c) := by
  have hnames := h.foldlM_names (p.decl c).name (p.decl c).enclosing fun e he =>
    Nat.lt_of_lt_of_le (hn.lt_of_mem_enclosing hsize he) hc
  rw [nameOf?, h.around?_parent? hn hc hsize]
  simp only [Option.bind_eq_bind, Option.bind_some, hnames, h.getElem?_files (hn c hsize).file]
  rw [Project.qualifiedName, Project.nestedPath, List.reverse_cons, List.map_append]
  rfl

theorem qualifiedName?_eq {c : Nat} (hc : c < n) : l.qualifiedName? c = some (p.qualifiedName c) := by
  rw [qualifiedName?, h.getElem?_classes hc]
  exact h.nameOf?_eq hn (Nat.le_of_lt hc) (Nat.lt_of_lt_of_le hc h.le)

theorem outermost?_eq {c : Nat} (hc : c < n) : l.outermost? c = some (p.decl c).outermost := by
  have hid := (hn c (Nat.lt_of_lt_of_le hc h.le)).id
  rw [outermost?, h.around?_eq hn hc, ClassDecl.outermost, hid, Option.bind_eq_bind, Option.bind_some, List.getLast?_cons,
    List.getLastD_eq_getLast?]

end Links.Mirrors

/-! ## Registering a class -/

namespace Links.Mirrors

variable {l : Links} {p : Project} {d : ClassDecl} (hid : d.id = p.classes.size)
include hid

/-- Linking the next class changes the list that it belongs to, and no other. -/
theorem exists_link (h : l.Mirrors p p.classes.size) (hn : p.Numbered) (hfile : d.file < p.files.size)
    (he : p.Encloses d.file d.enclosing) :
    ∃ linked, l.link? p.classes.size d.file d.parent? = some linked ∧ linked.Mirrors (p.push d) p.classes.size := by
  have hclass : ∀ c < p.classes.size, (p.push d).linkedClass c = ⟨(p.decl c).name, (p.decl c).file, (p.decl c).parent?,
      p.nested c ++ if d.parent? = some c then [d.id] else [], (p.decl c).offset⟩ := by
    intro c hc
    rw [Project.linkedClass, Project.nested_push, Project.decl_push_of_lt hc]
  have hshelf : ∀ f, (p.push d).linkedFile f =
      ⟨(p.file f).package, p.topLevel f ++ if d.file = f ∧ d.enclosing = [] then [d.id] else []⟩ := by
    intro f
    rw [Project.linkedFile, Project.topLevel_push]
    rfl
  have hle : p.classes.size ≤ (p.push d).classes.size := by
    rw [Project.size_push]
    omega
  have hindex : ∀ name, l.find? name = (List.range p.classes.size).find? fun c => (p.push d).qualifiedName c == name := by
    intro name
    rw [h.index]
    exact List.find?_congr fun c hc => by rw [Project.qualifiedName_push_of_lt hn (List.mem_range.mp hc)]
  obtain henclosing | ⟨e, hlt, henclosing, -⟩ := he
  · have hparent : d.parent? = none := by rw [ClassDecl.parent?, henclosing]; rfl
    rw [hparent, link?, h.getElem?_files hfile, Option.map_some]
    refine ⟨_, rfl, hle, ?_, ?_, hindex⟩
    · rw [h.files]
      refine modify_map_range fun f _ => ?_
      rw [hshelf]
      by_cases hf : d.file = f
      · rw [if_pos ⟨hf, henclosing⟩, if_pos hf, hid, Project.linkedFile]
      · rw [if_neg fun hboth => hf hboth.1, if_neg hf, List.append_nil, Project.linkedFile]
    · rw [h.classes]
      refine List.map_congr_left fun c hc => ?_
      rw [hclass c (List.mem_range.mp hc), hparent, if_neg (by simp), List.append_nil, Project.linkedClass]
  · have hparent : d.parent? = some e := by rw [ClassDecl.parent?, henclosing]; rfl
    rw [hparent, link?, h.getElem?_classes hlt, Option.map_some]
    refine ⟨_, rfl, hle, ?_, ?_, hindex⟩
    · rw [h.files]
      refine List.map_congr_left fun f _ => ?_
      rw [hshelf, if_neg (by simp [henclosing]), List.append_nil, Project.linkedFile]
    · rw [h.classes]
      refine modify_map_range fun c hc => ?_
      rw [hclass c hc, hparent]
      by_cases hec : e = c
      · rw [if_pos (by rw [hec]), if_pos hec, hid, Project.linkedClass]
      · rw [if_neg (by simpa using hec), if_neg hec, List.append_nil, Project.linkedClass]

/-- **Registering the next class** keeps the links in step with the project. -/
theorem exists_addClass (h : l.Mirrors p p.classes.size) (hn : p.Numbered) (hfile : d.file < p.files.size)
    (he : p.Encloses d.file d.enclosing) :
    ∃ added, l.addClass d.name d.file d.parent? d.offset = some added ∧
      added.Mirrors (p.push d) (p.push d).classes.size := by
  obtain ⟨linked, hlink, hlinked⟩ := h.exists_link hid hn hfile he
  have hdecl : (p.push d).decl p.classes.size = d := by rw [Project.decl_push, if_pos rfl]
  have hsize : p.classes.size < (p.push d).classes.size := by
    rw [Project.size_push]
    omega
  have hname := hlinked.nameOf?_eq (hn.push hid hfile he) (Nat.le_refl _) hsize
  rw [hdecl] at hname
  have hnew : (p.push d).linkedClass p.classes.size = ⟨d.name, d.file, d.parent?, [], d.offset⟩ := by
    have hparent : d.parent? ≠ some p.classes.size := by
      intro hparent
      have := he.lt_of_mem hn (List.mem_of_head? hparent)
      omega
    rw [Project.linkedClass, hdecl, Project.nested_push, hn.nested_size, if_neg hparent]
    rfl
  rw [addClass, h.length_classes, hlink]
  simp only [Option.bind_eq_bind, Option.bind_some, hname]
  refine ⟨_, rfl, Nat.le_refl _, hlinked.files, ?_, ?_⟩
  · rw [hlinked.classes, Project.size_push, List.range_succ, List.map_append, List.map_singleton, hnew]
  · intro name
    have hindex := hlinked.index name
    rw [find?] at hindex ⊢
    rw [Std.HashMap.getElem?_insertIfNew, Project.size_push, List.range_succ, List.find?_append, ← hindex]
    by_cases hname' : (p.push d).qualifiedName p.classes.size = name
    · subst hname'
      rw [List.find?_singleton, beq_self_eq_true]
      cases hknown : linked.index[(p.push d).qualifiedName p.classes.size]? with
      | none => simp [Std.HashMap.mem_iff_isSome_getElem?, hknown]
      | some c => simp [Std.HashMap.mem_iff_isSome_getElem?, hknown]
    · have hne : ((p.push d).qualifiedName p.classes.size == name) = false := by simpa using hname'
      simp [hne]

end Links.Mirrors

/-! ## Registering sources -/

/-- The project with more classes. -/
def Project.pushAll (p : Project) (ds : List ClassDecl) : Project := ds.foldl Project.push p

theorem Project.pushAll_eq (p : Project) (ds : List ClassDecl) : p.pushAll ds = ⟨p.files, p.classes ++ ds.toArray⟩ := by
  induction ds generalizing p with
  | nil => simp [pushAll]
  | cons d ds ih =>
    have hcons : p.pushAll (d :: ds) = (p.push d).pushAll ds := rfl
    rw [hcons, ih]
    simp [push]

theorem Project.size_pushAll (p : Project) (ds : List ClassDecl) : (p.pushAll ds).classes.size = p.classes.size + ds.length := by
  simp [pushAll_eq]

theorem Project.pushAll_append (p : Project) (ds es : List ClassDecl) : p.pushAll (ds ++ es) = (p.pushAll ds).pushAll es := by
  rw [pushAll, pushAll, pushAll, List.foldl_append]

theorem Project.Encloses.pushAll {p : Project} {file : FileId} {enclosing : List ClassId} (h : p.Encloses file enclosing)
    (ds : List ClassDecl) : (p.pushAll ds).Encloses file enclosing := by
  induction ds generalizing p with
  | nil => exact h
  | cons d ds ih => exact ih (h.push d)

namespace Links

/-- The links mirror the whole of a project whose classes are numbered well. -/
structure InStep (l : Links) (p : Project) : Prop where
  mirrors : l.Mirrors p p.classes.size
  numbered : p.Numbered

/-- Registering classes in turn succeeds, and leaves the links in step with the project that has them as well. -/
def Registers (register : Option Links) (p : Project) (ds : List ClassDecl) : Prop :=
  ∃ l, register = some l ∧ l.InStep (p.pushAll ds)

namespace InStep

mutual

/-- **Registering a class with those inside it** gives them the numbers of the classes of the tree. -/
theorem addTree {file : FileId} {enclosing : List ClassId} {l : Links} {p : Project} (h : l.InStep p)
    (hfile : file < p.files.size) (he : p.Encloses file enclosing) :
    ∀ t : ClassTree, Registers (l.addTree file enclosing.head? t) p (ClassDecl.ofTree file enclosing p.classes.size t)
  | ⟨name, kind, typeParams, fields, entries, nested, offset⟩ => by
    let d : ClassDecl := ⟨p.classes.size, name, kind, file, enclosing, typeParams, fields, entries, offset⟩
    obtain ⟨added, hadd, hadded⟩ := h.mirrors.exists_addClass (d := d) rfl h.numbered hfile he
    have hdecl : (p.push d).decl p.classes.size = d := by rw [Project.decl_push, if_pos rfl]
    have haround : (p.push d).Encloses file (p.classes.size :: enclosing) :=
      .inr ⟨p.classes.size, by rw [Project.size_push]; omega, by rw [hdecl], by rw [hdecl]⟩
    have hstep : added.InStep (p.push d) := ⟨hadded, h.numbered.push rfl hfile he⟩
    obtain ⟨l', hadd', hl'⟩ := hstep.addTrees hfile haround nested
    rw [Project.size_push] at hl'
    refine ⟨l', ?_, hl'⟩
    have hadd : l.addClass name file enclosing.head? offset = some added := hadd
    rw [Links.addTree, hadd, h.mirrors.length_classes]
    exact hadd'

theorem addTrees {file : FileId} {enclosing : List ClassId} {l : Links} {p : Project} (h : l.InStep p)
    (hfile : file < p.files.size) (he : p.Encloses file enclosing) :
    ∀ ts : List ClassTree, Registers (l.addTrees file enclosing.head? ts) p (ClassDecl.ofTrees file enclosing p.classes.size ts)
  | [] => ⟨l, rfl, h⟩
  | t :: ts => by
    obtain ⟨added, hadd, hadded⟩ := h.addTree hfile he t
    have hfiles : (p.pushAll (ClassDecl.ofTree file enclosing p.classes.size t)).files = p.files := by rw [Project.pushAll_eq]
    obtain ⟨l', hadd', hl'⟩ := hadded.addTrees (hfiles ▸ hfile) (he.pushAll _) ts
    refine ⟨l', ?_, ?_⟩
    · rw [Links.addTrees, hadd]
      exact hadd'
    · rw [ClassDecl.ofTrees, Project.pushAll_append]
      rwa [Project.size_pushAll] at hl'

end

/-- A file more changes nothing for the classes that are there. -/
theorem addFile {l : Links} {p : Project} (h : l.InStep p) (f : SourceFile) :
    (l.addFile f.package).InStep ⟨p.files.push f, p.classes⟩ := by
  have hold : ∀ i < p.files.size, Project.file ⟨p.files.push f, p.classes⟩ i = p.file i := by
    intro i hi
    simp [Project.file, Array.getD_eq_getD_getElem?, Array.getElem?_push_lt, hi]
  have hnew : Project.file ⟨p.files.push f, p.classes⟩ p.files.size = f := by
    simp [Project.file, Array.getD_eq_getD_getElem?]
  have hnone : p.topLevel p.files.size = [] := by
    rw [Project.topLevel, List.map_eq_nil_iff, List.filter_eq_nil_iff]
    intro d hd hfile
    obtain ⟨c, hc, rfl⟩ := List.mem_iff_getElem.mp hd
    have hc' : c < p.classes.size := by simpa using hc
    have hdecl : p.classes.toList[c] = p.decl c := by simp [Project.decl, hc']
    have hlt := (h.numbered c hc').file
    rw [hdecl, Bool.and_eq_true, beq_iff_eq] at hfile
    exact absurd hfile.1 (Nat.ne_of_lt hlt)
  refine ⟨⟨Nat.le_refl _, ?_, h.mirrors.classes, ?_⟩, fun c hc => ?_⟩
  · have hsize : (p.files.push f).size = p.files.size + 1 := Array.size_push f
    have hshelves : (List.range p.files.size).map (Project.linkedFile ⟨p.files.push f, p.classes⟩) =
        (List.range p.files.size).map p.linkedFile := by
      refine List.map_congr_left fun i hi => ?_
      rw [Project.linkedFile, Project.linkedFile, hold i (List.mem_range.mp hi)]
      rfl
    have hshelf : Project.linkedFile ⟨p.files.push f, p.classes⟩ p.files.size = ⟨f.package, []⟩ := by
      rw [Project.linkedFile, hnew]
      exact congrArg (LinkedFile.mk f.package) hnone
    rw [hsize, List.range_succ, List.map_append, List.map_singleton, hshelves, hshelf, ← h.mirrors.files]
    rfl
  · intro name
    refine (h.mirrors.index name).trans (List.find?_congr fun c hc => ?_)
    have hfile := hold _ (h.numbered c (List.mem_range.mp hc)).file
    have hqualified : Project.qualifiedName ⟨p.files.push f, p.classes⟩ c = p.qualifiedName c :=
      congrArg (fun f : SourceFile => Name.inPackage f.package (p.nestedPath c)) hfile
    rw [hqualified]
  · obtain ⟨hid, hfile, henclosing⟩ := h.numbered c hc
    exact ⟨hid, Nat.lt_of_lt_of_eq (Nat.lt_succ_of_lt hfile) (Array.size_push f).symm, henclosing⟩

/-- **Registering a source** adds its classes to the project. -/
theorem addUnit {l : Links} {p : Project} (h : l.InStep p) (path : Path) (unit : SourceUnit) :
    ∃ l', l.addUnit unit = some l' ∧ l'.InStep (p.add path unit) := by
  have hfile := h.addFile ⟨p.files.size, path, unit.package, unit.imports⟩
  have hnone : Project.Encloses ⟨p.files.push ⟨p.files.size, path, unit.package, unit.imports⟩, p.classes⟩ p.files.size [] :=
    .inl rfl
  obtain ⟨l', hl', hstep⟩ := hfile.addTrees (by simp) hnone unit.classes
  refine ⟨l', ?_, ?_⟩
  · rw [Links.addUnit, h.mirrors.length_files]
    exact hl'
  · rw [Project.pushAll_eq] at hstep
    exact hstep

end InStep

/-! ## What the links agree on -/

/-- The parents, the lists, the names and the index agree. -/
structure Consistent (l : Links) : Prop where
  file : ∀ (c : Nat) entry, l.classes[c]? = some entry → entry.file < l.files.length
  /-- The class around a class comes before it and is in the same file. -/
  parent : ∀ (c : Nat) entry, l.classes[c]? = some entry → ∀ q : Nat, entry.parent = some q →
    q < c ∧ ∃ around, l.classes[q]? = some around ∧ around.file = entry.file
  /-- The list of a class has the classes whose parent it is, each once and in order. -/
  nested : ∀ (q : Nat) around, l.classes[q]? = some around → around.nested.Pairwise (· < ·) ∧
    ∀ c : Nat, c ∈ around.nested ↔ ∃ entry, l.classes[c]? = some entry ∧ entry.parent = some q
  /-- The list of a file has its classes that have no parent, each once and in order. -/
  topLevel : ∀ (f : Nat) file, l.files[f]? = some file → file.classes.Pairwise (· < ·) ∧
    ∀ c : Nat, c ∈ file.classes ↔ ∃ entry, l.classes[c]? = some entry ∧ entry.file = f ∧ entry.parent = none
  /-- The path of a class is its name behind the path of the class around it. -/
  nestedPath : ∀ (c : Nat) entry, l.classes[c]? = some entry →
    (entry.parent = none → l.nestedPath? c = some entry.name) ∧
      ∀ q : Nat, entry.parent = some q →
        ∃ path, l.nestedPath? q = some path ∧ l.nestedPath? c = some (path ++ "." ++ entry.name)
  /-- The outermost class is the same as that of the class around it. -/
  outermost : ∀ (c : Nat) entry, l.classes[c]? = some entry →
    (entry.parent = none → l.outermost? c = some c) ∧
      ∀ q : Nat, entry.parent = some q → ∃ o, l.outermost? q = some o ∧ l.outermost? c = some o
  /-- The qualified name of a class is its path in the package of its file. -/
  qualifiedName : ∀ (c : Nat) entry, l.classes[c]? = some entry → ∃ file path, l.files[entry.file]? = some file ∧
    l.nestedPath? c = some path ∧ l.qualifiedName? c = some (Name.inPackage file.package path)
  /-- The index leads to the first class of a qualified name, -/
  find_some : ∀ (name : String) (c : Nat), l.find? name = some c ↔
    l.qualifiedName? c = some name ∧ ∀ d < c, l.qualifiedName? d ≠ some name
  /-- and nowhere when there is none. -/
  find_none : ∀ name : String, l.find? name = none ↔ ∀ c : Nat, l.qualifiedName? c ≠ some name

end Links

/-- The numbers of the classes that satisfy a condition are in order. -/
theorem Project.Numbered.map_id_filter {p : Project} (h : p.Numbered) (P : ClassDecl → Bool) :
    (p.classes.toList.filter P).map (·.id) = (List.range p.classes.size).filter fun c => P (p.decl c) := by
  have hdecls : p.classes.toList = (List.range p.classes.size).map p.decl :=
    List.ext_getElem (by simp) fun i hi _ => by simp [Project.decl, Array.length_toList ▸ hi]
  have hids : ((List.range p.classes.size).filter (P ∘ p.decl)).map (fun c => (p.decl c).id) =
      ((List.range p.classes.size).filter (P ∘ p.decl)).map fun c => c := by
    refine List.map_congr_left fun c hc => ?_
    exact (h c (List.mem_range.mp (List.mem_of_mem_filter hc))).id
  rw [hdecls, List.filter_map, List.map_map]
  exact hids.trans (List.map_id _)

theorem Project.Numbered.pairwise_map_id {p : Project} (h : p.Numbered) (P : ClassDecl → Bool) :
    ((p.classes.toList.filter P).map (·.id)).Pairwise (· < ·) := by
  rw [h.map_id_filter]
  exact List.pairwise_lt_range.sublist List.filter_sublist

namespace Links.InStep

variable {l : Links} {p : Project} (h : l.InStep p)
include h

theorem entry_iff {c : Nat} {entry : LinkedClass} :
    l.classes[c]? = some entry ↔ c < p.classes.size ∧ entry = p.linkedClass c := by
  by_cases hc : c < p.classes.size
  · rw [h.mirrors.getElem?_classes hc, Option.some_inj]
    exact ⟨fun heq => ⟨hc, heq.symm⟩, fun heq => heq.2.symm⟩
  · rw [List.getElem?_eq_none (by rw [h.mirrors.length_classes]; omega)]
    exact ⟨nofun, fun heq => absurd heq.1 hc⟩

theorem file_iff {f : Nat} {file : LinkedFile} :
    l.files[f]? = some file ↔ f < p.files.size ∧ file = p.linkedFile f := by
  by_cases hf : f < p.files.size
  · rw [h.mirrors.getElem?_files hf, Option.some_inj]
    exact ⟨fun heq => ⟨hf, heq.symm⟩, fun heq => heq.2.symm⟩
  · rw [List.getElem?_eq_none (by rw [h.mirrors.length_files]; omega)]
    exact ⟨nofun, fun heq => absurd heq.1 hf⟩

theorem qualifiedName?_iff {c : Nat} {name : String} :
    l.qualifiedName? c = some name ↔ c < p.classes.size ∧ p.qualifiedName c = name := by
  by_cases hc : c < p.classes.size
  · rw [h.mirrors.qualifiedName?_eq h.numbered hc, Option.some_inj]
    exact ⟨fun heq => ⟨hc, heq⟩, fun heq => heq.2⟩
  · rw [qualifiedName?, List.getElem?_eq_none (by rw [h.mirrors.length_classes]; omega)]
    exact ⟨nofun, fun heq => absurd heq.1 hc⟩

/-- The classes around a class are none, or the class around it and those around that one. -/
theorem enclosing_of_parent {c : Nat} (hc : c < p.classes.size) :
    ((p.linkedClass c).parent = none → (p.decl c).enclosing = []) ∧
      ∀ q : Nat, (p.linkedClass c).parent = some q →
        q < c ∧ (p.decl c).enclosing = q :: (p.decl q).enclosing ∧ (p.decl q).file = (p.decl c).file := by
  rw [Project.linkedClass, ClassDecl.parent?]
  obtain henclosing | ⟨e, he, henclosing, hfile⟩ := (h.numbered c hc).enclosing
  · rw [henclosing]
    exact ⟨fun _ => rfl, fun q hq => absurd hq (by simp)⟩
  · rw [henclosing]
    refine ⟨fun hnone => absurd hnone (by simp), fun q hq => ?_⟩
    cases hq
    exact ⟨he, rfl, hfile⟩

theorem mem_nested_iff {q c : Nat} : c ∈ p.nested q ↔ ∃ entry, l.classes[c]? = some entry ∧ entry.parent = some q := by
  rw [Project.nested, h.numbered.map_id_filter, List.mem_filter, List.mem_range, beq_iff_eq]
  constructor
  · rintro ⟨hc, hparent⟩
    exact ⟨_, h.mirrors.getElem?_classes hc, hparent⟩
  · rintro ⟨entry, hentry, hparent⟩
    obtain ⟨hc, rfl⟩ := h.entry_iff.mp hentry
    exact ⟨hc, hparent⟩

theorem mem_topLevel_iff {f c : Nat} :
    c ∈ p.topLevel f ↔ ∃ entry, l.classes[c]? = some entry ∧ entry.file = f ∧ entry.parent = none := by
  have hnone : ∀ cs : List Nat, cs.isEmpty = true ↔ cs.head? = none := fun cs => by cases cs <;> simp
  rw [Project.topLevel, h.numbered.map_id_filter, List.mem_filter, List.mem_range, Bool.and_eq_true, beq_iff_eq, hnone]
  constructor
  · rintro ⟨hc, hfile, hparent⟩
    exact ⟨_, h.mirrors.getElem?_classes hc, hfile, hparent⟩
  · rintro ⟨entry, hentry, hfile, hparent⟩
    obtain ⟨hc, rfl⟩ := h.entry_iff.mp hentry
    exact ⟨hc, hfile, hparent⟩

/-- **Links in step with a project** are consistent. -/
theorem consistent : l.Consistent where
  file c entry hentry := by
    obtain ⟨hc, rfl⟩ := h.entry_iff.mp hentry
    rw [h.mirrors.length_files]
    exact (h.numbered c hc).file
  parent c entry hentry q hq := by
    obtain ⟨hc, rfl⟩ := h.entry_iff.mp hentry
    obtain ⟨hlt, -, hfile⟩ := (h.enclosing_of_parent hc).2 q hq
    exact ⟨hlt, _, h.mirrors.getElem?_classes (Nat.lt_trans hlt hc), hfile⟩
  nested q around haround := by
    obtain ⟨-, rfl⟩ := h.entry_iff.mp haround
    exact ⟨h.numbered.pairwise_map_id _, fun c => h.mem_nested_iff⟩
  topLevel f file hfile := by
    obtain ⟨-, rfl⟩ := h.file_iff.mp hfile
    exact ⟨h.numbered.pairwise_map_id _, fun c => h.mem_topLevel_iff⟩
  nestedPath c entry hentry := by
    obtain ⟨hc, rfl⟩ := h.entry_iff.mp hentry
    obtain ⟨hnone, hsome⟩ := h.enclosing_of_parent hc
    rw [h.mirrors.nestedPath?_eq h.numbered hc, Project.nestedPath, List.reverse_cons, List.map_append]
    refine ⟨fun hparent => by rw [hnone hparent]; rfl, fun q hq => ?_⟩
    obtain ⟨hlt, henclosing, -⟩ := hsome q hq
    refine ⟨_, h.mirrors.nestedPath?_eq h.numbered (Nat.lt_trans hlt hc), ?_⟩
    rw [henclosing, join_append (by simp) (by simp)]
    rfl
  outermost c entry hentry := by
    obtain ⟨hc, rfl⟩ := h.entry_iff.mp hentry
    obtain ⟨hnone, hsome⟩ := h.enclosing_of_parent hc
    rw [h.mirrors.outermost?_eq h.numbered hc, ClassDecl.outermost, (h.numbered c hc).id]
    refine ⟨fun hparent => by rw [hnone hparent]; rfl, fun q hq => ?_⟩
    obtain ⟨hlt, henclosing, -⟩ := hsome q hq
    refine ⟨_, h.mirrors.outermost?_eq h.numbered (Nat.lt_trans hlt hc), ?_⟩
    rw [henclosing, ClassDecl.outermost, (h.numbered q (Nat.lt_trans hlt hc)).id, List.getLastD_cons]
  qualifiedName c entry hentry := by
    obtain ⟨hc, rfl⟩ := h.entry_iff.mp hentry
    exact ⟨_, _, h.mirrors.getElem?_files (h.numbered c hc).file, h.mirrors.nestedPath?_eq h.numbered hc,
      h.mirrors.qualifiedName?_eq h.numbered hc⟩
  find_some name c := by
    rw [h.mirrors.index, List.find?_range_eq_some, beq_iff_eq, List.mem_range, h.qualifiedName?_iff]
    constructor
    · rintro ⟨hname, hc, hfirst⟩
      refine ⟨⟨hc, hname⟩, fun d hd hother => ?_⟩
      simpa [(h.qualifiedName?_iff.mp hother).2] using hfirst d hd
    · rintro ⟨⟨hc, hname⟩, hfirst⟩
      refine ⟨hname, hc, fun d hd => ?_⟩
      have hother : p.qualifiedName d ≠ name := fun heq => hfirst d hd (h.qualifiedName?_iff.mpr ⟨Nat.lt_trans hd hc, heq⟩)
      simpa using hother
  find_none name := by
    rw [h.mirrors.index, List.find?_range_eq_none]
    constructor
    · intro hnone c hname
      obtain ⟨hc, heq⟩ := h.qualifiedName?_iff.mp hname
      simpa [heq] using hnone c hc
    · intro hnone c hc
      have hother : p.qualifiedName c ≠ name := fun heq => hnone c (h.qualifiedName?_iff.mpr ⟨hc, heq⟩)
      simpa using hother

end Links.InStep

end Counterpart
