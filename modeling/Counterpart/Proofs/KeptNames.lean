/-
Names in generated files. A rendered file is cut into its pieces exactly when every name in it is fit for the place where it
stands: none may need quotes but for keywords, and a keyword may stand only where it is quoted, which it is in declarations and in
the branches of a function, but neither in the header of a function nor in the branches of an argument.
-/
import Counterpart.Proofs.EmittedFunctions
import Counterpart.Proofs.ReadBack
import Counterpart.Proofs.Run

namespace Counterpart.Code

open Kotlin Output Text Lexer
open List (Forall₂)

/-! ## Files -/

namespace Emitted

def ofPackage (package : String) : List Emitted :=
  if package.isEmpty then [] else [word "package", text (safePath package)]

def ofImport (directive : String) : List Emitted := [word "import", text directive]

/-- A function of the run; it has its source by number. -/
def ofGenerated (g : Mapper.Setting) (f : Function) : List Emitted :=
  match g.table.ref? f.source with
  | some target => ofFunction g f.source target
  | none => []

/-- The declarations and functions of a file. -/
def ofItems (g : Mapper.Setting) (f : Output.File) : List Emitted :=
  ofDeclarations f.declarations ++ (f.functions.map (ofGenerated g)).flatten

def ofFile (g : Mapper.Setting) (f : Output.File) : List Emitted :=
  ofPackage f.package ++ (((FileCode.ofFile f).prune.sortedImports.map ofImport).flatten ++ ofItems g f)

end Emitted

/-- **A file keeps its names**: its text is cut into its pieces, each name in it into one token that reads as the name, and no
such token is a keyword. -/
structure KeepsNames (g : Mapper.Setting) (f : Output.File) : Prop where
  tokens : ∃ stream, TokenStream.ofSource (renderFile f) = .ok stream ∧
    Forall₂ Token.Fits stream.tokens ((Emitted.ofFile g f).flatMap Emitted.lexemes)
  reads : ∀ e ∈ Emitted.ofFile g f, e.Reads

/-! ## From the tokens to the names -/

theorem KeepsNames.sound {g : Mapper.Setting} {f : Output.File} (h : KeepsNames g f) : ∀ e ∈ Emitted.ofFile g f, e.Sound := by
  obtain ⟨stream, hstream, hfits⟩ := h.tokens
  intro e he
  refine Emitted.sound_of_reads (h.reads e he) fun x hx => ?_
  have hmem : .word x.2 ∈ (Emitted.ofFile g f).flatMap Emitted.lexemes := by
    refine List.mem_flatMap.mpr ⟨e, he, ?_⟩
    rw [Emitted.lexemes_of_named? hx]
    exact List.mem_cons_self
  obtain ⟨t, ht, hkind, htext, -⟩ : ∃ t ∈ stream.tokens, t.Fits (.word x.2) := by
    obtain ⟨i, hi, hget⟩ := List.getElem_of_mem hmem
    have hi' : i < stream.tokens.length := hfits.length_eq ▸ hi
    refine ⟨stream.tokens[i], List.getElem_mem hi', ?_⟩
    rw [← hget]
    exact hfits.get hi' hi
  have := isNameText_of_mem_stream hstream ht hkind
  rwa [htext] at this

/-! ## From the names to the tokens -/

theorem block_line {keyword text : String} {es : List Lexeme} (hkeyword : Name.isPlain keyword) (h : Phrase text es) :
    Block (keyword ++ " " ++ text ++ "\n") (.word keyword :: es) := by
  intro cs us hus
  have hrest := h ('\n' :: cs) us (notNameChar_cons (by decide) cs) (.blank (by decide) hus)
  simp only [String.toList_append, List.append_assoc]
  exact .word_blank hkeyword (by decide) hrest

theorem block_ofPackage {package : String} (h : ∀ e ∈ Emitted.ofPackage package, e.Closed) :
    Block (if package.isEmpty then "" else "package " ++ safePath package ++ "\n")
      ((Emitted.ofPackage package).flatMap Emitted.lexemes) := by
  rw [Emitted.ofPackage] at h ⊢
  split at h
  next hempty =>
    rw [if_pos hempty, if_pos hempty]
    exact .empty
  next hempty =>
    have hpath : Phrase (safePath package) (cut (safePath package)) := h _ (List.mem_cons_of_mem _ List.mem_cons_self)
    have hline : Block ("package" ++ " " ++ safePath package ++ "\n") _ := block_line (by decide) hpath
    rw [if_neg hempty, if_neg hempty, List.flatMap_cons, List.flatMap_singleton]
    exact hline

theorem block_ofImports {directives : List String} (h : ∀ e ∈ (directives.map Emitted.ofImport).flatten, e.Closed) :
    Block (String.join (directives.map fun directive => "import " ++ directive ++ "\n"))
      ((directives.map Emitted.ofImport).flatten.flatMap Emitted.lexemes) := by
  induction directives with
  | nil => exact .empty
  | cons directive directives ih =>
    rw [List.map_cons, List.flatten_cons, List.forall_mem_append] at h
    have hdirective : Phrase directive (cut directive) := h.1 _ (List.mem_cons_of_mem _ List.mem_cons_self)
    have hline : Block ("import" ++ " " ++ directive ++ "\n") _ := block_line (by decide) hdirective
    rw [List.map_cons, String.join_cons, List.map_cons, List.flatten_cons, List.flatMap_append, Emitted.ofImport,
      List.flatMap_cons, List.flatMap_singleton]
    exact hline.append (ih h.2)

/-! ## The start of a file -/

theorem notAt_append {marks : List Char} {es es' : List Lexeme} (h : NotAt marks es) (h' : NotAt marks es') :
    NotAt marks (es ++ es') := by
  cases es with
  | nil => exact h'
  | cons => exact h

theorem notAt_nil {marks : List Char} : NotAt marks [] := by
  rintro _ ⟨⟩

theorem notAt_flatten {marks : List Char} {ess : List (List Emitted)}
    (h : ∀ es ∈ ess, NotAt marks (es.flatMap Emitted.lexemes)) : NotAt marks (ess.flatten.flatMap Emitted.lexemes) := by
  induction ess with
  | nil => exact notAt_nil
  | cons es ess ih =>
    rw [List.flatten_cons, List.flatMap_append]
    exact notAt_append (h es List.mem_cons_self) (ih fun es' hes' => h es' (List.mem_cons_of_mem es hes'))

/-- A file starts with a word. -/
theorem notAt_ofFile (g : Mapper.Setting) (f : Output.File) (marks : List Char) :
    NotAt marks ((Emitted.ofFile g f).flatMap Emitted.lexemes) := by
  rw [Emitted.ofFile, Emitted.ofItems, List.flatMap_append, List.flatMap_append, List.flatMap_append]
  refine notAt_append ?_ (notAt_append (notAt_flatten ?_) (notAt_append ?_ (notAt_flatten ?_)))
  · rw [Emitted.ofPackage]
    split
    next => exact notAt_nil
    next => exact notAt_word
  · intro es hes
    obtain ⟨directive, -, rfl⟩ := List.mem_map.mp hes
    exact notAt_word
  · rw [ofDeclarations_eq]
    refine notAt_flatten fun es hes => ?_
    obtain ⟨d, -, rfl⟩ := List.mem_map.mp hes
    rw [ofDeclaration_eq, Emitted.ofHeader, List.append_assoc, List.append_assoc, List.flatMap_append, lexemes_tokens]
    cases d.kind <;> exact notAt_word
  · intro es hes
    obtain ⟨fn, -, rfl⟩ := List.mem_map.mp hes
    rw [Emitted.ofGenerated]
    split
    next => exact notAt_word
    next => exact notAt_nil

/-! ## Files of a run -/

/-- Whether the functions of a file are those of the run, for counterparts with a name. -/
structure FromRun (g : Mapper.Setting) (f : Output.File) : Prop where
  functions : ∀ fn ∈ f.functions, ∃ target, g.table.ref? fn.source = some target ∧ fn = (g.draft fn.source target).function
  named : ∀ c target, g.table.ref? c = some target → target.path ≠ []

theorem FromRun.written {g : Mapper.Setting} {f : Output.File} (h : FromRun g f)
    (hgood : ∀ e ∈ (f.functions.map (Emitted.ofGenerated g)).flatten, e.Closed ∧ e.Sound) :
    Forall₂ Written (f.functions.map fun fn => (FunctionCode.ofFunction fn).fragments)
      ((f.functions.map (Emitted.ofGenerated g)).map (·.flatMap Emitted.lexemes)) := by
  rw [List.map_map, List.forall₂_map_left_iff, List.forall₂_map_right_iff, List.forall₂_same]
  intro fn hfn
  obtain ⟨target, htarget, hdraft⟩ := h.functions fn hfn
  have hpieces : Emitted.ofGenerated g fn = Emitted.ofFunction g fn.source target := by
    rw [Emitted.ofGenerated, htarget]
  have hfunction : ∀ e ∈ Emitted.ofFunction g fn.source target, e.Closed ∧ e.Sound := by
    intro e he
    rw [← hpieces] at he
    exact hgood e (List.mem_flatten.mpr ⟨_, List.mem_map_of_mem hfn, he⟩)
  rw [Function.comp_apply, hpieces, hdraft, Mapper.Setting.source_function]
  exact written_ofFunction h.named (h.named _ _ htarget) hfunction

theorem FromRun.keepsNames {g : Mapper.Setting} {f : Output.File} (h : FromRun g f)
    (hclosed : ∀ e ∈ Emitted.ofFile g f, e.Closed) (hsound : ∀ e ∈ Emitted.ofFile g f, e.Sound) : KeepsNames g f := by
  refine ⟨?_, fun e he => Emitted.reads_of_sound (hsound e he)⟩
  have hgood : ∀ e ∈ Emitted.ofFile g f, e.Closed ∧ e.Sound := fun e he => ⟨hclosed e he, hsound e he⟩
  rw [Emitted.ofFile, Emitted.ofItems, List.forall_mem_append, List.forall_mem_append, List.forall_mem_append] at hgood
  obtain ⟨hpackage, himports, hdeclarations, hfunctions⟩ := hgood
  have hitems : Forall₂ Written (FileCode.ofFile f).items
      ((f.declarations.map Emitted.ofDeclaration ++ f.functions.map (Emitted.ofGenerated g)).map
        (·.flatMap Emitted.lexemes)) := by
    rw [FileCode.ofFile, fragmentsOfAll_eq_map, List.map_append, List.map_map]
    exact List.rel_append (List.forall₂_map_left_iff.mpr (written_ofDeclarations _ hdeclarations)) (h.written hfunctions)
  have hbody : Block (FileCode.ofFile f).prune.body
      ((Emitted.ofItems g f).flatMap Emitted.lexemes) := by
    rw [Emitted.ofItems, ofDeclarations_eq, ← List.flatten_append, lexemes_flatten]
    exact (Written.separated hitems).block
  have hfile : Block (renderFile f) ((Emitted.ofFile g f).flatMap Emitted.lexemes) := by
    have := block_join (.cons (block_ofPackage fun e he => (hpackage e he).1)
      (.cons (block_ofImports fun e he => (himports e he).1) (.cons hbody .nil)))
    simp only [List.flatten_cons, List.flatten_nil, List.append_nil] at this
    rw [Emitted.ofFile, List.flatMap_append, List.flatMap_append]
    exact this
  have hlexes := hfile [] [] .nil
  rw [List.append_nil, List.append_nil] at hlexes
  exact ofSource_reads hlexes (notAt_ofFile g f ['#'])

end Counterpart.Code

namespace Counterpart

open Kotlin Output Code

/-- **The files of a run that succeeds keep their names**, where the texts taken over from the sources are closed, exactly when
every name in them is fit for the place where it stands. -/
theorem Hooks.names_kept_iff {σ : Type} {h : Hooks σ} {p : Project} {o : Options} {s s' : σ} {g : Generation}
    (hrun : h.run [] p o s = (s', .ok g)) :
    ∃ n t, g.naming = some n ∧ g.table = some t ∧ ∀ f ∈ g.workspace.files.toList,
      (∀ e ∈ Emitted.ofFile ⟨p, n, t⟩ f, e.Closed) →
        (KeepsNames ⟨p, n, t⟩ f ↔ ∀ e ∈ Emitted.ofFile ⟨p, n, t⟩ f, e.Sound) := by
  obtain ⟨n, plan, t, cs, hmade⟩ := h.made_of_run hrun
  refine ⟨n, t, hmade.naming, hmade.table, fun f hf hclosed => ⟨KeepsNames.sound, fun hsound => ?_⟩⟩
  have hfrom : FromRun ⟨p, n, t⟩ f := by
    constructor
    · intro fn hfn
      exact hmade.eq_draft (List.mem_flatMap.mpr ⟨f, hf, hfn⟩)
    · intro c target htarget hpath
      have hdeclared := hmade.isSome_declaration? htarget
      rw [Workspace.declaration?, hpath] at hdeclared
      cases hdeclared
  exact hfrom.keepsNames hclosed hsound

/-! ## Given runs -/

namespace Code.Emitted

instance : DecidablePred Sound
  | token _ | text _ | behind _ => .isTrue trivial
  | safe name | path name => inferInstanceAs (Decidable (Name.isPlain name = true))
  | bare name => inferInstanceAs (Decidable (Name.isPlain name = true ∧ isReserved name = false))

theorem closed_of_texts {es : List Emitted} {texts : List String} (htexts : ∀ s ∈ texts, Phrase s (cut s))
    (hes : es.all fun | .text s => texts.contains s | .behind s => s.isEmpty | _ => true) : ∀ e ∈ es, e.Closed := by
  rw [List.all_eq_true] at hes
  intro e he
  have := hes e he
  cases e with
  | text s => exact htexts s (List.contains_iff_mem.mp this)
  | behind s =>
    rw [String.isEmpty_iff] at this
    subst this
    have hcut : cut "" = [] := by decide +kernel
    exact ⟨opens_empty, hcut ▸ .empty⟩
  | _ => trivial

theorem ofFile_of_groups {g : Mapper.Setting} {f : Output.File} (h : f.imports.groups = []) :
    ofFile g f = ofPackage f.package ++ ofItems g f := by
  have hnone : (FileCode.ofFile f).prune.sortedImports = [] := by
    rw [List.eq_nil_iff_forall_not_mem]
    intro directive hd
    have := mem_directives_of_mem_sortedImports hd
    rw [ImportSet.directives, h, List.mem_mergeSort] at this
    exact List.not_mem_nil this
  rw [ofFile, hnone]
  rfl

end Code.Emitted

/-- A class with a property and an enum with a constant that are keywords. -/
def shadesProject : Project :=
  .ofSource ("package demo\nenum class Shade \x7b `when`, DARK \x7d\n" ++
    "data class Paint(val `in`: Int, val shades: List<Shade>)")

theorem phrase_shades : ∀ s ∈ ["demo", "Int", "List<ShadeModel>"], Phrase s (cut s) := by
  have hword {w : String} (hw : Name.isPlain w) : Phrase w (cut w) := (Phrase.word hw).cut
  intro s hs
  simp only [List.mem_cons, List.not_mem_nil, or_false] at hs
  rcases hs with rfl | rfl | rfl
  · exact hword (by decide)
  · exact hword (by decide)
  · have hopen : Block "<" [.mark '<'] := fun _ _ h => .mark (by decide) h
    have hclose : Block ">" [.mark '>'] := fun _ _ h => .mark (by decide) h
    have hmodel : Phrase ("ShadeModel" ++ ">") ([.word "ShadeModel"] ++ [.mark '>']) :=
      (Phrase.word (by decide)).append hclose.phrase (by rintro _ ⟨⟩; rfl)
    have hlist : Phrase ("List" ++ ("<" ++ ("ShadeModel" ++ ">"))) _ :=
      (Phrase.word (by decide)).glue hopen rfl (by decide) hmodel
    exact hlist.cut

theorem names_kept_iff_shadesProject :
    ∃ g n t, (Hooks.none fun _ => false).run [] shadesProject (.ofClass "Paint") () = ((), .ok g) ∧ g.naming = some n ∧
      g.table = some t ∧ ∀ f ∈ g.workspace.files.toList,
        (∀ e ∈ Emitted.ofFile ⟨shadesProject, n, t⟩ f, e.Closed) ∧ KeepsNames ⟨shadesProject, n, t⟩ f := by
  have hresult : (((Hooks.none fun _ => false).run [] shadesProject (.ofClass "Paint") ()).2.toOption.bind fun g =>
      g.naming.bind fun n => g.table.map fun t => g.workspace.files.toList.all fun f =>
        let es := Emitted.ofPackage f.package ++ Emitted.ofItems ⟨shadesProject, n, t⟩ f
        f.imports.groups.isEmpty && (es.all fun e => decide e.Sound) && es.all fun
          | .text s => ["demo", "Int", "List<ShadeModel>"].contains s
          | .behind s => s.isEmpty
          | _ => true) = some true := by
    decide +kernel
  obtain ⟨g, hg, hresult⟩ := Option.bind_eq_some_iff.mp hresult
  obtain ⟨n, hn, hresult⟩ := Option.bind_eq_some_iff.mp hresult
  obtain ⟨t, ht, hresult⟩ := Option.map_eq_some_iff.mp hresult
  have hrun := eq_ok_of_toOption hg
  refine ⟨g, n, t, hrun, hn, ht, fun f hf => ?_⟩
  have hf' := List.all_eq_true.mp hresult f hf
  rw [Bool.and_eq_true, Bool.and_eq_true, List.isEmpty_iff] at hf'
  obtain ⟨⟨hgroups, hsound⟩, htexts⟩ := hf'
  have hclosed : ∀ e ∈ Emitted.ofFile ⟨shadesProject, n, t⟩ f, e.Closed := by
    rw [Emitted.ofFile_of_groups hgroups]
    exact Emitted.closed_of_texts phrase_shades htexts
  refine ⟨hclosed, ?_⟩
  obtain ⟨n', t', hn', ht', hiff⟩ := Hooks.names_kept_iff hrun
  cases hn.symm.trans hn'
  cases ht.symm.trans ht'
  refine (hiff f hf hclosed).mpr ?_
  rw [Emitted.ofFile_of_groups hgroups]
  intro e he
  exact of_decide_eq_true (List.all_eq_true.mp hsound e he)

/-- An enum with a constant that is a keyword, and a class with a property of it. -/
def keywordProject : Project :=
  .ofSource ("package demo\nenum class Color \x7b `in`, RED \x7d\ndata class R(val color: Color)")

/-- The items of the file that is generated for the class. -/
def keywordBody : String :=
  "data class RModel(val colorModel: ColorModel)\n\nenum class ColorModel \x7b\n    `in`,\n    RED,\n\x7d\n\n" ++
  "fun R.mapToModel(): RModel = RModel(\n    colorModel = when (color) \x7b\n" ++
  "        Color.in -> ColorModel.in\n        Color.RED -> ColorModel.RED\n    \x7d,\n)\n\n" ++
  "fun Color.mapToModel(): ColorModel = when (this) \x7b\n" ++
  "    Color.`in` -> ColorModel.`in`\n    Color.RED -> ColorModel.RED\n\x7d\n"

/-- The keyword stands in quotes where the enum is declared and in the branches of its function, and without them in the branches
of the argument. -/
theorem keyword_generated :
    ∃ g n t f, (Hooks.none fun _ => false).run [] keywordProject (.ofClass "R") () = ((), .ok g) ∧ g.naming = some n ∧
      g.table = some t ∧ f ∈ g.workspace.files.toList ∧ (FileCode.ofFile f).body = keywordBody ∧
      .bare "in" ∈ Emitted.ofItems ⟨keywordProject, n, t⟩ f := by
  have hresult : (((Hooks.none fun _ => false).run [] keywordProject (.ofClass "R") ()).2.toOption.bind fun g =>
      g.naming.bind fun n => g.table.bind fun t => g.workspace.files.toList.head?.map fun f =>
        ((FileCode.ofFile f).body, (Emitted.ofItems ⟨keywordProject, n, t⟩ f).contains (.bare "in"))) =
          some (keywordBody, true) := by
    decide +kernel
  obtain ⟨g, hg, hresult⟩ := Option.bind_eq_some_iff.mp hresult
  obtain ⟨n, hn, hresult⟩ := Option.bind_eq_some_iff.mp hresult
  obtain ⟨t, ht, hresult⟩ := Option.bind_eq_some_iff.mp hresult
  obtain ⟨f, hf, hresult⟩ := Option.map_eq_some_iff.mp hresult
  obtain ⟨hbody, hmem⟩ := Prod.mk.inj hresult
  exact ⟨g, n, t, f, eq_ok_of_toOption hg, hn, ht, List.mem_of_mem_head? hf, hbody, List.contains_iff_mem.mp hmem⟩

/-- Every file of a run keeps its names. -/
def Generation.KeepsNames (g : Generation) (p : Project) : Prop :=
  ∃ n t, g.naming = some n ∧ g.table = some t ∧ ∀ f ∈ g.workspace.files.toList, Code.KeepsNames ⟨p, n, t⟩ f

theorem keyword_not_kept :
    ∃ g, (Hooks.none fun _ => false).run [] keywordProject (.ofClass "R") () = ((), .ok g) ∧
      ¬ g.KeepsNames keywordProject := by
  obtain ⟨g, n, t, f, hg, hn, ht, hf, -, hmem⟩ := keyword_generated
  refine ⟨g, hg, fun ⟨n', t', hn', ht', hkeeps⟩ => ?_⟩
  cases hn.symm.trans hn'
  cases ht.symm.trans ht'
  have hpiece : .bare "in" ∈ Emitted.ofFile ⟨keywordProject, n, t⟩ f := by
    rw [Emitted.ofFile]
    exact List.mem_append_right _ (List.mem_append_right _ hmem)
  have hfree : isReserved "in" = false := ((hkeeps f hf).reads _ hpiece ("in", "in") rfl).2
  exact absurd hfree (by decide)

end Counterpart
