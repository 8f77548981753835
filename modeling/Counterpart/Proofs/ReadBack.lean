/-
Rendered files are read back. A file without functions whose names need no quotes, but for keywords, is a source again, with
the package of the file, the imports that are left after pruning and, in order and nesting, its declarations.
-/
import Counterpart.Proofs.ReadBackClasses
import Counterpart.Proofs.ReadingSources
import Counterpart.Code.File

namespace Counterpart.Code

open Kotlin Output Text Lexer
open List (Forall₂)

/-! ## Files -/

theorem block_join {texts : List String} {ess : List (List Lexeme)} (h : Forall₂ Block texts ess) :
    Block (join "\n" (texts.filter fun s => !s.isEmpty)) ess.flatten := by
  induction h with
  | nil => exact .empty
  | @cons text es texts ess htext _ ih =>
    rw [List.flatten_cons]
    by_cases hempty : text = ""
    · subst hempty
      have := htext.append ih
      rwa [String.empty_append] at this
    · rw [List.filter_cons_of_pos (by simpa [String.isEmpty_iff] using hempty)]
      cases hrest : texts.filter fun s => !s.isEmpty with
      | nil =>
        rw [hrest] at ih
        have := htext.append ih
        rwa [join, String.append_empty] at this
      | cons =>
        rw [hrest] at ih
        rw [join_cons (List.cons_ne_nil _ _), String.append_assoc]
        exact htext.append (Block.newline.append ih)

theorem block_package {package : String} (h : package ≠ "" → ∀ s ∈ split '.' package, Name.isPlain s ∧ isReserved s = false) :
    Block (if package.isEmpty then "" else "package " ++ safePath package ++ "\n") (packageLexemes package) := by
  rw [packageLexemes]
  split
  next => exact .empty
  next hne =>
    have hplain := h (by simpa [String.isEmpty_iff] using hne)
    have hsafe : safePath package = package := by
      have hsame : (split '.' package).map safeName = split '.' package := by
        rw [List.map_congr_left fun s hs => by rw [safeName, (hplain s hs).2, if_neg Bool.false_ne_true], List.map_id']
      rw [safePath, hsame]
      exact join_split '.' package
    intro cs us hus
    have hpath := Lexes.path (split_ne_nil '.' package) (fun s hs => (hplain s hs).1) (notNameChar_cons (by decide) cs)
      (.blank (c := '\n') (by decide) hus)
    rw [show "." = String.singleton '.' from rfl, join_split] at hpath
    rw [hsafe]
    simp only [String.toList_append, List.append_assoc]
    show Lexes ("package".toList ++ ' ' :: (package.toList ++ '\n' :: cs)) _
    exact .word_blank (by decide) (by decide) hpath

theorem block_import {i : Import} (hi : i.Plain) : Block ("import " ++ i.text ++ "\n") (.word "import" :: i.lexemes) := by
  intro cs us hus
  have htext : Lexes (i.text.toList ++ '\n' :: cs) (i.lexemes ++ us) := by
    have hpath {cs us} (hcs : ∀ c ∈ cs.head?, isNameChar c = false) (h : Lexes cs us) :
        Lexes (i.path.toList ++ cs) (pathLexemes (split '.' i.path) ++ us) := by
      have := Lexes.path (split_ne_nil '.' i.path) hi.path hcs h
      rwa [show "." = String.singleton '.' from rfl, join_split] at this
    have hend : Lexes ('\n' :: cs) us := .blank (by decide) hus
    rw [Import.lexemes, Import.endLexemes, Import.text, List.append_assoc]
    cases hstar : i.star with
    | true =>
      rw [if_pos rfl, if_pos rfl, String.toList_append, List.append_assoc]
      exact hpath (notNameChar_cons (by decide) _) (.mark (by decide) (.mark (by decide) hend))
    | false =>
      rw [if_neg Bool.false_ne_true, if_neg Bool.false_ne_true]
      cases halias : i.localAlias with
      | none => exact hpath (notNameChar_cons (by decide) _) hend
      | some name =>
        have has : Lexes ("as".toList ++ ' ' :: (name.toList ++ '\n' :: cs)) (.word "as" :: .word name :: us) :=
          .word_blank (by decide) (by decide) (.word (hi.localAlias name halias) (notNameChar_cons (by decide) _) hend)
        simp only [String.toList_append, List.append_assoc]
        exact hpath (notNameChar_cons (by decide) _) (.blank (c := ' ') (by decide) has)
  simp only [String.toList_append, List.append_assoc]
  show Lexes ("import".toList ++ ' ' :: (i.text.toList ++ '\n' :: cs)) _
  exact .word_blank (by decide) (by decide) htext

theorem block_imports {directives : List String} {is : List Import} (h : Forall₂ (fun d (i : Import) => i.Plain ∧ d = i.text) directives is) :
    Block (String.join (directives.map fun directive => "import " ++ directive ++ "\n"))
      (is.flatMap fun i => .word "import" :: i.lexemes) := by
  induction h with
  | nil => exact .empty
  | cons hi _ ih =>
    rw [List.map_cons, String.join_cons, List.flatMap_cons, hi.2]
    exact (block_import hi.1).append ih

theorem fragments_text (b : Buffer) (fs : List Fragment) :
    (b.fragments fs).text = b.text ++ Fragment.renderAll b.indent b.level fs := by
  induction fs generalizing b with
  | nil => simp [Buffer.fragments, Fragment.renderAll]
  | cons f fs ih =>
    have := ih (b.fragment f)
    rw [Buffer.fragments] at this ⊢
    rw [List.foldl_cons, this, Fragment.renderAll]
    simp only [Buffer.fragment, Buffer.raw, String.append_assoc]

theorem Written.block {fs : List Fragment} {es : List Lexeme} (h : Written fs es) :
    Block ((Buffer.ofIndent .standard).fragments fs).text es := by
  rw [fragments_text]
  intro cs us hus
  have := h .standard 0 cs us hus
  simpa [Buffer.ofIndent] using this

/-! ## Reading back -/

theorem mem_dropRepeated {d : String} {ds : List String} (h : d ∈ FileCode.dropRepeated ds) : d ∈ ds := by
  fun_induction FileCode.dropRepeated ds with
  | case1 => exact h
  | case2 => exact h
  | case3 t rest ih => exact List.mem_cons_of_mem _ (ih h)
  | case4 s t rest _ ih =>
    rcases List.mem_cons.mp h with rfl | h
    · exact List.mem_cons_self
    · exact List.mem_cons_of_mem _ (ih h)

theorem mem_directives_of_mem_sortedImports {f : Output.File} {d : String}
    (h : d ∈ (FileCode.ofFile f).prune.sortedImports) : d ∈ f.imports.directives := by
  have := mem_dropRepeated h
  rw [List.mem_mergeSort] at this
  exact List.mem_of_mem_filter this

/-- A file that can be read back: no functions, and names that need no quotes but for keywords. -/
structure Readable (f : Output.File) : Prop where
  functions : f.functions = []
  package : f.package ≠ "" → ∀ s ∈ split '.' f.package, Name.isPlain s ∧ isReserved s = false
  imports : ∀ directive ∈ f.imports.directives, ∃ i : Import, i.Plain ∧ directive = i.text
  declarations : ∀ d ∈ f.declarations, d.Readable

theorem followsImports_of_classes {ess : List (List Lexeme)} {os : List Outline} (h : Forall₂ IsClass ess os) :
    FollowsImports ess.flatten := by
  cases h with
  | nil => rintro _ ⟨⟩
  | cons hes =>
    obtain ⟨⟨w, us, rfl, hw⟩, -⟩ := hes
    rintro _ ⟨⟩
    simp only [List.mem_cons, List.not_mem_nil, or_false] at hw
    rcases hw with rfl | rfl | rfl <;> decide

theorem plain_of_forall₂ {directives : List String} {is : List Import}
    (h : Forall₂ (fun d (i : Import) => i.Plain ∧ d = i.text) directives is) :
    (∀ i ∈ is, i.Plain) ∧ is.map Import.text = directives := by
  induction h with
  | nil => exact ⟨by simp, rfl⟩
  | cons hi _ ih =>
    refine ⟨?_, by rw [List.map_cons, ih.2, hi.2]⟩
    rintro j (_ | ⟨_, hj⟩)
    · exact hi.1
    · exact ih.1 j hj

theorem renderFile_readsBack {f : Output.File} (h : Readable f) : ∃ unit, SourceUnit.ofSource (renderFile f) = .ok unit ∧
    unit.package = f.package ∧ unit.imports.map Import.text = (FileCode.ofFile f).prune.sortedImports ∧
    ClassTree.outlines unit.classes = Declaration.outlines f.declarations := by
  obtain ⟨is, his⟩ := exists_forall₂ fun d hd => h.imports d (mem_directives_of_mem_sortedImports (f := f) hd)
  obtain ⟨ess, hess⟩ := exists_forall₂ fun d hd => exists_written (h.declarations d hd)
  have hclasses : Forall₂ IsClass ess (Declaration.outlines f.declarations) := by
    rw [Declaration.outlines_eq_map, List.forall₂_map_right_iff]
    exact (hess.imp fun _ _ h => h.2).flip
  have hbody : Block (FileCode.ofFile f).prune.body ess.flatten := by
    have hitems : (FileCode.ofFile f).items = f.declarations.map fragmentsOf := by
      rw [FileCode.ofFile, h.functions, List.map_nil, List.append_nil, fragmentsOfAll_eq_map]
    rw [FileCode.body]
    show Block ((Buffer.ofIndent .standard).fragments (Fragment.separated (FileCode.ofFile f).items)).text _
    rw [hitems]
    exact (Written.separated (List.forall₂_map_left_iff.mpr (hess.imp fun _ _ h => h.1))).block
  have hfile : Block (renderFile f) (packageLexemes f.package ++ ((is.flatMap fun i => .word "import" :: i.lexemes) ++ ess.flatten)) := by
    have := block_join (.cons (block_package h.package) (.cons (block_imports his) (.cons hbody .nil)))
    simp only [List.flatten_cons, List.flatten_nil, List.append_nil] at this
    exact this
  obtain ⟨hplain, htexts⟩ := plain_of_forall₂ his
  have hlexes := hfile [] [] .nil
  rw [List.append_nil, List.append_nil] at hlexes
  have himports := followsImports_of_classes hclasses
  have hpackage := himports.followsImport is
  have hstart : NotAt ['#', '@'] (packageLexemes f.package ++ ((is.flatMap fun i => .word "import" :: i.lexemes) ++ ess.flatten)) := by
    rw [packageLexemes]
    split
    next => exact hpackage.notAt
    next => exact notAt_word
  obtain ⟨stream, hstream, hfits⟩ := ofSource_reads hlexes (hstart.of_subset (by decide))
  have hskip := skipAnnotations_of_notAt hfits hstart (by decide)
  obtain ⟨p₁, hp₁, hvalue₁, hfits₁⟩ := packageDirective_reads f.package hpackage _ hfits
  obtain ⟨p₂, hp₂, hvalue₂, hfits₂⟩ := importDirectives_reads hplain himports _ hfits₁
  rw [← List.append_nil ess.flatten] at hfits₂
  obtain ⟨p₃, hp₃, hvalue₃, hfits₃⟩ := members_reads hclasses (.inl rfl) _ hfits₂
  have hunit := ofTokens_ok hskip hp₁ hp₂ hp₃ (List.forall₂_nil_right_iff.mp hfits₃)
  refine ⟨⟨p₁.value, p₂.value, p₃.value⟩, ?_, hvalue₁, ?_, hvalue₃⟩
  · rw [SourceUnit.ofSource, hstream]
    simp only [bind, Except.bind]
    rw [hunit]
    rfl
  · rw [hvalue₂, htexts]

/-- A generic class with an enum in it whose name, one of whose entries and one property of the class are keywords. -/
def shelf : Declaration where
  name := "Shelf"
  kind := .data
  source := 0
  typeParams := some "<T : Comparable<T>>"
  params := [⟨"in", "List<UUID?>", false⟩, ⟨"sorted", "Map<out Sort, T>", true⟩]
  entries := []
  nested :=
    [⟨"object", .enum, 1, none, [⟨"code", "Int", false⟩], [⟨"LOW", some "(1 /* first */)"⟩, ⟨"val", none⟩],
      [.ofName "Empty" .plain 2]⟩]

def shelfFile : Output.File :=
  ⟨0, ⟨"demo/Shelf.kt"⟩, "demo.model", .entity, ⟨[("java.util", ["UUID"]), ("demo.base", ["*", "Kind as Sort"])]⟩, [shelf], []⟩

theorem simple_name {name : String} (h : ∀ s ∈ split '.' name, Name.isPlain s ∧ s ≠ "suspend") (nullable : Bool) :
    (TypeRef.named name [] nullable name).Simple :=
  .named nullable name h (by simp)

theorem shelf_readable : shelf.Readable := by
  have hlist : (TypeRef.named "List" [.type .invariant (.named "UUID" [] true "UUID")] false "").Simple :=
    .named _ _ (by decide) fun v ty hmem => by
      cases List.mem_singleton.mp hmem
      exact simple_name (by decide) true
  have hmap : (TypeRef.named "Map" [.type .outward (.named "Sort" [] false "Sort"), .type .invariant (.named "T" [] false "T")]
      false "").Simple :=
    .named _ _ (by decide) fun v ty hmem => by
      rcases List.mem_cons.mp hmem with h | h
      · cases h
        exact simple_name (by decide) false
      · cases List.mem_singleton.mp h
        exact simple_name (by decide) false
  have hempty : (Declaration.ofName "Empty" .plain 2).Readable :=
    .intro (by decide) (by decide) (by simp [Declaration.ofName]) (by simp [Declaration.ofName])
      (by simp [Declaration.ofName]) (by simp [Declaration.ofName])
  refine .intro (by decide) (by decide) ?_ ?_ (by simp [shelf]) ?_
  · rintro text ⟨⟩
    decide +kernel
  · intro p hp
    rcases List.mem_cons.mp hp with rfl | hp
    · exact ⟨by decide, _, hlist, by decide +kernel⟩
    · cases List.mem_singleton.mp hp
      exact ⟨by decide, _, hmap, by decide +kernel⟩
  · intro n hn
    cases List.mem_singleton.mp hn
    refine .intro (by decide) (by decide) (by simp) ?_ ?_ ?_
    · intro p hp
      cases List.mem_singleton.mp hp
      exact ⟨by decide, _, @simple_name "Int" (by decide) false, by decide +kernel⟩
    · intro e he
      rcases List.mem_cons.mp he with rfl | he
      · refine ⟨by decide, ?_⟩
        rintro text ⟨⟩
        decide +kernel
      · cases List.mem_singleton.mp he
        exact ⟨by decide, by simp⟩
    · intro m hm
      cases List.mem_singleton.mp hm
      exact hempty

theorem shelfFile_readable : Readable shelfFile where
  functions := rfl
  package := fun _ => by decide
  imports := by
    have hdirectives : (shelfFile.imports.groups.flatMap fun g => g.2.map (Name.inPackage g.1)) =
        ["java.util.UUID", "demo.base.*", "demo.base.Kind as Sort"] := by decide +kernel
    intro directive h
    rw [ImportSet.directives, List.mem_mergeSort, hdirectives] at h
    simp only [List.mem_cons, List.not_mem_nil, or_false] at h
    rcases h with rfl | rfl | rfl
    · exact ⟨.symbol "java.util.UUID", ⟨by decide, by simp [Import.symbol], fun _ => rfl⟩, rfl⟩
    · exact ⟨.everything "demo.base", ⟨by decide, by simp [Import.everything], fun _ => rfl⟩, rfl⟩
    · exact ⟨⟨"demo.base.Kind", some "Sort", false⟩, ⟨by decide, fun name hname => by cases hname; decide, by simp⟩, rfl⟩
  declarations := by
    intro d hd
    cases List.mem_singleton.mp hd
    exact shelf_readable

theorem renderFile_readsBack_shelf : Readable shelfFile ∧ ∃ unit, SourceUnit.ofSource (renderFile shelfFile) = .ok unit ∧
    unit.package = "demo.model" ∧ unit.imports.map Import.text = (FileCode.ofFile shelfFile).prune.sortedImports ∧
    ClassTree.outlines unit.classes = Declaration.outlines [shelf] :=
  ⟨shelfFile_readable, renderFile_readsBack shelfFile_readable⟩

end Counterpart.Code
