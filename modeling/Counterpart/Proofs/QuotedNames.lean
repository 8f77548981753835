/-
Names with backticks. Where packages, aliases and classes are called without any, a name between backticks leads to no class, nor
does one that an import directive binds to such a path (`Project.QuotedAs.classOf?_eq`). So quoting a name where it is declared
changes nothing, and quoting it where it is used loses the class (`Project.ofFiles_quoted`).
-/
import Counterpart.Proofs.QuotedProjects

namespace Counterpart

open Kotlin Text

/-! ## Backticks in dotted names -/

theorem hasQuote_append {s t : String} : HasQuote (s ++ t) ↔ HasQuote s ∨ HasQuote t := by
  rw [HasQuote, String.toList_append, List.mem_append]
  rfl

theorem hasQuote_dotted {s t : String} : HasQuote (s ++ "." ++ t) ↔ HasQuote s ∨ HasQuote t := by
  have hdot : ¬HasQuote "." := by decide
  simp only [hasQuote_append, hdot, or_false]

theorem hasQuote_join {ss : List String} : HasQuote (join "." ss) ↔ ∃ s ∈ ss, HasQuote s := by
  induction ss with
  | nil => simp [join, HasQuote]
  | cons s ss ih =>
    cases ss with
    | nil => simp [join]
    | cons t ss => rw [join_cons (List.cons_ne_nil t ss), hasQuote_dotted, ih, List.exists_mem_cons_iff (l := t :: ss)]

theorem hasQuote_inPackage {package name : String} :
    HasQuote (Name.inPackage package name) → HasQuote package ∨ HasQuote name := by
  intro h
  rw [Name.inPackage] at h
  split at h
  · exact .inr h
  · exact hasQuote_dotted.mp h

theorem hasQuote_inPackage_of_name {package name : String} (h : HasQuote name) : HasQuote (Name.inPackage package name) := by
  rw [Name.inPackage]
  split
  · exact h
  · exact hasQuote_dotted.mpr (.inr h)

theorem hasQuote_of_shortName {path : String} (h : HasQuote (Name.shortName path)) : HasQuote path := by
  rw [Name.shortName, HasQuote, String.toList_ofList, List.mem_reverse] at h
  exact List.mem_reverse.mp ((List.takeWhile_sublist _).subset h)

theorem defaultType?_of_hasQuote {name : String} (h : HasQuote name) : defaultType? name = none := by
  have hall : (defaultTypes.all fun g => g.2.all fun n => !decide (HasQuote n)) = true := by decide +kernel
  rw [defaultType?, Option.map_eq_none_iff, List.find?_eq_none]
  intro g hg hname
  have := List.all_eq_true.mp (List.all_eq_true.mp hall g hg) name (List.contains_iff_mem.mp hname)
  simp [h] at this

namespace Project

@[simp] theorem descend_none (p : Project) (names : List String) : p.descend none names = none := by
  induction names with
  | nil => rfl
  | cons s names ih => exact ih

/-! ## Projects without backticks -/

/-- No package and no class is called by a name with a backtick in it. -/
structure Unquoted (p : Project) : Prop where
  package : ∀ c, ¬HasQuote (p.packageOf c)
  name : ∀ c, ¬HasQuote (p.decl c).name

namespace Unquoted

variable {p : Project} (h : p.Unquoted) {c : ClassId} {name : String}
include h

theorem find? (hname : HasQuote name) : p.find? name = none := by
  rw [Project.find?, List.find?_eq_none]
  rintro c - hc
  rw [beq_iff_eq] at hc
  rw [← hc] at hname
  obtain hpackage | hpath := hasQuote_inPackage hname
  · exact h.package c hpackage
  · obtain ⟨s, hs, hquote⟩ := hasQuote_join.mp hpath
    obtain ⟨d, -, rfl⟩ := List.mem_map.mp hs
    exact h.name d hquote

theorem declared? (hname : HasQuote name) : p.declared? name = none := by rw [Project.declared?, h.find? hname]; rfl

theorem findNested? (hname : HasQuote name) : p.findNested? c name = none := by
  rw [Project.findNested?, List.find?_eq_none]
  rintro d - hd
  rw [beq_iff_eq] at hd
  exact h.name d (hd ▸ hname)

theorem descend {names : List String} (hnames : ∃ s ∈ names, HasQuote s) (o : Option ClassId) : p.descend o names = none := by
  induction names generalizing o with
  | nil => simp at hnames
  | cons s names ih =>
    rw [Project.descend]
    rcases (List.exists_mem_cons_iff ..).mp hnames with hs | hnames
    · cases o with
      | none => exact descend_none p names
      | some d => rw [Option.bind_some, h.findNested? hs, descend_none]
    · exact ih hnames _

/-- No class around is called by a name with a backtick in it. -/
theorem lookAround (hname : HasQuote name) (cs : List ClassId) (d : ClassId) : p.lookAround name cs ≠ some (some d) := by
  induction cs with
  | nil => rintro ⟨⟩
  | cons e cs ih =>
    rw [Project.lookAround, h.findNested? hname]
    split
    · rintro ⟨⟩
    · have hne : ((p.decl e).name == name) = false := by
        rw [beq_eq_false_iff_ne]
        rintro rfl
        exact h.name e hname
      simp only [hne, Bool.false_eq_true, if_false]
      exact ih

/-- A simple name with a backtick in it means a class of the project only under an alias. -/
theorem meaning? (halias : ∀ i ∈ (p.fileOf c).imports, ∀ a ∈ i.localAlias, ¬HasQuote a) (hname : HasQuote name) {m : Meaning}
    (hm : p.meaning? c name = some m) : HasQuote m.qualifiedName ∧ m.classId = none := by
  rw [Project.meaning?] at hm
  split at hm
  next d hd => exact absurd hd (h.lookAround hname _ d)
  next => cases hm
  next =>
    rw [meaningInFile?] at hm
    split at hm
    next i hi =>
      cases hm
      have hlocal : i.localName? = some name := by simpa using List.find?_some hi
      have hpath : HasQuote i.path := by
        rw [Import.localName?] at hlocal
        split at hlocal
        · cases hlocal
        · cases halias' : i.localAlias with
          | none =>
            rw [halias', Option.getD_none, Option.some_inj] at hlocal
            exact hasQuote_of_shortName (hlocal ▸ hname)
          | some a =>
            rw [halias', Option.getD_some, Option.some_inj] at hlocal
            exact absurd (hlocal ▸ hname) (halias i (List.mem_of_find?_eq_some hi) a halias')
      exact ⟨hpath, h.find? hpath⟩
    next =>
      have hstars : ((p.fileOf c).imports.filter (·.star)).findSome? (fun i => p.declared? (i.path ++ "." ++ name)) = none :=
        List.findSome?_eq_none_iff.mpr fun i _ => h.declared? (hasQuote_dotted.mpr (.inr hname))
      rw [h.declared? (hasQuote_inPackage_of_name hname), hstars, defaultType?_of_hasQuote hname] at hm
      cases hm

end Unquoted

/-- The import directive that says in a class what the first segment of a name means. -/
def directive? (p : Project) (scope : ClassId) (name : String) : Option Import :=
  let first := (split '.' name).headD ""
  match p.lookAround first (scope :: (p.decl scope).enclosing) with
  | some _ => none
  | none => (p.fileOf scope).imports.find? fun i => i.localName? == some first

/-- The directives of a file that have no backtick in their paths. -/
def unquotedImports (p : Project) (file : FileId) : List Import :=
  (p.file file).imports.filter fun i => ¬HasQuote i.path

/-- What is found among some of the elements. -/
theorem find?_filter_of_first {α : Type} {l : List α} {P Q : α → Bool} (h : ∀ a ∈ l.find? Q, P a = true) :
    (l.filter P).find? Q = l.find? Q := by
  induction l with
  | nil => rfl
  | cons a l ih =>
    rw [List.find?_cons] at h ⊢
    rw [List.filter_cons]
    split at h
    next hQ => rw [if_pos (h a rfl), List.find?_cons, hQ]
    next hQ =>
      split
      · rw [List.find?_cons, hQ]
        exact ih h
      · exact ih h

theorem findSome?_filter_of_none {α β : Type} {l : List α} {P : α → Bool} {f : α → Option β}
    (h : ∀ a ∈ l, P a = false → f a = none) : (l.filter P).findSome? f = l.findSome? f := by
  induction l with
  | nil => rfl
  | cons a l ih =>
    have hl := ih fun b hb => h b (List.mem_cons_of_mem a hb)
    rw [List.filter_cons, List.findSome?_cons]
    split
    · rw [List.findSome?_cons, hl]
    next hP => rw [h a List.mem_cons_self (by simpa using hP), hl]

section Lookup

variable {p : Project} {c : ClassId} {name : String}

theorem Unquoted.classOf?_of_meaning? (h : p.Unquoted) {m : Meaning}
    (hm : p.meaning? c ((split '.' name).headD "") = some m) (hquote : HasQuote m.qualifiedName) (hclass : m.classId = none) :
    p.classOf? c name = none := by
  rw [classOf?, meaningOfPath?]
  simp only [hm, hclass, descend_none, h.find? (hasQuote_join.mpr ⟨_, List.mem_cons_self, hquote⟩)]
  rfl

/-- A name with a backtick in it leads to no class. -/
theorem Unquoted.classOf?_of_hasQuote (h : p.Unquoted) (halias : ∀ i ∈ (p.fileOf c).imports, ∀ a ∈ i.localAlias, ¬HasQuote a)
    (hname : HasQuote name) : p.classOf? c name = none := by
  obtain ⟨first, rest, hsplit⟩ := List.exists_cons_of_ne_nil (split_ne_nil '.' name)
  have hsegments : ∃ s ∈ first :: rest, HasQuote s := by
    rw [← hsplit, ← hasQuote_join]
    exact (join_split '.' name).symm ▸ hname
  cases hm : p.meaning? c first with
  | none =>
    rw [classOf?, meaningOfPath?]
    simp only [hsplit, List.headD_cons, hm, h.find? hname]
    split <;> rfl
  | some m =>
    rcases (List.exists_mem_cons_iff ..).mp hsegments with hfirst | hrest
    · obtain ⟨hquote, hclass⟩ := h.meaning? halias hfirst hm
      exact h.classOf?_of_meaning? (by rw [hsplit]; exact hm) hquote hclass
    · have hpath : HasQuote (join "." (m.qualifiedName :: rest)) := by
        rw [hasQuote_join, List.exists_mem_cons_iff]
        exact .inr hrest
      rw [classOf?, meaningOfPath?]
      simp only [hsplit, List.headD_cons, hm, List.drop_one, List.tail_cons, h.descend hrest, h.find? hpath]
      rfl

/-- A name that a directive binds to a path with a backtick in it leads to no class. -/
theorem Unquoted.classOf?_of_directive? (h : p.Unquoted) {i : Import} (hi : p.directive? c name = some i)
    (hpath : HasQuote i.path) : p.classOf? c name = none := by
  rw [directive?] at hi
  split at hi
  · cases hi
  next hnone =>
    refine h.classOf?_of_meaning? (m := ⟨i.path, none⟩) ?_ hpath rfl
    rw [Project.meaning?, hnone]
    simp only [meaningInFile?, hi, h.find? hpath]

/-- Directives with a backtick in their paths that do not bind the name have no say in what it means. -/
theorem Unquoted.meaningInFile?_filter (h : p.Unquoted) {f g : SourceFile} (hpackage : g.package = f.package)
    (himports : g.imports = f.imports.filter fun i => ¬HasQuote i.path)
    (hi : ∀ i ∈ f.imports.find? fun i => i.localName? == some name, ¬HasQuote i.path) :
    p.meaningInFile? g name = p.meaningInFile? f name := by
  have hfind : g.imports.find? (fun i => i.localName? == some name) = f.imports.find? fun i => i.localName? == some name := by
    rw [himports]
    exact find?_filter_of_first fun i hmem => decide_eq_true (hi i hmem)
  have hstars : ((g.imports.filter (·.star)).findSome? fun i => p.declared? (i.path ++ "." ++ name)) =
      (f.imports.filter (·.star)).findSome? fun i => p.declared? (i.path ++ "." ++ name) := by
    rw [himports, List.filter_comm]
    refine findSome?_filter_of_none fun i _ hquote => h.declared? (hasQuote_dotted.mpr (.inl ?_))
    simpa using hquote
  rw [Project.meaningInFile?, Project.meaningInFile?, hfind, hpackage, hstars]

theorem Unquoted.classOf?_unquotedImports (h : p.Unquoted) (hi : ∀ i ∈ p.directive? c name, ¬HasQuote i.path) :
    p.classOf? c name = (p.withImports p.unquotedImports).classOf? c name := by
  have hsame := p.sameNames_withImports p.unquotedImports
  have hfile : (p.withImports p.unquotedImports).meaningInFile? = p.meaningInFile? := by
    funext f name
    simp only [Project.meaningInFile?, Project.declared?, hsame.find?]
  have himports : ((p.withImports p.unquotedImports).fileOf c).imports =
      (p.fileOf c).imports.filter fun i => ¬HasQuote i.path := by
    rw [imports_withImports, fileOf]
    split
    next => rfl
    next hlt => rw [file_of_size_le (Nat.le_of_not_lt hlt)]; rfl
  refine (hsame.classOf?_of_meaning? ?_).symm
  rw [directive?] at hi
  simp only [Project.meaning?, hsame.enclosing, hsame.lookAround, hsame.qualifiedName, hfile]
  split
  · rfl
  · rfl
  next hnone =>
    simp only [hnone] at hi
    exact h.meaningInFile?_filter (hsame.packageOf c) himports hi

end Lookup

/-- No package and no alias has a backtick in it. -/
def PlainHeaders (p : Project) : Prop :=
  ∀ f ∈ p.files, ¬HasQuote f.package ∧ ∀ i ∈ f.imports, ∀ a ∈ i.localAlias, ¬HasQuote a

instance (p : Project) : Decidable p.PlainHeaders := inferInstanceAs (Decidable (∀ f ∈ p.files, _))

theorem PlainHeaders.fileOf {p : Project} (h : p.PlainHeaders) (c : ClassId) :
    ¬HasQuote (p.fileOf c).package ∧ ∀ i ∈ (p.fileOf c).imports, ∀ a ∈ i.localAlias, ¬HasQuote a := by
  by_cases hlt : (p.decl c).file < p.files.size
  · have : p.fileOf c = p.files[(p.decl c).file] := by simp [Project.fileOf, file, hlt]
    rw [this]
    exact h _ (Array.getElem_mem hlt)
  · rw [Project.fileOf, file_of_size_le (Nat.le_of_not_lt hlt)]
    exact ⟨by decide, List.forall_mem_nil _⟩

/-- **Where a name leads** when packages and aliases have no backticks: nowhere when there is a backtick in it, or in the path of
the directive that binds it, and else where it leads without the directives that have one. -/
theorem QuotedAs.classOf?_eq {p p' : Project} (h : p.QuotedAs p') (hscopes : p.SameScopes p') (hplain : p'.PlainHeaders)
    (c : ClassId) (name : String) : p'.classOf? c name =
      if HasQuote name ∨ ∃ i ∈ p'.directive? c name, HasQuote i.path then none
      else (p.withImports p'.unquotedImports).classOf? c name := by
  have hunquoted : p'.Unquoted := ⟨fun c => (hplain.fileOf c).1, fun c => (h.decl c).name ▸ (h.decl c).unquoted⟩
  split
  next hquote =>
    obtain hname | ⟨i, hi, hpath⟩ := hquote
    · exact hunquoted.classOf?_of_hasQuote (hplain.fileOf c).2 hname
    · exact hunquoted.classOf?_of_directive? hi hpath
  next hnot =>
    rw [not_or] at hnot
    rw [hunquoted.classOf?_unquotedImports fun i hi hpath => hnot.2 ⟨i, hi, hpath⟩]
    exact h.classOf?_withImports hscopes _ c name

/-- **Projects of files with names quoted** load as well, with the same classes, and where the scopes are the same, a name means
what it means without the quotes under the same directives. Where packages and aliases have no backticks, a name with one leads to
no class, nor does one that a directive binds to a path with one. -/
theorem ofFiles_quoted {files : List (Path × String)} {p : Project} (h : ofFiles files = .ok p)
    (chosen : FileId → Nat → Bool) : ∃ p', ofFiles (quoteFiles chosen files) = .ok p' ∧ p.QuotedAs p' ∧
      (p.SameScopes p' → ∀ c name, p'.classOf? c name = (p.withImports fun i => (p'.file i).imports).classOf? c name) ∧
      (p.SameScopes p' → p'.PlainHeaders → ∀ c name, p'.classOf? c name =
        if HasQuote name ∨ ∃ i ∈ p'.directive? c name, HasQuote i.path then none
        else (p.withImports p'.unquotedImports).classOf? c name) ∧
      (p.SameClasses p' → ∀ root, p'.reachable root = p.reachable root) := by
  obtain ⟨p', hp', hquoted⟩ := exists_ofFiles_quoteFiles h chosen
  refine ⟨p', hp', hquoted, fun hscopes c name => ?_, fun hscopes => hquoted.classOf?_eq hscopes, hquoted.reachable⟩
  have := hquoted.classOf?_withImports hscopes (fun i => (p'.file i).imports) c name
  rwa [withImports_self] at this

end Project

/-- A class that names one of another package. -/
def importedFiles : List (Path × String) :=
  [(⟨"R.kt"⟩, "import b.Foo\ndata class R(val a: Foo, val n: Int)"), (⟨"b/Foo.kt"⟩, "package b\ndata class Foo(val x: Int)")]

/-- The names of both classes where they are declared, and a type of the language. -/
def declaredNames : FileId → Nat → Bool
  | 0, i => [6, 16].contains i
  | _, i => i == 4

theorem ofFiles_quoted_importedFiles : ∃ p, Project.ofFiles importedFiles = .ok p ∧ p.reachable 0 = [0, 1] ∧
    Project.quoteFiles declaredNames importedFiles =
      [(⟨"R.kt"⟩, "import b.Foo\ndata class `R`(val a: Foo, val n: `Int`)"),
        (⟨"b/Foo.kt"⟩, "package b\ndata class `Foo`(val x: Int)")] ∧
    ∃ p', Project.ofFiles (Project.quoteFiles declaredNames importedFiles) = .ok p' ∧ p.QuotedAs p' ∧
      (∀ c name, p'.classOf? c name = (p.withImports fun i => (p'.file i).imports).classOf? c name) ∧
      (∀ c name, p'.classOf? c name =
        if HasQuote name ∨ ∃ i ∈ p'.directive? c name, HasQuote i.path then none
        else (p.withImports p'.unquotedImports).classOf? c name) ∧
      ∀ root, p'.reachable root = p.reachable root := by
  have hquote : Project.quoteFiles declaredNames importedFiles =
      [(⟨"R.kt"⟩, "import b.Foo\ndata class `R`(val a: Foo, val n: `Int`)"),
        (⟨"b/Foo.kt"⟩, "package b\ndata class `Foo`(val x: Int)")] := by
    decide +kernel
  have hrun : ((Project.ofFiles importedFiles).toOption.bind fun p =>
      (Project.ofFiles [(⟨"R.kt"⟩, "import b.Foo\ndata class `R`(val a: Foo, val n: `Int`)"),
        (⟨"b/Foo.kt"⟩, "package b\ndata class `Foo`(val x: Int)")]).toOption.map fun p' =>
        (p.reachable 0, decide (p.SameScopes p' ∧ p'.PlainHeaders ∧ p.SameClasses p'))) = some ([0, 1], true) := by
    decide +kernel
  obtain ⟨p, hp, hrun⟩ := Option.bind_eq_some_iff.mp hrun
  obtain ⟨q, hq, hresult⟩ := Option.map_eq_some_iff.mp hrun
  simp only [Prod.mk.injEq, decide_eq_true_eq] at hresult
  obtain ⟨hreachable, hscopes, hplain, hclasses⟩ := hresult
  have hp := ok_of_toOption hp
  obtain ⟨p', hp', hquoted, hnames, hexact, hsame⟩ := Project.ofFiles_quoted hp declaredNames
  obtain rfl : p' = q := Except.ok.inj (hp'.symm.trans (hquote ▸ ok_of_toOption hq))
  exact ⟨p, hp, hreachable, hquote, p', hp', hquoted, hnames hscopes, hexact hscopes hplain, hsame hclasses⟩

/-- A class that names the one below it. -/
def namedFiles : List (Path × String) := [(⟨"a/R.kt"⟩, "data class R(val a: Foo)\ndata class Foo(val x: Int)")]

/-- Quoted where it is used, the name of a class leads to none, and the class is not reachable any more. -/
theorem quotedUse_lost : ∃ p p', Project.ofFiles namedFiles = .ok p ∧
    Project.quoteFiles (fun _ i => i == 7) namedFiles =
      [(⟨"a/R.kt"⟩, "data class R(val a: `Foo`)\ndata class Foo(val x: Int)")] ∧
    Project.ofFiles (Project.quoteFiles (fun _ i => i == 7) namedFiles) = .ok p' ∧ p.SameScopes p' ∧ p'.PlainHeaders ∧
    p.classOf? 0 "Foo" = some 1 ∧ p'.classOf? 0 "`Foo`" = none ∧ ¬p.SameClasses p' ∧
    p.reachable 0 = [0, 1] ∧ p'.reachable 0 = [0] := by
  have hquote : Project.quoteFiles (fun _ i => i == 7) namedFiles =
      [(⟨"a/R.kt"⟩, "data class R(val a: `Foo`)\ndata class Foo(val x: Int)")] := by
    decide +kernel
  have hrun : ((Project.ofFiles namedFiles).toOption.bind fun p =>
      (Project.ofFiles [(⟨"a/R.kt"⟩, "data class R(val a: `Foo`)\ndata class Foo(val x: Int)")]).toOption.map fun p' =>
        (decide (p.SameScopes p' ∧ p'.PlainHeaders ∧ ¬p.SameClasses p'), p.classOf? 0 "Foo", p'.classOf? 0 "`Foo`",
          p.reachable 0, p'.reachable 0)) =
      some (true, some 1, none, [0, 1], [0]) := by
    decide +kernel
  obtain ⟨p, hp, hrun⟩ := Option.bind_eq_some_iff.mp hrun
  obtain ⟨p', hp', hresult⟩ := Option.map_eq_some_iff.mp hrun
  simp only [Prod.mk.injEq, decide_eq_true_eq] at hresult
  obtain ⟨⟨hscopes, hplain, hclasses⟩, hused, hlost, hreachable, hreachable'⟩ := hresult
  exact ⟨p, p', ok_of_toOption hp, hquote, hquote ▸ ok_of_toOption hp', hscopes, hplain, hused, hlost, hclasses,
    hreachable, hreachable'⟩

end Counterpart
