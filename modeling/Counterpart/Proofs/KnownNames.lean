/-
A further file whose classes repeat names that are declared. The first class of a name is kept wherever a name is looked up, so
the project means what it did before (`Project.renumberedFiles_add`), and a run has the same outcome
(`generate_append_known`). Selecting a class is the exception: a nested path or a simple name is looked for among all
classes, where one of the further file can come in between (`Project.Intrudes`).
-/
import Mathlib.Data.List.Find
import Counterpart.Proofs.LoadOrder

namespace Counterpart

open Kotlin Text

/-! ## Numbers from somewhere on -/

/-- The numbers from `n` on, moved up by `k`. -/
def moveUp (n k c : Nat) : Nat := if c < n then c else c + k

theorem moveUp_of_lt {n k c : Nat} (h : c < n) : moveUp n k c = c := if_pos h

theorem moveUp_of_le {n k c : Nat} (h : n ≤ c) : moveUp n k c = c + k := if_neg (Nat.not_lt.mpr h)

theorem moveUp_injective (n k : Nat) : Function.Injective (moveUp n k) := by
  intro c d h
  unfold moveUp at h
  split_ifs at h <;> omega

theorem moveUp_lt_iff (n k c : Nat) : moveUp n k c < n + k ↔ c < n := by
  unfold moveUp
  split_ifs <;> omega

namespace Project

variable {p : Project} {path : Path} {unit : SourceUnit}

theorem size_classes_add_added (p : Project) (path : Path) (unit : SourceUnit) :
    (p.add path unit).classes.size = p.classes.size + (p.added unit).length := size_classes_add p path unit

/-! ## The classes that were there -/

theorem fileOf_add_of_lt (hp : p.Loaded) {c : Nat} (hc : c < p.classes.size) : (p.add path unit).fileOf c = p.fileOf c := by
  rw [fileOf, fileOf, decl_add_of_lt hc, file_add, if_neg (Nat.ne_of_lt (hp.wellNumbered hc).file)]

theorem alike_add (hp : p.Loaded) (path : Path) (unit : SourceUnit) :
    p.Alike (moveUp p.classes.size (p.added unit).length) (· < p.classes.size) (p.add path unit) where
  injective := moveUp_injective _ _
  size c := by rw [size_classes_add_added, moveUp_lt_iff]
  decl c := by
    by_cases hc : c < p.classes.size
    · rw [moveUp_of_lt hc, decl_add_of_lt hc]
      have henclosing : (p.decl c).enclosing.map (moveUp p.classes.size (p.added unit).length) = (p.decl c).enclosing := by
        refine (List.map_congr_left fun e he => ?_).trans (List.map_id _)
        exact moveUp_of_lt (Nat.lt_trans (hp.lt_of_mem_enclosing hc he) hc)
      exact ⟨rfl, rfl, henclosing.symm, rfl, rfl, rfl⟩
    · have hle := Nat.le_of_not_lt hc
      rw [moveUp_of_le hle, decl_of_size_le hle,
        decl_of_size_le (size_classes_add_added p path unit ▸ Nat.add_le_add_right hle _)]
      exact ⟨rfl, rfl, rfl, rfl, rfl, rfl⟩
  fileOf c hc := by
    rw [moveUp_of_lt hc, fileOf_add_of_lt hp hc]
    exact ⟨rfl, rfl, rfl⟩
  outermost c hc := by rw [moveUp_of_lt hc, decl_add_of_lt hc, moveUp_of_lt (hp.outermost_lt hc)]
  supported c hc := lt_size_of_isSupported hc
  dom_enclosing c hc e he := Nat.lt_trans (hp.lt_of_mem_enclosing hc he) hc
  dom_outermost c hc := hp.outermost_lt hc

theorem qualifiedName_add_of_lt (hp : p.Loaded) {c : Nat} (hc : c < p.classes.size) :
    (p.add path unit).qualifiedName c = p.qualifiedName c := by
  have h := (alike_add hp path unit).qualifiedName hc
  rwa [moveUp_of_lt hc] at h

theorem nestedPath_add_of_lt (hp : p.Loaded) {c : Nat} (hc : c < p.classes.size) :
    (p.add path unit).nestedPath c = p.nestedPath c := by
  have h := (alike_add hp path unit).nestedPath c
  rwa [moveUp_of_lt hc] at h

/-! ## Names -/

theorem lt_of_find?_eq_some {name : String} {c : ClassId} (h : p.find? name = some c) : c < p.classes.size :=
  List.mem_range.mp (List.mem_of_find?_eq_some h)

/-- **A qualified name** leads to the class to which it led before. -/
theorem find?_add (hp : p.Loaded) (hknown : (p.add path unit).qualifiedNames ⊆ p.qualifiedNames) (name : String) :
    (p.add path unit).find? name = p.find? name := by
  have hold : (List.range p.classes.size).find? (fun c => (p.add path unit).qualifiedName c == name) = p.find? name :=
    List.find?_congr fun c hc => by rw [qualifiedName_add_of_lt hp (List.mem_range.mp hc)]
  rw [find?, size_classes_add_added, List.range_add, List.find?_append, hold]
  cases hfind : p.find? name with
  | some c => rfl
  | none =>
    rw [Option.none_or, List.find?_eq_none]
    intro c hc hname
    -- a new class of that name repeats the name of an old one
    obtain ⟨i, hi, rfl⟩ := List.mem_map.mp hc
    have hmem : (p.add path unit).qualifiedName (p.classes.size + i) ∈ (p.add path unit).qualifiedNames := by
      refine List.mem_map_of_mem (List.mem_range.mpr ?_)
      rw [size_classes_add_added]
      exact Nat.add_lt_add_left (List.mem_range.mp hi) _
    obtain ⟨d, hd, hqualified⟩ := List.mem_map.mp (hknown hmem)
    refine List.find?_eq_none.mp hfind d hd ?_
    rw [hqualified]
    exact hname

/-- The classes inside a class are those that were there. -/
theorem nested_add (hp : p.Loaded) (path : Path) (unit : SourceUnit) (c : Nat) :
    (p.add path unit).nested (moveUp p.classes.size (p.added unit).length c) = p.nested c := by
  have hnew : ∀ d ∈ p.added unit, d.parent? ≠ some (moveUp p.classes.size (p.added unit).length c) := by
    intro d hd hparent
    obtain ⟨i, hi, rfl⟩ := List.mem_iff_getElem.mp hd
    obtain ⟨-, hnone | ⟨parent, hparent', hle, hlt⟩⟩ := ClassDecl.follows_ofTrees (List.getElem?_eq_getElem hi)
    · cases hparent.symm.trans hnone
    · cases hparent.symm.trans hparent'
      have hlt' := (moveUp_lt_iff p.classes.size (p.added unit).length c).mp (by omega)
      rw [moveUp_of_lt hlt'] at hle
      omega
  have hold : ∀ d ∈ p.classes.toList,
      (d.parent? == some (moveUp p.classes.size (p.added unit).length c)) = (d.parent? == some c) := by
    intro d hd
    obtain ⟨i, hi, rfl⟩ := List.mem_iff_getElem.mp hd
    have hsize : i < p.classes.size := by simpa using hi
    have hdecl : p.classes.toList[i] = p.decl i := by simp [decl, hsize]
    rw [hdecl, Bool.eq_iff_iff, beq_iff_eq, beq_iff_eq]
    by_cases hc : c < p.classes.size
    · rw [moveUp_of_lt hc]
    · have hle := Nat.le_of_not_lt hc
      constructor <;> intro hparent <;> have hlt := (hp.parent hparent).1
      · rw [moveUp_of_le hle] at hlt
        omega
      · omega
  have hlist : (p.add path unit).classes.toList = p.classes.toList ++ p.added unit := by simp [add, added]
  have hnone : (p.added unit).filter (fun d => d.parent? == some (moveUp p.classes.size (p.added unit).length c)) = [] :=
    List.filter_eq_nil_iff.mpr fun d hd => by simpa using hnew d hd
  rw [nested, nested, hlist, List.filter_append, hnone, List.append_nil, List.filter_congr hold]

theorem lt_of_mem_nested (hp : p.Loaded) {c d : Nat} (h : d ∈ p.nested c) : d < p.classes.size := (hp.mem_map_id.mp h).1

/-- **A further file that repeats names** leaves the meaning of every name as it was. -/
theorem renumberedFiles_add (hp : p.Loaded) (hknown : (p.add path unit).qualifiedNames ⊆ p.qualifiedNames) :
    p.RenumberedFiles (moveUp p.classes.size (p.added unit).length) (moveUp p.files.size 1) (· < p.classes.size)
      (p.add path unit) where
  toAlike := alike_add hp path unit
  find? name := by
    rw [find?_add hp hknown]
    cases hfind : p.find? name with
    | none => rfl
    | some c => rw [Option.map_some, moveUp_of_lt (lt_of_find?_eq_some hfind)]
  findNested? c name := by
    have hnames : (p.nested c).find? (fun d => ((p.add path unit).decl d).name == name) = p.findNested? c name :=
      List.find?_congr fun d hd => by rw [decl_add_of_lt (lt_of_mem_nested hp hd)]
    rw [findNested?, nested_add hp, hnames]
    cases hfind : p.findNested? c name with
    | none => rfl
    | some d => rw [Option.map_some, moveUp_of_lt (lt_of_mem_nested hp (List.mem_of_find?_eq_some hfind))]
  dom_find? name c h := lt_of_find?_eq_some h
  dom_nested c name d h := lt_of_mem_nested hp (List.mem_of_find?_eq_some h)
  file_injective := moveUp_injective _ _
  file c hc := by rw [moveUp_of_lt hc, decl_add_of_lt hc, moveUp_of_lt (hp.wellNumbered hc).file]
  path i := by
    rw [file_add]
    by_cases hi : i < p.files.size
    · rw [moveUp_of_lt hi, if_neg (Nat.ne_of_lt hi)]
    · have hle := Nat.le_of_not_lt hi
      have hne : i + 1 ≠ p.files.size := Nat.ne_of_gt (Nat.lt_succ_of_le hle)
      rw [moveUp_of_le hle, if_neg hne, file_of_size_le hle, file_of_size_le (Nat.le_succ_of_le hle)]

/-! ## The selected class -/

/-- A class that `p'` has beyond those of `p` is among those that a selection may mean, when it is no qualified name. -/
def Intrudes (p p' : Project) (name : String) : Prop :=
  p.find? name = none ∧ ∃ c ∈ p'.candidates name, p.classes.size ≤ c

instance (p p' : Project) (name : String) : Decidable (p.Intrudes p' name) :=
  inferInstanceAs (Decidable (p.find? name = none ∧ ∃ c ∈ p'.candidates name, p.classes.size ≤ c))

theorem filter_nestedPath_add (hp : p.Loaded) (path : Path) (unit : SourceUnit) (name : String) :
    (List.range (p.add path unit).classes.size).filter (fun c => (p.add path unit).nestedPath c == name) =
      (List.range p.classes.size).filter (fun c => p.nestedPath c == name) ++
        ((List.range (p.added unit).length).map (p.classes.size + ·)).filter fun c =>
          (p.add path unit).nestedPath c == name := by
  rw [size_classes_add_added, List.range_add, List.filter_append]
  refine congrArg (· ++ _) (List.filter_congr fun c hc => ?_)
  rw [nestedPath_add_of_lt hp (List.mem_range.mp hc)]

theorem findBySimpleName_add (p : Project) (path : Path) (unit : SourceUnit) (name : String) :
    (p.add path unit).findBySimpleName name =
      p.findBySimpleName name ++ ((p.added unit).filter fun d => d.name == name).map (·.id) := by
  have hlist : (p.add path unit).classes.toList = p.classes.toList ++ p.added unit := by simp [add, added]
  rw [findBySimpleName, findBySimpleName, hlist, List.filter_append, List.map_append]

/-- When no new class is among the candidates, they are those that there were. -/
theorem candidates_add (hp : p.Loaded) {name : String} (h : ∀ c ∈ (p.add path unit).candidates name, c < p.classes.size) :
    (p.add path unit).candidates name = p.candidates name := by
  have hnil : ∀ {cs : List Nat}, (∀ c ∈ cs, c < p.classes.size) → (∀ c ∈ cs, p.classes.size ≤ c) → cs = [] :=
    fun hlt hle => List.eq_nil_iff_forall_not_mem.mpr fun c hc => Nat.not_lt.mpr (hle c hc) (hlt c hc)
  simp only [candidates, filter_nestedPath_add hp, findBySimpleName_add] at h ⊢
  split at h
  next hempty =>
    obtain ⟨hold, hnew⟩ := List.append_eq_nil_iff.mp (List.isEmpty_iff.mp hempty)
    have hids : ((p.added unit).filter fun d => d.name == name).map (·.id) = [] := by
      refine hnil (fun c hc => h c (List.mem_append_right _ hc)) fun c hc => ?_
      obtain ⟨d, hd, rfl⟩ := List.mem_map.mp hc
      obtain ⟨i, hi, rfl⟩ := List.mem_iff_getElem.mp (List.mem_of_mem_filter hd)
      have hid := (ClassDecl.numbered_ofTrees p.files.size [] p.classes.size unit.classes i _ (List.getElem?_eq_getElem hi)).1
      exact hid ▸ Nat.le_add_right _ _
    simp only [hold, hnew, hids, List.append_nil]
  next hempty =>
    have hpaths : ((List.range (p.added unit).length).map (p.classes.size + ·)).filter (fun c =>
        (p.add path unit).nestedPath c == name) = [] := by
      refine hnil (fun c hc => h c (List.mem_append_right _ hc)) fun c hc => ?_
      obtain ⟨i, -, rfl⟩ := List.mem_map.mp (List.mem_of_mem_filter hc)
      exact Nat.le_add_right _ _
    rw [hpaths, List.append_nil] at hempty ⊢
    rw [if_neg hempty, if_neg hempty]

theorem lt_of_selected (hp : p.Loaded) {selection : String} {c : ClassId} (h : p.selected selection = .ok c) :
    c < p.classes.size := by
  simp only [selected] at h
  split at h
  next hfind =>
    cases h
    exact lt_of_find?_eq_some hfind
  next =>
    split at h
    next => cases h
    next hcs =>
      cases h
      exact Reordered.lt_of_mem_candidates hp (hcs ▸ List.mem_singleton_self _)
    next => cases h

/-- A selection with which no further class interferes means what it meant. -/
theorem selected_add (hp : p.Loaded) (hknown : (p.add path unit).qualifiedNames ⊆ p.qualifiedNames) {selection : String}
    (h : ¬p.Intrudes (p.add path unit) (trim selection)) :
    (p.add path unit).selected selection = p.selected selection := by
  simp only [selected, find?_add hp hknown]
  cases hfind : p.find? (trim selection) with
  | some c => rfl
  | none =>
    have hlt : ∀ c ∈ (p.add path unit).candidates (trim selection), c < p.classes.size := fun c hc =>
      Nat.lt_of_not_le fun hle => h ⟨hfind, c, hc, hle⟩
    have hnames : ((p.add path unit).candidates (trim selection)).map (p.add path unit).qualifiedName =
        (p.candidates (trim selection)).map p.qualifiedName := by
      rw [← candidates_add hp hlt]
      exact List.map_congr_left fun c hc => qualifiedName_add_of_lt hp (hlt c hc)
    rw [candidates_add hp hlt] at hnames ⊢
    cases hcs : p.candidates (trim selection) with
    | nil => rfl
    | cons c cs =>
      cases cs with
      | nil => rfl
      | cons d cs => simp only [← hcs, hnames]

/-- A selection means a class that was there when it meant that class before and no further class interferes. -/
theorem selected_add_iff (hp : p.Loaded) (hknown : (p.add path unit).qualifiedNames ⊆ p.qualifiedNames) {selection : String}
    {c : ClassId} (hc : c < p.classes.size) :
    (p.add path unit).selected selection = .ok c ↔
      p.selected selection = .ok c ∧ ¬p.Intrudes (p.add path unit) (trim selection) := by
  by_cases hintrudes : p.Intrudes (p.add path unit) (trim selection)
  · simp only [hintrudes, not_true, and_false, iff_false]
    obtain ⟨hfind, d, hd, hle⟩ := hintrudes
    intro hselected
    simp only [selected, find?_add hp hknown, hfind] at hselected
    split at hselected
    next => cases hselected
    next e he =>
      cases hselected
      rw [he, List.mem_singleton] at hd
      exact absurd hc (Nat.not_lt.mpr (hd ▸ hle))
    next => cases hselected
  · simp only [selected_add hp hknown hintrudes, hintrudes, not_false_eq_true, and_true]

theorem ofFiles_append {files : List (Path × String)} {file : Path × String} {p' : Project} (h : ofFiles files = .ok p)
    (h' : ofFiles (files ++ [file]) = .ok p') : p.Loaded ∧ ∃ unit, p' = p.add file.1 unit := by
  obtain ⟨-, rfl⟩ := ofFiles_iff.mp h
  obtain ⟨-, rfl⟩ := ofFiles_iff.mp h'
  refine ⟨Loaded.empty.addAll _, SourceUnit.ofSourceD file.2, ?_⟩
  rw [addAll, List.map_append, List.foldl_append]
  rfl

end Project

/-- **A further file that repeats names**, loaded last, changes no run, unless a class of it is among those that the selection
may mean; only then a selection ceases to mean the class that it meant. -/
theorem generate_append_known {files : List (Path × String)} {file : Path × String} {p p' : Project}
    (hfiles : Project.ofFiles files = .ok p) (hfiles' : Project.ofFiles (files ++ [file]) = .ok p')
    (hknown : p'.qualifiedNames ⊆ p.qualifiedNames) (o : Options) :
    (¬p.Intrudes p' (trim o.selection) → ∀ onDisk,
      (generate onDisk p' o).map Generation.preview = (generate onDisk p o).map Generation.preview) ∧
    ∀ c < p.classes.size, p'.selected o.selection = .ok c ↔
      p.selected o.selection = .ok c ∧ ¬p.Intrudes p' (trim o.selection) := by
  obtain ⟨hp, unit, rfl⟩ := Project.ofFiles_append hfiles hfiles'
  refine ⟨fun hintrudes onDisk => ?_, fun c hc => Project.selected_add_iff hp hknown hc⟩
  have hselected := Project.selected_add hp hknown hintrudes
  cases hc : p.selected o.selection with
  | error e => rw [generate_of_unselected onDisk hc, generate_of_unselected onDisk (hselected.trans hc)]
  | ok c =>
    have hlt : c < p.classes.size := Project.lt_of_selected hp hc
    refine generate_renumber onDisk (Project.renumberedFiles_add hp hknown) hc ?_
    rw [hselected, hc, moveUp_of_lt hlt]

/-- A class with a class inside it, in a file that uses them. -/
def shelfFiles : List (Path × String) :=
  [(⟨"a/Shelf.kt"⟩, "package a\ndata class Shelf(val books: List<Book>) \x7b enum class Book \x7b X, Y \x7d \x7d")]

/-- Another file that declares both names. -/
def repeatedShelf : Path × String := (⟨"b/Shelf.kt"⟩, "package a\nclass Shelf(val n: Int) \x7b object Book \x7d")

theorem generate_append_known_repeatedShelf :
    ∃ p p', Project.ofFiles shelfFiles = .ok p ∧ Project.ofFiles (shelfFiles ++ [repeatedShelf]) = .ok p' ∧
      p'.qualifiedNames = ["a.Shelf", "a.Shelf.Book", "a.Shelf", "a.Shelf.Book"] ∧ p'.qualifiedNames ⊆ p.qualifiedNames ∧
      ¬p.Intrudes p' (trim "a.Shelf") ∧ p.Intrudes p' (trim "Shelf.Book") ∧
      (∃ g, generate (fun _ => false) p (Options.ofClass "a.Shelf") = .ok g) ∧
      ∀ selection, (¬p.Intrudes p' (trim selection) → ∀ onDisk,
          (generate onDisk p' (Options.ofClass selection)).map Generation.preview =
            (generate onDisk p (Options.ofClass selection)).map Generation.preview) ∧
        ∀ c < p.classes.size, p'.selected selection = .ok c ↔
          p.selected selection = .ok c ∧ ¬p.Intrudes p' (trim selection) := by
  have hload : ((Project.ofFiles shelfFiles).toOption.bind fun p =>
      (Project.ofFiles (shelfFiles ++ [repeatedShelf])).toOption.map fun p' =>
        (p.qualifiedNames, p'.qualifiedNames, decide (p.Intrudes p' (trim "a.Shelf")),
          decide (p.Intrudes p' (trim "Shelf.Book")),
          (generate (fun _ => false) p (Options.ofClass "a.Shelf")).toOption.isSome)) =
      some (["a.Shelf", "a.Shelf.Book"], ["a.Shelf", "a.Shelf.Book", "a.Shelf", "a.Shelf.Book"], false, true, true) := by
    decide +kernel
  obtain ⟨p, hp, hload⟩ := Option.bind_eq_some_iff.mp hload
  obtain ⟨p', hp', hload⟩ := Option.map_eq_some_iff.mp hload
  simp only [Prod.mk.injEq, decide_eq_false_iff_not, decide_eq_true_eq] at hload
  obtain ⟨hnames, hnames', hclear, hintrudes, hrun⟩ := hload
  obtain ⟨g, hg⟩ := Option.isSome_iff_exists.mp hrun
  have hp := ok_of_toOption hp
  have hp' := ok_of_toOption hp'
  have hknown : p'.qualifiedNames ⊆ p.qualifiedNames := by rw [hnames, hnames']; decide
  exact ⟨p, p', hp, hp', hnames', hknown, hclear, hintrudes, ⟨g, ok_of_toOption hg⟩, fun selection =>
    generate_append_known hp hp' hknown (Options.ofClass selection)⟩

/-- A class that a further file declares again is ambiguous between itself and its copy when it is selected by its name. -/
theorem repeated_not_inert :
    ∃ p p', Project.ofFiles [(⟨"a/X.kt"⟩, "package a\ndata class X(val n: Int)")] = .ok p ∧
      Project.ofFiles [(⟨"a/X.kt"⟩, "package a\ndata class X(val n: Int)"),
        (⟨"b/X.kt"⟩, "package a\ndata class X(val n: Int)")] = .ok p' ∧
      p'.qualifiedNames ⊆ p.qualifiedNames ∧ (∃ g, generate (fun _ => false) p (Options.ofClass "X") = .ok g) ∧
      generate (fun _ => false) p' (Options.ofClass "X") = .error (.ambiguousClass "X" ["a.X", "a.X"]) := by
  have hload : ((Project.ofFiles [(⟨"a/X.kt"⟩, "package a\ndata class X(val n: Int)")]).toOption.map fun p =>
        (p.qualifiedNames, (generate (fun _ => false) p (Options.ofClass "X")).toOption.isSome)) = some (["a.X"], true) ∧
      ((Project.ofFiles [(⟨"a/X.kt"⟩, "package a\ndata class X(val n: Int)"),
        (⟨"b/X.kt"⟩, "package a\ndata class X(val n: Int)")]).toOption.map fun p' =>
          (p'.qualifiedNames, p'.selected "X")) = some (["a.X", "a.X"], .error (.ambiguousClass "X" ["a.X", "a.X"])) := by
    decide +kernel
  obtain ⟨p, hp, hload₁⟩ := Option.map_eq_some_iff.mp hload.1
  obtain ⟨p', hp', hload₂⟩ := Option.map_eq_some_iff.mp hload.2
  obtain ⟨hnames, hrun⟩ := Prod.mk.inj hload₁
  obtain ⟨hnames', hselected⟩ := Prod.mk.inj hload₂
  obtain ⟨g, hg⟩ := Option.isSome_iff_exists.mp hrun
  refine ⟨p, p', ok_of_toOption hp, ok_of_toOption hp', ?_, ⟨g, ok_of_toOption hg⟩, generate_of_unselected _ hselected⟩
  rw [hnames, hnames']
  decide

end Counterpart
