/-
Files registered one after the other. Whatever the sources, registering them succeeds once they are read; the links are
consistent, they say what the project says, and the numbers of the classes of a file follow the source
(`Links.ofSources_linked`).
-/
import Counterpart.Proofs.CheckedSources
import Counterpart.Proofs.Links
import Counterpart.Proofs.LoadOrder

namespace Counterpart

open Kotlin Text

namespace Links

/-- Reads a source and registers what it declares. -/
def addSource (l : Links) (source : String) : Option Links := do
  l.addUnit (← (SourceUnit.ofSource source).toOption)

/-- The links of sources, registered in turn. -/
def ofSources (sources : List String) : Option Links := sources.foldlM addSource empty

/-- Of two classes in a file the one with the smaller number stands first. -/
def InSourceOrder (l : Links) : Prop :=
  ∀ (c d : Nat) first second, l.classes[c]? = some first → l.classes[d]? = some second → first.file = second.file → c < d →
    first.offset < second.offset

end Links

/-! ## The order of the source -/

namespace ClassDecl

mutual

theorem offset_ofTree (file : FileId) (enclosing : List ClassId) (next : ClassId) :
    ∀ t : ClassTree, (ofTree file enclosing next t).map (·.offset) = t.withNested.map (·.offset)
  | ⟨_, _, _, _, _, nested, offset⟩ => by
    rw [ofTree, ClassTree.withNested, List.map_cons, List.map_cons, offset_ofTrees file (next :: enclosing) (next + 1) nested]

theorem offset_ofTrees (file : FileId) (enclosing : List ClassId) (next : ClassId) :
    ∀ ts : List ClassTree, (ofTrees file enclosing next ts).map (·.offset) = (ClassTree.withNestedAll ts).map (·.offset)
  | [] => rfl
  | t :: ts => by
    rw [ofTrees, ClassTree.withNestedAll, List.map_append, List.map_append, offset_ofTree file enclosing next t, offset_ofTrees]

end

end ClassDecl

/-- Of two classes in a file the one with the smaller number stands first. -/
def Project.InSourceOrder (p : Project) : Prop :=
  ∀ c d : Nat, c < d → d < p.classes.size → (p.decl c).file = (p.decl d).file → (p.decl c).offset < (p.decl d).offset

theorem Project.InSourceOrder.add {p : Project} (h : p.InSourceOrder) (hn : p.Numbered) (path : Path) {unit : SourceUnit}
    (hunit : (ClassTree.withNestedAll unit.classes).Pairwise fun c d => c.offset < d.offset) :
    (p.add path unit).InSourceOrder := by
  intro c d hlt hd hfile
  by_cases hold : d < p.classes.size
  · rw [decl_add_of_lt hold, decl_add_of_lt (Nat.lt_trans hlt hold)] at hfile ⊢
    exact h c d hlt hold hfile
  obtain ⟨j, rfl⟩ := Nat.exists_eq_add_of_le (Nat.le_of_not_lt hold)
  rw [size_classes_add] at hd
  have hj : j < (p.added unit).length := Nat.lt_of_add_lt_add_left hd
  have hadded : ∀ i (hi : i < (p.added unit).length), (p.add path unit).decl (p.classes.size + i) = (p.added unit)[i] := by
    intro i hi
    rw [decl_add_added, List.getD_eq_getElem?_getD, List.getElem?_eq_getElem hi, Option.getD_some]
  by_cases hold : c < p.classes.size
  · -- the new classes are in a file of their own
    have hnew := (ClassDecl.numbered_ofTrees p.files.size [] p.classes.size unit.classes j _ (List.getElem?_eq_getElem hj)).2.1
    have hlt := (hn c hold).file
    rw [decl_add_of_lt hold, hadded j hj] at hfile
    exact absurd (hfile.trans hnew) (Nat.ne_of_lt hlt)
  · obtain ⟨i, rfl⟩ := Nat.exists_eq_add_of_le (Nat.le_of_not_lt hold)
    have hij : i < j := by omega
    have hoffsets : ((p.added unit).map (·.offset)).Pairwise (· < ·) := by
      rw [added, ClassDecl.offset_ofTrees]
      exact List.pairwise_map.mpr hunit
    rw [hadded i (Nat.lt_trans hij hj), hadded j hj]
    exact List.pairwise_iff_getElem.mp (List.pairwise_map.mp hoffsets) i j _ hj hij

namespace Links

theorem InStep.inSourceOrder {l : Links} {p : Project} (h : l.InStep p) (ho : p.InSourceOrder) : l.InSourceOrder := by
  intro c d first second hfirst hsecond hfile hlt
  obtain ⟨-, rfl⟩ := h.entry_iff.mp hfirst
  obtain ⟨hd, rfl⟩ := h.entry_iff.mp hsecond
  exact ho c d hlt hd hfile

/-- **Registering sources** that can be read succeeds, and keeps the links in step with the project. -/
theorem InStep.addSources {files : List (Path × String)} {l : Links} {p p' : Project} (h : l.InStep p) (ho : p.InSourceOrder)
    (hfiles : files.foldlM Project.addFile p = .ok p') :
    ∃ l', (files.map (·.2)).foldlM addSource l = some l' ∧ l'.InStep p' ∧ p'.InSourceOrder := by
  induction files generalizing l p with
  | nil =>
    cases hfiles
    exact ⟨l, rfl, h, ho⟩
  | cons file files ih =>
    obtain ⟨q, hq, hfiles⟩ := exists_of_bind_ok hfiles
    rw [Project.addFile] at hq
    cases hunit : SourceUnit.ofSource file.2 with
    | error e =>
      rw [hunit] at hq
      cases hq
    | ok unit =>
      rw [hunit] at hq
      cases hq
      obtain ⟨added, hadd, hstep⟩ := h.addUnit file.1 unit
      have hsource : l.addSource file.2 = some added := by rw [addSource, hunit]; exact hadd
      have horder := ho.add h.numbered file.1 (SourceUnit.offsets_increasing hunit)
      obtain ⟨l', hl', hresult⟩ := ih hstep horder hfiles
      refine ⟨l', ?_, hresult⟩
      rw [List.map_cons, List.foldlM_cons, hsource]
      exact hl'

theorem InStep.empty : Links.empty.InStep Project.empty where
  mirrors := ⟨Nat.le_refl _, rfl, rfl, fun _ => Std.HashMap.getElem?_empty⟩
  numbered c hc := absurd hc (Nat.not_lt_zero c)

/-- **Links of loaded files**: once the files are read, registering them succeeds. Parents, lists, names and the index agree, the
classes of a file are numbered in the order of its source, and a name read off the links is that of the project. -/
theorem ofSources_linked {files : List (Path × String)} {p : Project} (h : Project.ofFiles files = .ok p) :
    ∃ l, ofSources (files.map (·.2)) = some l ∧ l.Consistent ∧ l.InSourceOrder ∧ l.Mirrors p p.classes.size ∧
      ∀ c < p.classes.size, l.nestedPath? c = some (p.nestedPath c) ∧ l.qualifiedName? c = some (p.qualifiedName c) ∧
        l.outermost? c = some (p.decl c).outermost := by
  obtain ⟨l, hl, hstep, horder⟩ := InStep.empty.addSources (fun _ d _ hd => absurd hd (Nat.not_lt_zero d)) h
  refine ⟨l, hl, hstep.consistent, hstep.inSourceOrder horder, hstep.mirrors, fun c hc => ?_⟩
  exact ⟨hstep.mirrors.nestedPath?_eq hstep.numbered hc, hstep.mirrors.qualifiedName?_eq hstep.numbered hc,
    hstep.mirrors.outermost?_eq hstep.numbered hc⟩

/-- Two files with one class more than once, and a class whose name looks like that of a nested one. -/
def namesakeFiles : List (Path × String) :=
  [(⟨"A.kt"⟩, "package a\nclass A \x7b class B \x7b class C \x7d\nclass B \x7d\nobject D"),
    (⟨"B.kt"⟩, "package a\nclass \x60A.B\x60\nclass A")]

theorem ofSources_linked_namesakeFiles : ∃ p, Project.ofFiles namesakeFiles = .ok p ∧
    p.qualifiedNames = ["a.A", "a.A.B", "a.A.B.C", "a.A.B", "a.D", "a.A.B", "a.A"] ∧ p.nested 0 = [1, 3] ∧
    p.topLevel 0 = [0, 4] ∧ p.topLevel 1 = [5, 6] ∧ p.find? "a.A.B" = some 1 ∧
    ∃ l, ofSources (namesakeFiles.map (·.2)) = some l ∧ l.Consistent ∧ l.InSourceOrder ∧ l.Mirrors p p.classes.size ∧
      ∀ c < p.classes.size, l.nestedPath? c = some (p.nestedPath c) ∧ l.qualifiedName? c = some (p.qualifiedName c) ∧
        l.outermost? c = some (p.decl c).outermost := by
  have hfiles : ((Project.ofFiles namesakeFiles).toOption.map fun p =>
      (p.qualifiedNames, p.nested 0, p.topLevel 0, p.topLevel 1, p.find? "a.A.B")) =
      some (["a.A", "a.A.B", "a.A.B.C", "a.A.B", "a.D", "a.A.B", "a.A"], [1, 3], [0, 4], [5, 6], some 1) := by
    decide +kernel
  obtain ⟨p, hp, hresult⟩ := Option.map_eq_some_iff.mp hfiles
  simp only [Prod.mk.injEq] at hresult
  obtain ⟨hnames, hnested, hfirst, hsecond, hfind⟩ := hresult
  have hp := ok_of_toOption hp
  exact ⟨p, hp, hnames, hnested, hfirst, hsecond, hfind, ofSources_linked hp⟩

end Links

end Counterpart
