/-
What the files of a workspace import. An import set has what was put into it (`ImportSet.hasSymbol_add`), so a file imports
the directives that were copied into it and the qualified names that it needed when they were referred to
(`Workspace.imports_addImports`, `Workspace.imports_addReferences`); changes to declarations leave all imports.
-/
import Mathlib.Data.List.Basic
import Counterpart.Proofs.Address

namespace Counterpart.Output

open Kotlin Text

/-! ## Import sets -/

/-- The package and the symbol of a qualified name. -/
def entryOfName (name : String) : String × String := (Name.packageOf name, Name.shortName name)

/-- A file of `package` sees the qualified name only when it imports it. -/
structure NeedsImport (name package : String) : Prop where
  packaged : Name.packageOf name ≠ ""
  elsewhere : Name.packageOf name ≠ package
  notDefault : isDefaultPackage (Name.packageOf name) = false

/-- The directive brings a file of `package` more than a class of the package under its own name. -/
def Brings (i : Import) (package : String) : Prop :=
  i.star = true ∨ i.localAlias ≠ none ∨ Name.packageOf i.path ≠ package

namespace ImportSet

theorem mem_insertSorted {s t : String} {ts : List String} : s ∈ insertSorted t ts ↔ s = t ∨ s ∈ ts := by
  induction ts with
  | nil => simp [insertSorted]
  | cons u us ih =>
    rw [insertSorted]
    split
    · exact List.mem_cons
    split
    next htu => rw [htu, List.mem_cons, or_self_left]
    next => rw [List.mem_cons, List.mem_cons, ih, or_left_comm]

theorem hasSymbol_iff {i : ImportSet} {package symbol : String} :
    i.hasSymbol package symbol = true ↔ ∃ g ∈ i.groups, g.1 = package ∧ symbol ∈ g.2 := by
  simp [hasSymbol]

theorem mem_addToGroups {package symbol a b : String} {groups : List (String × List String)} :
    (∃ g ∈ addToGroups package symbol groups, g.1 = a ∧ b ∈ g.2) ↔
      (a = package ∧ b = symbol) ∨ ∃ g ∈ groups, g.1 = a ∧ b ∈ g.2 := by
  induction groups with
  | nil =>
    simp only [addToGroups, List.mem_singleton, exists_eq_left, List.not_mem_nil, false_and, exists_false, or_false]
    rw [eq_comm]
  | cons g groups ih =>
    obtain ⟨p, symbols⟩ := g
    rw [addToGroups]
    split
    next hp =>
      simp only [List.exists_mem_cons_iff, mem_insertSorted]
      grind
    next hp =>
      simp only [List.exists_mem_cons_iff, ih]
      exact or_left_comm

/-- An import set has what was put into it and what it had before. -/
theorem hasSymbol_add {package symbol a b : String} {i : ImportSet} :
    (i.add package symbol).hasSymbol a b = true ↔ (a, b) = (package, symbol) ∨ i.hasSymbol a b = true := by
  rw [hasSymbol_iff, hasSymbol_iff, add, mem_addToGroups, Prod.mk.injEq]

theorem hasSymbol_addReference {name package a b : String} {i : ImportSet} :
    (i.addReference name package).hasSymbol a b = true ↔
      (NeedsImport name package ∧ (a, b) = entryOfName name) ∨ i.hasSymbol a b = true := by
  rw [addReference]
  split
  next hseen =>
    refine ⟨.inr, fun h => h.resolve_left fun ⟨hneeds, _⟩ => ?_⟩
    obtain ⟨hpackaged, helsewhere, hdefault⟩ := hneeds
    simp [hpackaged, helsewhere, hdefault] at hseen
  next hunseen =>
    have hneeds : NeedsImport name package := by
      simp only [Bool.or_eq_true, not_or, beq_iff_eq, String.isEmpty_iff, Bool.not_eq_true] at hunseen
      exact ⟨hunseen.1.1, hunseen.1.2, hunseen.2⟩
    rw [hasSymbol_add, entryOfName, and_iff_right hneeds]

end ImportSet

/-! ## Files -/

namespace Workspace

/-- The file imports the symbol of the package. -/
def Imports (w : Workspace) (id : OutputId) (e : String × String) : Prop :=
  (w.file id).imports.hasSymbol e.1 e.2 = true

variable {w w' : Workspace} {id q : OutputId} {e : String × String}

theorem imports_updateFile {f : File → File} (hid : id < w.files.size) :
    (w.updateFile id f).Imports q e ↔
      (q = id ∧ (f (w.file id)).imports.hasSymbol e.1 e.2 = true) ∨ (q ≠ id ∧ w.Imports q e) := by
  rw [Imports, file_updateFile]
  by_cases hq : q = id
  · subst hq
    simp [hid]
  · simp [hq, Imports]

theorem imports_updateFile_of_keep {f : File → File} (hf : ∀ file, (f file).imports = file.imports) :
    (w.updateFile id f).Imports q e ↔ w.Imports q e := by
  rw [Imports, file_updateFile]
  split
  · rw [hf, Imports]
  · rfl

theorem imports_updateDeclaration {r : Ref} {f : Declaration → Declaration} (h : w.updateDeclaration r f = .ok w') :
    w'.Imports q e ↔ w.Imports q e := by
  obtain ⟨ds, -, rfl⟩ := updateDeclaration_eq_ok.mp h
  exact imports_updateFile_of_keep fun _ => rfl

theorem imports_addDeclaration {place : Place} {d : Declaration} (h : w.addDeclaration place d = .ok w') :
    w'.Imports q e ↔ w.Imports q e := by
  cases place with
  | topLevel file =>
    cases h
    exact imports_updateFile_of_keep fun _ => rfl
  | inside parent => exact imports_updateDeclaration h

theorem imports_addReference {name : String} (hid : id < w.files.size) :
    (w.addReference id name).Imports q e ↔
      (q = id ∧ NeedsImport name (w.file id).package ∧ e = entryOfName name) ∨ w.Imports q e := by
  rw [addReference, imports_updateFile hid]
  simp only [ImportSet.hasSymbol_addReference]
  by_cases hq : q = id
  · subst hq
    simp [Imports]
  · simp [hq]

theorem imports_addImport {i : Import} (hid : id < w.files.size) :
    (w.addImport id i).Imports q e ↔
      (q = id ∧ Brings i (w.file id).package ∧ e = ImportSet.entryOf i) ∨ w.Imports q e := by
  rw [addImport, imports_updateFile hid]
  have hskip : (!i.star && i.localAlias.isNone && Name.packageOf i.path == (w.file id).package) = true ↔
      ¬ Brings i (w.file id).package := by
    simp only [Brings, Bool.and_eq_true, Bool.not_eq_true', Option.isNone_iff_eq_none, beq_iff_eq, not_or, Bool.not_eq_true,
      ne_eq, not_not, and_assoc]
  by_cases hq : q = id
  · subst hq
    by_cases hb : Brings i (w.file q).package
    · have := mt hskip.mp (not_not.mpr hb)
      simp only [this, Bool.false_eq_true, if_false, ImportSet.addImport, ImportSet.hasSymbol_add]
      simp [hb, Imports, Prod.ext_iff]
    · simp only [hskip.mpr hb, if_true]
      simp [hb, Imports]
  · simp [hq]

/-- Names that a file refers to are imported into it when it needs that. -/
theorem imports_addReferences {names : List String} (hid : id < w.files.size) :
    (w.addReferences id names).Imports q e ↔
      (q = id ∧ ∃ name ∈ names, NeedsImport name (w.file id).package ∧ e = entryOfName name) ∨ w.Imports q e := by
  rw [addReferences]
  induction names generalizing w with
  | nil => simp
  | cons name names ih =>
    have hsame := SameDeclarations.addReference w id name
    rw [List.foldl_cons, ih (hsame.size.symm ▸ hid), hsame.package, imports_addReference hid, List.exists_mem_cons_iff,
      and_or_left, or_left_comm, or_assoc]

/-- Directives that are copied into a file are imported into it when they bring it something. -/
theorem imports_addImports {is : List Import} (hid : id < w.files.size) :
    (is.foldl (fun w i => w.addImport id i) w).Imports q e ↔
      (q = id ∧ ∃ i ∈ is, Brings i (w.file id).package ∧ e = ImportSet.entryOf i) ∨ w.Imports q e := by
  induction is generalizing w with
  | nil => simp
  | cons i is ih =>
    have hsame := SameDeclarations.addImport w id i
    rw [List.foldl_cons, ih (hsame.size.symm ▸ hid), hsame.package, imports_addImport hid, List.exists_mem_cons_iff,
      and_or_left, or_left_comm, or_assoc]

end Workspace

end Counterpart.Output
