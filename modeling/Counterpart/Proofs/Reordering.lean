/-
Projects whose files are loaded in another order. Loading two files the other way round exchanges their numbers and those of
their classes (`Reordered.swap`); whatever is loaded before and after keeps its own (`Reordered.add`). So every order of the
files gives the same project but for the numbers (`Reordered.of_perm`).
-/
import Mathlib.Data.List.Perm.Basic
import Mathlib.Logic.Equiv.Basic
import Counterpart.Proofs.Loading

namespace Counterpart

open Kotlin

/-! ## Numbers -/

namespace ClassDecl

/-- The classes of one file are numbered from `next`. The classes around one of them are those around all, or one that comes
before it and the classes around that one. -/
def Numbered (file : FileId) (enclosing : List ClassId) (next : Nat) (cs : List ClassDecl) : Prop :=
  ∀ (i : Nat) (c : ClassDecl), cs[i]? = some c → c.id = next + i ∧ c.file = file ∧
    (c.enclosing = enclosing ∨ ∃ (j : Nat) (d : ClassDecl), j < i ∧ cs[j]? = some d ∧ c.enclosing = (next + j) :: d.enclosing)

theorem Numbered.cons {file : FileId} {enclosing : List ClassId} {next : Nat} {c : ClassDecl} {cs : List ClassDecl}
    (hid : c.id = next) (hfile : c.file = file) (henclosing : c.enclosing = enclosing)
    (h : Numbered file (next :: enclosing) (next + 1) cs) : Numbered file enclosing next (c :: cs) := by
  intro i d hd
  cases i with
  | zero =>
    cases hd
    exact ⟨hid, hfile, .inl henclosing⟩
  | succ i =>
    obtain ⟨hid', hfile', henclosing' | ⟨j, e, hj, he, henclosing'⟩⟩ := h i d hd
    · exact ⟨hid'.trans (Nat.succ_add_eq_add_succ next i), hfile', .inr ⟨0, c, Nat.succ_pos i, rfl, henclosing ▸ henclosing'⟩⟩
    · refine ⟨hid'.trans (Nat.succ_add_eq_add_succ next i), hfile', .inr ⟨j + 1, e, Nat.succ_lt_succ hj, he, ?_⟩⟩
      rw [henclosing', Nat.succ_add_eq_add_succ next j]

theorem Numbered.append {file : FileId} {enclosing : List ClassId} {next : Nat} {cs ds : List ClassDecl}
    (hc : Numbered file enclosing next cs) (hd : Numbered file enclosing (next + cs.length) ds) :
    Numbered file enclosing next (cs ++ ds) := by
  intro i c h
  rw [List.getElem?_append] at h
  split at h
  next hi =>
    obtain ⟨hid, hfile, henclosing | ⟨j, d, hj, hd, henclosing⟩⟩ := hc i c h
    · exact ⟨hid, hfile, .inl henclosing⟩
    · exact ⟨hid, hfile, .inr ⟨j, d, hj, by rw [List.getElem?_append_left (by omega)]; exact hd, henclosing⟩⟩
  next hi =>
    have hshift : next + cs.length + (i - cs.length) = next + i := by omega
    obtain ⟨hid, hfile, henclosing | ⟨j, d, hj, hd, henclosing⟩⟩ := hd _ c h
    · exact ⟨hid.trans hshift, hfile, .inl henclosing⟩
    · refine ⟨hid.trans hshift, hfile, .inr ⟨cs.length + j, d, by omega, ?_, ?_⟩⟩
      · rw [List.getElem?_append_right (by omega), Nat.add_sub_cancel_left]
        exact hd
      · rw [henclosing, Nat.add_assoc]

mutual

theorem numbered_ofTree (file : FileId) (enclosing : List ClassId) (next : Nat) :
    ∀ t : ClassTree, Numbered file enclosing next (ofTree file enclosing next t)
  | ⟨_, _, _, _, _, nested, _⟩ => .cons rfl rfl rfl (numbered_ofTrees file (next :: enclosing) (next + 1) nested)

theorem numbered_ofTrees (file : FileId) (enclosing : List ClassId) (next : Nat) :
    ∀ ts : List ClassTree, Numbered file enclosing next (ofTrees file enclosing next ts)
  | [] => nofun
  | t :: ts => (numbered_ofTree file enclosing next t).append (numbered_ofTrees file enclosing _ ts)

end

end ClassDecl

namespace Project

/-- A class has its number, its file is there, and the classes around it are one that comes before it, in the same file, and
the classes around that one. -/
structure WellNumbered (p : Project) (c : Nat) : Prop where
  id : (p.decl c).id = c
  file : (p.decl c).file < p.files.size
  enclosing : (p.decl c).enclosing = [] ∨
    ∃ e : Nat, e < c ∧ (p.decl c).enclosing = e :: (p.decl e).enclosing ∧ (p.decl e).file = (p.decl c).file

theorem size_classes_add (p : Project) (path : Path) (unit : SourceUnit) :
    (p.add path unit).classes.size =
      p.classes.size + (ClassDecl.ofTrees p.files.size [] p.classes.size unit.classes).length := by
  simp [add]

theorem size_files_add (p : Project) (path : Path) (unit : SourceUnit) : (p.add path unit).files.size = p.files.size + 1 := by
  simp [add]

/-- The new classes of a project with one more file. -/
def added (p : Project) (unit : SourceUnit) : List ClassDecl :=
  ClassDecl.ofTrees p.files.size [] p.classes.size unit.classes

theorem decl_add_of_lt {p : Project} {path : Path} {unit : SourceUnit} {c : Nat} (h : c < p.classes.size) :
    (p.add path unit).decl c = p.decl c := by
  rw [decl_add, if_pos h]

theorem decl_add_added (p : Project) (path : Path) (unit : SourceUnit) (i : Nat) :
    (p.add path unit).decl (p.classes.size + i) = (p.added unit).getD i default := by
  rw [decl_add, if_neg (Nat.not_lt.mpr (Nat.le_add_right _ _)), Nat.add_sub_cancel_left, added]

theorem decl_of_size_le {p : Project} {c : ClassId} (h : p.classes.size ≤ c) : p.decl c = default := by
  simp [decl, Array.getD, Nat.not_lt.mpr h]

theorem file_of_size_le {p : Project} {i : FileId} (h : p.files.size ≤ i) : p.file i = default := by
  simp [file, Array.getD, Nat.not_lt.mpr h]

theorem Loaded.wellNumbered {p : Project} (h : p.Loaded) {c : Nat} (hc : c < p.classes.size) : p.WellNumbered c := by
  induction h generalizing c with
  | empty => exact absurd hc (Nat.not_lt_zero c)
  | @add p hp path unit ih =>
    by_cases hold : c < p.classes.size
    · obtain ⟨hid, hfile, henclosing⟩ := ih hold
      have hdecl : (p.add path unit).decl c = p.decl c := decl_add_of_lt hold
      refine ⟨hdecl ▸ hid, ?_, ?_⟩
      · rw [hdecl, size_files_add]
        exact Nat.lt_succ_of_lt hfile
      · rw [hdecl]
        refine henclosing.imp_right fun ⟨e, he, henclosing, hfile⟩ => ?_
        have hdecl' : (p.add path unit).decl e = p.decl e := decl_add_of_lt (Nat.lt_trans he hold)
        exact ⟨e, he, hdecl' ▸ henclosing, hdecl' ▸ hfile⟩
    · rw [size_classes_add] at hc
      have hnew : ∀ i d, (ClassDecl.ofTrees p.files.size [] p.classes.size unit.classes)[i]? = some d →
          (p.add path unit).decl (p.classes.size + i) = d := by
        intro i d hd
        rw [decl_add_added, added, List.getD_eq_getElem?_getD, hd, Option.getD_some]
      obtain ⟨i, rfl⟩ := Nat.exists_eq_add_of_le (Nat.le_of_not_lt hold)
      have hi := List.getElem?_eq_getElem (Nat.lt_of_add_lt_add_left hc)
      obtain ⟨hid, hfile, henclosing⟩ := ClassDecl.numbered_ofTrees p.files.size [] p.classes.size unit.classes i _ hi
      refine ⟨hnew i _ hi ▸ hid, ?_, ?_⟩
      · rw [hnew i _ hi, hfile, size_files_add]
        exact Nat.lt_succ_self _
      · rw [hnew i _ hi]
        refine henclosing.imp_right fun ⟨j, d, hj, hd, henclosing⟩ => ⟨p.classes.size + j, by omega, ?_, ?_⟩
        · rw [hnew j d hd]
          exact henclosing
        · rw [hnew j d hd, hfile]
          exact (ClassDecl.numbered_ofTrees p.files.size [] p.classes.size unit.classes j d hd).2.1

/-- The classes of a project are numbered well. -/
def Numbered (p : Project) : Prop := ∀ c < p.classes.size, p.WellNumbered c

theorem Loaded.numbered {p : Project} (h : p.Loaded) : p.Numbered := fun _ hc => h.wellNumbered hc

/-- The classes around a class come before it. -/
theorem Numbered.lt_of_mem_enclosing {p : Project} (h : p.Numbered) {c : Nat} (hc : c < p.classes.size) {e : Nat}
    (he : e ∈ (p.decl c).enclosing) : e < c := by
  induction c using Nat.strongRecOn generalizing e with
  | ind c ih =>
    obtain henclosing | ⟨d, hd, henclosing, -⟩ := (h c hc).enclosing
    · rw [henclosing] at he
      cases he
    · rw [henclosing] at he
      rcases List.mem_cons.mp he with rfl | he
      · exact hd
      · exact Nat.lt_trans (ih d hd (Nat.lt_trans hd hc) he) hd

theorem Loaded.lt_of_mem_enclosing {p : Project} (h : p.Loaded) {c : Nat} (hc : c < p.classes.size) {e : Nat}
    (he : e ∈ (p.decl c).enclosing) : e < c :=
  h.numbered.lt_of_mem_enclosing hc he

/-- The outermost class around a class, or the class itself, is one of the project. -/
theorem Loaded.outermost_lt {p : Project} (h : p.Loaded) {c : Nat} (hc : c < p.classes.size) :
    (p.decl c).outermost < p.classes.size := by
  rw [ClassDecl.outermost, List.getLastD_eq_getLast?]
  cases hlast : (p.decl c).enclosing.getLast? with
  | none => exact (h.wellNumbered hc).id.symm ▸ hc
  | some e => exact Nat.lt_trans (h.lt_of_mem_enclosing hc (List.mem_of_getLast? hlast)) hc

end Project

/-! ## Other numbers -/

namespace ClassDecl

/-- The class with other numbers for classes and files. -/
def renumber (φ ψ : Nat → Nat) (d : ClassDecl) : ClassDecl :=
  { d with id := φ d.id, file := ψ d.file, enclosing := d.enclosing.map φ }

variable {φ ψ : Nat → Nat}

mutual

theorem length_ofTree (file file' : FileId) (enclosing enclosing' : List ClassId) (next next' : ClassId) :
    ∀ t : ClassTree, (ofTree file enclosing next t).length = (ofTree file' enclosing' next' t).length
  | ⟨_, _, _, _, _, nested, _⟩ => by rw [ofTree, ofTree, List.length_cons, List.length_cons, length_ofTrees _ _ _ _ _ _ nested]

theorem length_ofTrees (file file' : FileId) (enclosing enclosing' : List ClassId) (next next' : ClassId) :
    ∀ ts : List ClassTree, (ofTrees file enclosing next ts).length = (ofTrees file' enclosing' next' ts).length
  | [] => rfl
  | t :: ts => by
    rw [ofTrees, ofTrees, List.length_append, List.length_append, length_ofTree _ _ _ _ _ _ t, length_ofTrees _ _ _ _ _ _ ts]

end

mutual

/-- Classes numbered from elsewhere are the same but for the numbers. -/
theorem ofTree_renumber (file : FileId) (enclosing : List ClassId) (next next' : Nat) :
    ∀ t : ClassTree, (∀ i < (ofTree file enclosing next t).length, φ (next + i) = next' + i) →
      ofTree (ψ file) (enclosing.map φ) next' t = (ofTree file enclosing next t).map (renumber φ ψ)
  | ⟨name, kind, typeParams, fields, entries, nested, offset⟩, h => by
    rw [ofTree, List.length_cons] at h
    have hfirst : φ next = next' := h 0 (Nat.succ_pos _)
    rw [ofTree, ofTree, List.map_cons, renumber, hfirst, ← ofTrees_renumber file (next :: enclosing) (next + 1) (next' + 1) nested,
      List.map_cons, hfirst]
    intro i hi
    rw [Nat.succ_add_eq_add_succ, Nat.succ_add_eq_add_succ]
    exact h (i + 1) (Nat.succ_lt_succ hi)

theorem ofTrees_renumber (file : FileId) (enclosing : List ClassId) (next next' : Nat) :
    ∀ ts : List ClassTree, (∀ i < (ofTrees file enclosing next ts).length, φ (next + i) = next' + i) →
      ofTrees (ψ file) (enclosing.map φ) next' ts = (ofTrees file enclosing next ts).map (renumber φ ψ)
  | [], _ => rfl
  | t :: ts, h => by
    rw [ofTrees, List.length_append] at h
    rw [ofTrees, ofTrees, List.map_append, ofTree_renumber file enclosing next next' t fun i hi => h i (Nat.lt_add_right _ hi),
      List.length_map, ofTrees_renumber file enclosing (next + (ofTree file enclosing next t).length) _ ts]
    intro i hi
    rw [Nat.add_assoc, Nat.add_assoc]
    exact h _ (Nat.add_lt_add_left hi _)

end

end ClassDecl

namespace Project

/-- The projects are the same but for the order of their files: `φ` gives the numbers of the classes of `p` in `p'`, and `ψ`
those of the files. -/
structure Reordered (φ ψ : Equiv.Perm Nat) (p p' : Project) : Prop where
  classes : p'.classes.size = p.classes.size
  files : p'.files.size = p.files.size
  fixed : ∀ c, p.classes.size ≤ c → φ c = c
  fixedFile : ∀ i, p.files.size ≤ i → ψ i = i
  decl : ∀ c < p.classes.size, p'.decl (φ c) = (p.decl c).renumber φ ψ
  file : ∀ i, (p'.file (ψ i)).path = (p.file i).path ∧ (p'.file (ψ i)).package = (p.file i).package ∧
    (p'.file (ψ i)).imports = (p.file i).imports

theorem file_add (p : Project) (path : Path) (unit : SourceUnit) (i : FileId) :
    (p.add path unit).file i = if i = p.files.size then ⟨i, path, unit.package, unit.imports⟩ else p.file i := by
  simp only [file, add, Array.getD_eq_getD_getElem?, Array.getElem?_push]
  by_cases h : i = p.files.size <;> simp [h]

namespace Reordered

variable {φ ψ : Equiv.Perm Nat} {p p' : Project}

theorem lt_iff (h : Reordered φ ψ p p') (c : Nat) : φ c < p.classes.size ↔ c < p.classes.size := by
  refine ⟨fun hc => Nat.lt_of_not_le fun hle => ?_, fun hc => Nat.lt_of_not_le fun hle => ?_⟩
  · rw [h.fixed c hle] at hc
    exact Nat.not_lt.mpr hle hc
  · have := φ.injective (h.fixed (φ c) hle)
    rw [this] at hle
    exact Nat.not_lt.mpr hle hc

theorem refl (p : Project) : Reordered (.refl Nat) (.refl Nat) p p where
  classes := rfl
  files := rfl
  fixed _ _ := rfl
  fixedFile _ _ := rfl
  decl c _ := by simp [ClassDecl.renumber]
  file _ := ⟨rfl, rfl, rfl⟩

theorem trans {φ' ψ' : Equiv.Perm Nat} {p'' : Project} (h : Reordered φ ψ p p') (h' : Reordered φ' ψ' p' p'') :
    Reordered (φ.trans φ') (ψ.trans ψ') p p'' where
  classes := h'.classes.trans h.classes
  files := h'.files.trans h.files
  fixed c hc := by rw [Equiv.trans_apply, h.fixed c hc, h'.fixed c (h.classes ▸ hc)]
  fixedFile i hi := by rw [Equiv.trans_apply, h.fixedFile i hi, h'.fixedFile i (h.files ▸ hi)]
  decl c hc := by
    rw [Equiv.trans_apply, h'.decl (φ c) (h.classes ▸ (h.lt_iff c).mpr hc), h.decl c hc]
    simp [ClassDecl.renumber]
  file i := by
    obtain ⟨hpath, hpackage, himports⟩ := h.file i
    obtain ⟨hpath', hpackage', himports'⟩ := h'.file (ψ i)
    exact ⟨hpath'.trans hpath, hpackage'.trans hpackage, himports'.trans himports⟩

/-- One more file, loaded last, keeps its numbers. -/
theorem add (h : Reordered φ ψ p p') (path : Path) (unit : SourceUnit) :
    Reordered φ ψ (p.add path unit) (p'.add path unit) where
  classes := by rw [size_classes_add, size_classes_add, h.classes, h.files]
  files := by rw [size_files_add, size_files_add, h.files]
  fixed c hc := h.fixed c (Nat.le_trans (by rw [size_classes_add]; exact Nat.le_add_right _ _) hc)
  fixedFile i hi := h.fixedFile i (Nat.le_trans (by rw [size_files_add]; exact Nat.le_succ _) hi)
  decl c hc := by
    by_cases hold : c < p.classes.size
    · have hold' : φ c < p'.classes.size := h.classes ▸ (h.lt_iff c).mpr hold
      rw [decl_add_of_lt hold, decl_add_of_lt hold', h.decl c hold]
    · obtain ⟨i, rfl⟩ := Nat.exists_eq_add_of_le (Nat.le_of_not_lt hold)
      -- the new classes refer to new numbers alone, and these are kept
      have hkept : p.added unit = (p.added unit).map (ClassDecl.renumber φ ψ) := by
        have := ClassDecl.ofTrees_renumber (φ := φ) (ψ := ψ) p.files.size [] p.classes.size p.classes.size unit.classes
          fun i _ => h.fixed _ (Nat.le_add_right _ _)
        rwa [h.fixedFile _ (Nat.le_refl _)] at this
      have hi : i < (p.added unit).length := by
        rw [size_classes_add] at hc
        exact Nat.lt_of_add_lt_add_left hc
      have hsame : p'.added unit = p.added unit := by rw [added, added, h.classes, h.files]
      rw [h.fixed _ (Nat.le_add_right _ _), decl_add_added, ← h.classes, decl_add_added, hsame, List.getD_eq_getElem?_getD,
        List.getElem?_eq_getElem hi, Option.getD_some]
      conv_lhs => rw [List.getElem_of_eq hkept hi, List.getElem_map]
  file i := by
    rw [file_add, file_add, h.files]
    by_cases hi : i = p.files.size
    · subst hi
      rw [h.fixedFile _ (Nat.le_refl _), if_pos rfl, if_pos rfl]
      exact ⟨rfl, rfl, rfl⟩
    · have hi' : ψ i ≠ p.files.size := fun heq => hi (ψ.injective (heq.trans (h.fixedFile _ (Nat.le_refl _)).symm))
      rw [if_neg hi, if_neg hi']
      exact h.file i

end Reordered

/-! ## Two files the other way round -/

/-- The number of a class when the blocks of `k` and `l` numbers from `n` on are exchanged. -/
def exchange (n k l c : Nat) : Nat :=
  if c < n then c else if c < n + k then c + l else if c < n + k + l then c - k else c

theorem exchange_exchange (n k l c : Nat) : exchange n l k (exchange n k l c) = c := by
  unfold exchange
  split_ifs <;> omega

/-- Exchanging blocks of numbers. -/
def exchanging (n k l : Nat) : Equiv.Perm Nat where
  toFun := exchange n k l
  invFun := exchange n l k
  left_inv := exchange_exchange n k l
  right_inv := exchange_exchange n l k

theorem exchanging_of_lt {n k l c : Nat} (h : c < n) : exchanging n k l c = c := if_pos h

theorem exchanging_first {n k l i : Nat} (h : i < k) : exchanging n k l (n + i) = n + l + i := by
  simp only [exchanging, Equiv.coe_fn_mk, exchange]
  split_ifs <;> omega

theorem exchanging_second {n k l i : Nat} (h : i < l) : exchanging n k l (n + k + i) = n + i := by
  simp only [exchanging, Equiv.coe_fn_mk, exchange]
  split_ifs <;> omega

theorem exchanging_of_le {n k l c : Nat} (h : n + k + l ≤ c) : exchanging n k l c = c := by
  simp only [exchanging, Equiv.coe_fn_mk, exchange]
  split_ifs <;> omega

/-- A class that refers to smaller numbers alone is the same when these are kept. -/
theorem Loaded.renumber_eq {p : Project} (h : p.Loaded) {φ ψ : Nat → Nat} {c : Nat} (hc : c < p.classes.size)
    (hφ : ∀ d < p.classes.size, φ d = d) (hψ : ∀ i < p.files.size, ψ i = i) : (p.decl c).renumber φ ψ = p.decl c := by
  obtain ⟨hid, hfile, -⟩ := h.wellNumbered hc
  have henclosing : (p.decl c).enclosing.map φ = (p.decl c).enclosing := by
    conv_rhs => rw [← List.map_id (p.decl c).enclosing]
    exact List.map_congr_left fun e he => hφ e (Nat.lt_trans (h.lt_of_mem_enclosing hc he) hc)
  have hkeep : φ (p.decl c).id = (p.decl c).id := hφ _ (hid.symm ▸ hc)
  rw [ClassDecl.renumber, hψ _ hfile, henclosing, hkeep]

theorem getD_of_map {α β : Type} {f : α → β} {as : List α} {bs : List β} (h : bs = as.map f) {i : Nat}
    (hi : i < as.length) (a : α) (b : β) : bs.getD i b = f (as.getD i a) := by
  subst h
  simp [List.getD_eq_getElem?_getD, List.getElem?_eq_getElem hi]

section

variable (p : Project) (path path' : Path) (unit unit' : SourceUnit)

/-- The numbers of the classes of two files that are loaded the other way round. -/
def exchangedClasses : Equiv.Perm Nat := exchanging p.classes.size (p.added unit).length (p.added unit').length

/-- The numbers of the two files. -/
def exchangedFiles : Equiv.Perm Nat := Equiv.swap p.files.size (p.files.size + 1)

theorem size_classes_add_add : ((p.add path unit).add path' unit').classes.size =
    p.classes.size + (p.added unit).length + (p.added unit').length := by
  rw [size_classes_add, size_classes_add]
  simp only [added, ClassDecl.length_ofTrees _ 0 _ [] _ 0]

/-- The classes of the first file, numbered behind those of the second one. -/
theorem added_behind : (p.add path' unit').added unit =
    (p.added unit).map (ClassDecl.renumber (p.exchangedClasses unit unit') p.exchangedFiles) := by
  have hshift := ClassDecl.ofTrees_renumber (φ := p.exchangedClasses unit unit') (ψ := p.exchangedFiles) p.files.size []
    p.classes.size (p.classes.size + (p.added unit').length) unit.classes fun i hi => exchanging_first hi
  have hfile : p.exchangedFiles p.files.size = p.files.size + 1 := Equiv.swap_apply_left ..
  rw [hfile] at hshift
  rw [added, size_files_add, size_classes_add]
  exact hshift

/-- The classes of the second file, numbered in front of those of the first one. -/
theorem added_ahead : p.added unit' =
    ((p.add path unit).added unit').map (ClassDecl.renumber (p.exchangedClasses unit unit') p.exchangedFiles) := by
  have hshift := ClassDecl.ofTrees_renumber (φ := p.exchangedClasses unit unit') (ψ := p.exchangedFiles) (p.files.size + 1) []
    (p.classes.size + (p.added unit).length) p.classes.size unit'.classes fun i hi =>
      exchanging_second (by rwa [ClassDecl.length_ofTrees _ p.files.size [] [] _ p.classes.size] at hi)
  have hfile : p.exchangedFiles (p.files.size + 1) = p.files.size := Equiv.swap_apply_right ..
  rw [hfile] at hshift
  have hadded : (p.add path unit).added unit' =
      ClassDecl.ofTrees (p.files.size + 1) [] (p.classes.size + (p.added unit).length) unit'.classes := by
    rw [added, size_files_add, size_classes_add]
    rfl
  rw [hadded]
  exact hshift

variable {p}

/-- A class is the same in both projects but for the numbers. -/
theorem decl_exchanged (h : p.Loaded) {c : ClassId} (hc : c < ((p.add path unit).add path' unit').classes.size) :
    ((p.add path' unit').add path unit).decl (p.exchangedClasses unit unit' c) =
      (((p.add path unit).add path' unit').decl c).renumber (p.exchangedClasses unit unit') p.exchangedFiles := by
  have hsize : (p.add path unit).classes.size = p.classes.size + (p.added unit).length := size_classes_add ..
  have hsize' : (p.add path' unit').classes.size = p.classes.size + (p.added unit').length := size_classes_add ..
  have hlength : ((p.add path unit).added unit').length = (p.added unit').length := ClassDecl.length_ofTrees ..
  rw [size_classes_add_add] at hc
  rcases Nat.lt_or_ge c p.classes.size with hold | hnew
  · have hkeep : p.exchangedClasses unit unit' c = c := exchanging_of_lt hold
    rw [hkeep, decl_add_of_lt (hsize'.symm ▸ Nat.lt_add_right _ hold), decl_add_of_lt hold,
      decl_add_of_lt (hsize.symm ▸ Nat.lt_add_right _ hold), decl_add_of_lt hold]
    refine (h.renumber_eq hold (fun d hd => exchanging_of_lt hd) fun i hi => ?_).symm
    exact Equiv.swap_apply_of_ne_of_ne (Nat.ne_of_lt hi) (Nat.ne_of_lt (Nat.lt_succ_of_lt hi))
  obtain ⟨i, rfl⟩ := Nat.exists_eq_add_of_le hnew
  rcases Nat.lt_or_ge i (p.added unit).length with hi | hi
  · have hmove : p.exchangedClasses unit unit' (p.classes.size + i) = p.classes.size + (p.added unit').length + i :=
      exchanging_first hi
    rw [hmove, ← hsize', decl_add_added, decl_add_of_lt (hsize.symm ▸ Nat.add_lt_add_left hi _), decl_add_added]
    exact getD_of_map (p.added_behind path' unit unit') hi _ _
  · obtain ⟨j, rfl⟩ := Nat.exists_eq_add_of_le hi
    rw [← Nat.add_assoc] at hc ⊢
    have hj : j < (p.added unit').length := Nat.lt_of_add_lt_add_left hc
    have hmove : p.exchangedClasses unit unit' (p.classes.size + (p.added unit).length + j) = p.classes.size + j :=
      exchanging_second hj
    rw [hmove, decl_add_of_lt (hsize'.symm ▸ Nat.add_lt_add_left hj _), decl_add_added, ← hsize, decl_add_added]
    exact getD_of_map (p.added_ahead path unit unit') (hlength ▸ hj) _ _

end

/-- **Two files loaded the other way round** exchange their numbers. -/
theorem Reordered.swap {p : Project} (h : p.Loaded) (a b : Path × SourceUnit) :
    ∃ φ ψ, Reordered φ ψ ((p.add a.1 a.2).add b.1 b.2) ((p.add b.1 b.2).add a.1 a.2) := by
  obtain ⟨path, unit⟩ := a
  obtain ⟨path', unit'⟩ := b
  refine ⟨p.exchangedClasses unit unit', p.exchangedFiles, {
    classes := by
      rw [size_classes_add_add, size_classes_add_add]
      omega
    files := by simp only [size_files_add]
    fixed := fun c hc => exchanging_of_le (p.size_classes_add_add path path' unit unit' ▸ hc)
    fixedFile := fun i hi => by
      simp only [size_files_add] at hi
      exact Equiv.swap_apply_of_ne_of_ne (by omega) (by omega)
    decl := fun c hc => decl_exchanged path path' unit unit' h hc
    file := fun i => ?_ }⟩
  simp only [file_add, size_files_add, exchangedFiles]
  by_cases hi : i = p.files.size
  · subst hi
    rw [Equiv.swap_apply_left]
    simp
  by_cases hi' : i = p.files.size + 1
  · subst hi'
    rw [Equiv.swap_apply_right]
    simp
  · rw [Equiv.swap_apply_of_ne_of_ne hi hi', if_neg hi', if_neg hi, if_neg hi', if_neg hi]
    exact ⟨rfl, rfl, rfl⟩

/-! ## Every order -/

/-- The project with the files added in order. -/
def addAll (p : Project) (units : List (Path × SourceUnit)) : Project := units.foldl (fun p u => p.add u.1 u.2) p

theorem Loaded.addAll {p : Project} (h : p.Loaded) (units : List (Path × SourceUnit)) : (p.addAll units).Loaded := by
  induction units generalizing p with
  | nil => exact h
  | cons u units ih => exact ih (h.add u.1 u.2)

theorem Reordered.addAll {φ ψ : Equiv.Perm Nat} {p p' : Project} (h : Reordered φ ψ p p')
    (units : List (Path × SourceUnit)) : Reordered φ ψ (p.addAll units) (p'.addAll units) := by
  induction units generalizing p p' with
  | nil => exact h
  | cons u units ih => exact ih (h.add u.1 u.2)

/-- **Every order of the files** gives the same project but for the numbers. -/
theorem Reordered.of_perm {units units' : List (Path × SourceUnit)} (hperm : units.Perm units') {p : Project}
    (h : p.Loaded) : ∃ φ ψ, Reordered φ ψ (p.addAll units) (p.addAll units') := by
  induction hperm generalizing p with
  | nil => exact ⟨_, _, .refl p⟩
  | cons u _ ih => exact ih (h.add u.1 u.2)
  | swap u v units =>
    obtain ⟨φ, ψ, hswap⟩ := Reordered.swap h v u
    exact ⟨φ, ψ, hswap.addAll units⟩
  | trans _ _ ih ih' =>
    obtain ⟨φ, ψ, h₁⟩ := ih h
    obtain ⟨φ', ψ', h₂⟩ := ih' h
    exact ⟨_, _, h₁.trans h₂⟩

end Project

end Counterpart
