/-
All declarations of a workspace with their addresses. When the names in one place differ (`Distinct`), every declaration is
what its own address leads to, and no two have one address (`mem_declarations`, `nodup_declarations`). Adding a declaration
under a free name keeps the names apart, and so does changing one at its address.
-/
import Mathlib.Data.List.Nodup
import Counterpart.Proofs.Address

namespace Counterpart.Output

namespace Declaration

/-! ## Distinct names -/

/-- The declarations of a list have different names, and so have those inside each of them, at every depth. -/
inductive Distinct : List Declaration → Prop
  | mk {ds : List Declaration} (names : (ds.map (·.name)).Nodup) (inside : ∀ d ∈ ds, Distinct d.nested) : Distinct ds

namespace Distinct

variable {ds ds' : List Declaration} {d : Declaration}

theorem nil : Distinct [] := ⟨by simp, by simp⟩

theorem names (h : Distinct ds) : (ds.map (·.name)).Nodup := by
  obtain ⟨h, -⟩ := h
  exact h

theorem nested (h : Distinct ds) (hd : d ∈ ds) : Distinct d.nested := by
  obtain ⟨-, h⟩ := h
  exact h d hd

end Distinct

theorem findIn?_eq_some_iff {ds : List Declaration} (hn : (ds.map (·.name)).Nodup) {name : String} {d : Declaration} :
    findIn? name ds = some d ↔ d ∈ ds ∧ d.name = name := by
  constructor
  · intro h
    exact ⟨List.mem_of_find?_eq_some h, by simpa using List.find?_some h⟩
  · rintro ⟨hd, rfl⟩
    induction ds with
    | nil => cases hd
    | cons e ds ih =>
      rw [List.map_cons, List.nodup_cons] at hn
      rw [findIn?_cons]
      rcases List.mem_cons.mp hd with rfl | hd
      · rw [if_pos rfl]
      · have hne : e.name ≠ d.name := fun he => hn.1 (he ▸ List.mem_map_of_mem hd)
        rw [if_neg hne, ih hn.2 hd]

theorem findIn?_eq_none_iff {ds : List Declaration} {name : String} :
    findIn? name ds = none ↔ name ∉ ds.map (·.name) := by
  simp [findIn?]

namespace Distinct

variable {ds ds' : List Declaration} {d : Declaration}

theorem concat (h : Distinct ds) (hd : Distinct d.nested) (hfree : findIn? d.name ds = none) : Distinct (ds ++ [d]) := by
  refine ⟨?_, fun e he => ?_⟩
  · rw [List.map_append, List.map_singleton, List.nodup_append_comm]
    exact List.nodup_cons.mpr ⟨findIn?_eq_none_iff.mp hfree, h.names⟩
  · rcases List.mem_append.mp he with he | he
    · exact h.nested he
    · rw [List.mem_singleton] at he
      exact he ▸ hd

theorem replace {before after : List Declaration} {d d' : Declaration} (h : Distinct (before ++ d :: after))
    (hname : d'.name = d.name) (hd' : Distinct d'.nested) : Distinct (before ++ d' :: after) := by
  refine ⟨?_, fun e he => ?_⟩
  · have := h.names
    rwa [List.map_append, List.map_cons, ← hname, ← List.map_cons, ← List.map_append] at this
  · rcases List.mem_append.mp he with he | he
    · exact h.nested (List.mem_append_left _ he)
    · rcases List.mem_cons.mp he with rfl | he
      · exact hd'
      · exact h.nested (List.mem_append_right _ (List.mem_cons_of_mem d he))

end Distinct

theorem updateFirst?_eq_some {name : String} {f : Declaration → Option Declaration} {ds ds' : List Declaration}
    (h : updateFirst? name f ds = some ds') :
    ∃ before d d' after, ds = before ++ d :: after ∧ findIn? name ds = some d ∧ f d = some d' ∧
      ds' = before ++ d' :: after := by
  induction ds generalizing ds' with
  | nil => cases h
  | cons d ds ih =>
    rw [updateFirst?] at h
    split at h
    next hd =>
      obtain ⟨d', hd', rfl⟩ := Option.map_eq_some_iff.mp h
      exact ⟨[], d, d', ds, rfl, by rw [findIn?_cons, if_pos (by simpa using hd)], hd', rfl⟩
    next hd =>
      obtain ⟨es, hes, rfl⟩ := Option.map_eq_some_iff.mp h
      obtain ⟨before, e, e', after, rfl, he, he', rfl⟩ := ih hes
      exact ⟨d :: before, e, e', after, rfl, by rw [findIn?_cons, if_neg (by simpa using hd), he], he', rfl⟩

/-- Changing a declaration at the end of a path keeps names apart when it does so inside that declaration. -/
theorem Distinct.updateAt? {f : Declaration → Declaration} (hname : ∀ d, (f d).name = d.name) {path : List String}
    {ds ds' : List Declaration} (h : Distinct ds)
    (hf : ∀ d, at? path ds = some d → Distinct d.nested → Distinct (f d).nested)
    (hu : updateAt? f path ds = some ds') : Distinct ds' := by
  induction path generalizing ds ds' with
  | nil => cases hu
  | cons name path ih =>
    rw [updateAt?_cons] at hu
    obtain ⟨before, d, d', after, rfl, hd, hd', rfl⟩ := updateFirst?_eq_some hu
    have hin := h.nested (List.mem_of_find?_eq_some hd)
    split at hd'
    next hp =>
      cases hd'
      exact h.replace (hname d) (hf d (by rw [at?_cons, hd, Option.bind_some, if_pos hp]) hin)
    next hp =>
      obtain ⟨es, hes, rfl⟩ := Option.map_eq_some_iff.mp hd'
      refine h.replace rfl (ih hin (fun e he => hf e ?_) hes)
      rw [at?_cons, hd, Option.bind_some, if_neg hp, he]

/-! ## All declarations -/

mutual

/-- A declaration and those inside it, each with the path that leads to it. -/
def all : Declaration → List (List String × Declaration)
  | ⟨name, kind, source, typeParams, params, entries, nested⟩ =>
    ([name], ⟨name, kind, source, typeParams, params, entries, nested⟩) :: (allIn nested).map fun x => (name :: x.1, x.2)

def allIn : List Declaration → List (List String × Declaration)
  | [] => []
  | d :: ds => all d ++ allIn ds

end

theorem all_eq (d : Declaration) : all d = ([d.name], d) :: (allIn d.nested).map fun x => (d.name :: x.1, x.2) := by
  cases d
  rw [all]

theorem allIn_eq (ds : List Declaration) : allIn ds = ds.flatMap all := by
  induction ds with
  | nil => rfl
  | cons d ds ih => rw [allIn, ih, List.flatMap_cons]

theorem exists_cons_of_mem_all {d : Declaration} {x : List String × Declaration} (h : x ∈ all d) :
    ∃ rest, x.1 = d.name :: rest := by
  rw [all_eq] at h
  rcases List.mem_cons.mp h with rfl | h
  · exact ⟨[], rfl⟩
  · obtain ⟨y, -, rfl⟩ := List.mem_map.mp h
    exact ⟨y.1, rfl⟩

theorem Distinct.mem_allIn {ds : List Declaration} (h : Distinct ds) {path : List String} {d : Declaration} :
    (path, d) ∈ allIn ds ↔ at? path ds = some d := by
  induction path generalizing ds with
  | nil =>
    rw [allIn_eq]
    refine ⟨fun hmem => ?_, fun hat => by cases hat⟩
    obtain ⟨e, -, hx⟩ := List.mem_flatMap.mp hmem
    obtain ⟨rest, he⟩ := exists_cons_of_mem_all hx
    cases he
  | cons name path ih =>
    rw [allIn_eq, List.mem_flatMap, at?_cons, Option.bind_eq_some_iff]
    simp only [findIn?_eq_some_iff h.names, all_eq, List.mem_cons, List.mem_map, Prod.mk.injEq, List.cons.injEq,
      Prod.exists]
    constructor
    · rintro ⟨e, he, ⟨⟨rfl, rfl⟩, rfl⟩ | ⟨rest, d, hin, ⟨rfl, rfl⟩, rfl⟩⟩
      · exact ⟨d, ⟨he, rfl⟩, if_pos rfl⟩
      · have hat := (ih (h.nested he)).mp hin
        refine ⟨e, ⟨he, rfl⟩, ?_⟩
        rw [if_neg, hat]
        rintro rfl
        cases hat
    · rintro ⟨e, ⟨he, rfl⟩, hat⟩
      refine ⟨e, he, ?_⟩
      split at hat
      next hp => cases hat; exact .inl ⟨⟨rfl, hp⟩, rfl⟩
      next => exact .inr ⟨path, d, (ih (h.nested he)).mpr hat, ⟨rfl, rfl⟩, rfl⟩

theorem Distinct.nodup_allIn {ds : List Declaration} (h : Distinct ds) : ((allIn ds).map (·.1)).Nodup := by
  induction h with
  | @mk ds names _ ih =>
    rw [allIn_eq, List.map_flatMap, List.nodup_flatMap]
    constructor
    · intro d hd
      rw [all_eq, List.map_cons, List.map_map, List.nodup_cons]
      constructor
      · -- what is inside a declaration has a longer path
        intro hmem
        obtain ⟨x, hx, hpath⟩ := List.mem_map.mp hmem
        obtain ⟨e, -, hx⟩ := List.mem_flatMap.mp (allIn_eq _ ▸ hx)
        obtain ⟨rest, he⟩ := exists_cons_of_mem_all hx
        simp [he] at hpath
      · have := (ih d hd).map (f := (d.name :: ·)) fun _ _ => List.tail_eq_of_cons_eq
        rwa [List.map_map] at this
    · refine (List.pairwise_map.mp names).imp fun hne => List.disjoint_left.mpr ?_
      intro path hd he
      obtain ⟨x, hx, rfl⟩ := List.mem_map.mp hd
      obtain ⟨y, hy, hxy⟩ := List.mem_map.mp he
      obtain ⟨rest, hrest⟩ := exists_cons_of_mem_all hx
      obtain ⟨rest', hrest'⟩ := exists_cons_of_mem_all hy
      rw [hrest, hrest'] at hxy
      exact hne (List.head_eq_of_cons_eq hxy).symm

end Declaration

open Declaration

namespace Workspace

/-! ## Workspaces -/

/-- All declarations of a workspace with their addresses, file by file. -/
def declarations (w : Workspace) : List (Ref × Declaration) :=
  (List.range w.files.size).flatMap fun id => (allIn (w.file id).declarations).map fun x => (⟨id, x.1⟩, x.2)

/-- The names at the top of all files. -/
def topLevelNames (w : Workspace) : List String :=
  (List.range w.files.size).flatMap fun id => (w.file id).declarations.map (·.name)

/-- The names in one place differ, in every file and at every depth. -/
def Distinct (w : Workspace) : Prop := ∀ id, Declaration.Distinct (w.file id).declarations

theorem isSome_topLevel_iff {w : Workspace} {id : OutputId} {name : String} :
    (w.declaration? (.topLevel id name)).isSome = true ↔ name ∈ (w.file id).declarations.map (·.name) := by
  rw [← not_iff_not, ← findIn?_eq_none_iff]
  simp [declaration?, Ref.topLevel, at?]

theorem lt_size_of_topLevel {w : Workspace} {id : OutputId} {name : String}
    (h : name ∈ (w.file id).declarations.map (·.name)) : id < w.files.size := by
  obtain ⟨d, hd⟩ := Option.isSome_iff_exists.mp (isSome_topLevel_iff.mpr h)
  exact lt_size_of_declaration? hd

theorem mem_topLevelNames {w : Workspace} {name : String} :
    name ∈ w.topLevelNames ↔ ∃ id, (w.declaration? (.topLevel id name)).isSome = true := by
  simp only [topLevelNames, List.mem_flatMap, List.mem_range, isSome_topLevel_iff]
  constructor
  · rintro ⟨id, -, hid⟩
    exact ⟨id, hid⟩
  · rintro ⟨id, hid⟩
    exact ⟨id, lt_size_of_topLevel hid, hid⟩

namespace Distinct

variable {w w' : Workspace}

theorem mem_declarations (h : w.Distinct) {r : Ref} {d : Declaration} :
    (r, d) ∈ w.declarations ↔ w.declaration? r = some d := by
  simp only [declarations, List.mem_flatMap, List.mem_range, List.mem_map, Prod.mk.injEq, Prod.exists]
  constructor
  · rintro ⟨id, -, path, d, hin, rfl, rfl⟩
    exact (h id).mem_allIn.mp hin
  · intro hr
    exact ⟨r.file, lt_size_of_declaration? hr, r.path, d, (h r.file).mem_allIn.mpr hr, rfl, rfl⟩

theorem nodup_declarations (h : w.Distinct) : (w.declarations.map (·.1)).Nodup := by
  rw [declarations, List.map_flatMap, List.nodup_flatMap]
  constructor
  · intro id _
    have := ((h id).nodup_allIn).map (f := fun path => Ref.mk id path) fun _ _ => fun he => congrArg Ref.path he
    rwa [List.map_map] at this ⊢
  · refine List.nodup_range.imp fun hne => List.disjoint_left.mpr ?_
    intro r hr hr'
    obtain ⟨x, hx, rfl⟩ := List.mem_map.mp hr
    obtain ⟨y, hy, hxy⟩ := List.mem_map.mp hr'
    obtain ⟨x, -, rfl⟩ := List.mem_map.mp hx
    obtain ⟨y, -, rfl⟩ := List.mem_map.mp hy
    exact hne (congrArg Ref.file hxy).symm

/-- The names at the top of the files are all different exactly when no name is at the top of two of them. -/
theorem nodup_topLevelNames_iff (h : w.Distinct) :
    w.topLevelNames.Nodup ↔ ∀ i j name, (w.declaration? (.topLevel i name)).isSome = true →
      (w.declaration? (.topLevel j name)).isSome = true → i = j := by
  rw [topLevelNames, List.nodup_flatMap]
  simp only [isSome_topLevel_iff]
  constructor
  · rintro ⟨-, hdisjoint⟩ i j name hi hj
    have apart : ∀ {i j : Nat}, i < j → name ∈ (w.file i).declarations.map (·.name) →
        name ∉ (w.file j).declarations.map (·.name) := by
      intro i j hij hi hj
      have := List.pairwise_iff_getElem.mp hdisjoint i j (by simpa using lt_size_of_topLevel hi)
        (by simpa using lt_size_of_topLevel hj) hij
      simp only [List.getElem_range] at this
      exact this hi hj
    rcases Nat.lt_trichotomy i j with hij | rfl | hji
    · exact absurd hj (apart hij hi)
    · rfl
    · exact absurd hi (apart hji hj)
  · intro hone
    refine ⟨fun id _ => (h id).names, List.nodup_range.imp fun hne => List.disjoint_left.mpr ?_⟩
    intro name hi hj
    exact hne (hone _ _ name hi hj)

theorem of_same (h : w.Distinct) (hs : w.SameDeclarations w') : w'.Distinct := by
  intro id
  rw [hs.declarations]
  exact h id

theorem updateFile (h : w.Distinct) {id : OutputId} {f : File → File}
    (hf : Declaration.Distinct (f (w.file id)).declarations) : (w.updateFile id f).Distinct := by
  intro i
  rw [file_updateFile]
  split
  next hi => exact hi.1 ▸ hf
  next => exact h i

theorem updateDeclaration (h : w.Distinct) {r : Ref} {f : Declaration → Declaration} (hname : ∀ d, (f d).name = d.name)
    (hf : ∀ d, w.declaration? r = some d → Declaration.Distinct d.nested → Declaration.Distinct (f d).nested)
    (hu : w.updateDeclaration r f = .ok w') : w'.Distinct := by
  obtain ⟨ds, hds, rfl⟩ := updateDeclaration_eq_ok.mp hu
  exact h.updateFile ((h r.file).updateAt? hname hf hds)

theorem addDeclaration (h : w.Distinct) {place : Place} {d : Declaration} (hd : d.nested = [])
    (hfree : w.holds place d.name = false) (ha : w.addDeclaration place d = .ok w') : w'.Distinct := by
  have hin : Declaration.Distinct d.nested := hd ▸ .nil
  cases place with
  | topLevel file =>
    cases ha
    exact h.updateFile ((h file).concat hin (by simpa [holds] using hfree))
  | inside parent =>
    have hconcat : ∀ e, w.declaration? parent = some e → Declaration.Distinct e.nested →
        Declaration.Distinct (e.nested ++ [d]) := by
      intro e he hnested
      exact hnested.concat hin (by simpa [holds, he, findNested?] using hfree)
    exact h.updateDeclaration (by intro e; rfl) hconcat ha

end Distinct

end Workspace

end Counterpart.Output
