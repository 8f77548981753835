/-
What an address leads to. `Workspace.alone?` gives the declaration at an address without those inside it; in this view
adding a declaration under a free name (`alone?_addDeclaration`) and changing one (`alone?_updateDeclaration`) touch a
single address, though the tree changes along the whole path. Files keep their number throughout.
-/
import Counterpart.Output.Workspace

namespace Counterpart.Output

open Kotlin

namespace Declaration

/-- The declaration without those inside it. -/
def alone (d : Declaration) : Declaration := { d with nested := [] }

theorem alone_of_nested {d : Declaration} (h : d.nested = []) : d.alone = d := by
  cases d
  cases h
  rfl

/-- The declaration at the end of a path, without those inside it. -/
def aloneAt? (path : List String) (ds : List Declaration) : Option Declaration :=
  (at? path ds).map alone

/-! ## Lists of declarations -/

theorem findIn?_cons (name : String) (d : Declaration) (ds : List Declaration) :
    findIn? name (d :: ds) = if d.name = name then some d else findIn? name ds := by
  rw [findIn?, List.find?_cons]
  by_cases h : d.name = name
  · simp [h]
  · rw [beq_eq_false_iff_ne.mpr h, if_neg h, findIn?]

theorem findIn?_append (name : String) (ds es : List Declaration) :
    findIn? name (ds ++ es) = (findIn? name ds).or (findIn? name es) :=
  List.find?_append

theorem updateFirst?_eq_none {name : String} {f : Declaration → Option Declaration} {ds : List Declaration} :
    updateFirst? name f ds = none ↔ (findIn? name ds).bind f = none := by
  induction ds with
  | nil => simp [updateFirst?, findIn?]
  | cons d ds ih =>
    rw [updateFirst?, findIn?_cons]
    by_cases h : d.name = name
    · simp [h]
    · simpa [h] using ih

theorem findIn?_updateFirst? {name : String} {f : Declaration → Option Declaration} {ds ds' : List Declaration}
    (hf : ∀ d d', f d = some d' → d'.name = d.name) (h : updateFirst? name f ds = some ds') (n : String) :
    findIn? n ds' = if n = name then (findIn? name ds).bind f else findIn? n ds := by
  induction ds generalizing ds' with
  | nil => cases h
  | cons d ds ih =>
    rw [updateFirst?] at h
    split at h
    next hd =>
      obtain ⟨d', hd', rfl⟩ := Option.map_eq_some_iff.mp h
      have hn := hf d d' hd'
      rw [beq_iff_eq] at hd
      subst hd
      by_cases hne : n = d.name
      · subst hne; simp [findIn?_cons, hn, hd']
      · simp [findIn?_cons, hn, hne, Ne.symm hne]
    next hd =>
      obtain ⟨es, hes, rfl⟩ := Option.map_eq_some_iff.mp h
      rw [beq_iff_eq] at hd
      rw [findIn?_cons, findIn?_cons, findIn?_cons, ih hes, if_neg hd]
      by_cases hne : n = name
      · rw [if_pos hne, if_pos hne, hne, if_neg hd]
      · rw [if_neg hne, if_neg hne]

/-! ## Paths -/

theorem at?_cons (name : String) (rest : List String) (ds : List Declaration) :
    at? (name :: rest) ds = (findIn? name ds).bind fun d => if rest = [] then some d else at? rest d.nested := by
  cases rest <;> simp [at?]

theorem updateAt?_cons (f : Declaration → Declaration) (name : String) (rest : List String) (ds : List Declaration) :
    updateAt? f (name :: rest) ds = updateFirst? name (fun d =>
      if rest = [] then some (f d) else (updateAt? f rest d.nested).map fun nested => { d with nested }) ds := by
  cases rest <;> simp [updateAt?]

theorem at?_append {path rest : List String} {ds : List Declaration} {d : Declaration} (h : at? path ds = some d)
    (hr : rest ≠ []) : at? (path ++ rest) ds = at? rest d.nested := by
  induction path generalizing ds with
  | nil => cases h
  | cons name path ih =>
    rw [at?_cons] at h
    obtain ⟨e, he, h⟩ := Option.bind_eq_some_iff.mp h
    rw [List.cons_append, at?_cons, he, Option.bind_some, if_neg (by simp [hr])]
    split at h
    next hp => cases h; rw [hp, List.nil_append]
    next hp => exact ih h

theorem updateAt?_eq_none {f : Declaration → Declaration} {path : List String} {ds : List Declaration} :
    updateAt? f path ds = none ↔ at? path ds = none := by
  induction path generalizing ds with
  | nil => simp [updateAt?, at?]
  | cons name path ih =>
    rw [updateAt?_cons, updateFirst?_eq_none, at?_cons]
    cases findIn? name ds with
    | none => rfl
    | some d =>
      simp only [Option.bind_some]
      split
      · simp
      · rw [Option.map_eq_none_iff, ih]

/-- Changing the declaration at the end of a path changes what lies on it and below, nothing else. -/
theorem at?_updateAt? {f : Declaration → Declaration} (hf : ∀ d, (f d).name = d.name) {path : List String}
    {ds ds' : List Declaration} (h : updateAt? f path ds = some ds') :
    ∃ d, at? path ds = some d ∧ at? path ds' = some (f d) ∧ ∀ q, ¬ path <+: q → aloneAt? q ds' = aloneAt? q ds := by
  induction path generalizing ds ds' with
  | nil => cases h
  | cons name path ih =>
    rw [updateAt?_cons] at h
    have hlook := findIn?_updateFirst? (by
      intro d d' hd
      split at hd
      · cases hd; exact hf d
      · obtain ⟨_, _, rfl⟩ := Option.map_eq_some_iff.mp hd; rfl) h
    have hsome : ∃ d, findIn? name ds = some d := by
      rw [← Option.isSome_iff_exists, Option.isSome_iff_ne_none]
      intro hnone
      rw [updateFirst?_eq_none.mpr (by rw [hnone]; rfl)] at h
      cases h
    obtain ⟨d, hd⟩ := hsome
    have hname := hlook name
    rw [if_pos rfl, hd, Option.bind_some] at hname
    by_cases hp : path = []
    · subst hp
      rw [if_pos rfl] at hname
      refine ⟨d, by rw [at?_cons, hd]; rfl, by rw [at?_cons, hname]; rfl, fun q hq => ?_⟩
      cases q with
      | nil => rfl
      | cons n q =>
        have hn : n ≠ name := fun hn => hq (by simp [hn])
        rw [aloneAt?, aloneAt?, at?_cons, at?_cons, hlook n, if_neg hn]
    · rw [if_neg hp] at hname
      have hne : updateAt? f path d.nested ≠ none := by
        intro hnone
        rw [updateFirst?_eq_none.mpr (by rw [hd, Option.bind_some, if_neg hp, hnone]; rfl)] at h
        cases h
      obtain ⟨es, hes⟩ := Option.ne_none_iff_exists'.mp hne
      rw [hes, Option.map_some] at hname
      obtain ⟨e, he, he', hkeep⟩ := ih hes
      refine ⟨e, ?_, ?_, fun q hq => ?_⟩
      · rw [at?_cons, hd, Option.bind_some, if_neg hp, he]
      · rw [at?_cons, hname, Option.bind_some, if_neg hp, he']
      cases q with
      | nil => rfl
      | cons n q =>
        rw [aloneAt?, aloneAt?, at?_cons, at?_cons, hlook n]
        by_cases hn : n = name
        · subst hn
          have := hkeep q fun hpre => hq (List.cons_prefix_cons.mpr ⟨rfl, hpre⟩)
          rw [if_pos rfl, hd, Option.bind_some, if_neg hp, hes]
          by_cases hq' : q = []
          · simp [hq', alone]
          · simpa [hq', aloneAt?] using this
        · rw [if_neg hn]

theorem aloneAt?_concat {ds : List Declaration} {d : Declaration} (hd : d.nested = [])
    (hfree : findIn? d.name ds = none) (q : List String) :
    aloneAt? q (ds ++ [d]) = if q = [d.name] then some d else aloneAt? q ds := by
  cases q with
  | nil => rfl
  | cons n q =>
    rw [aloneAt?, aloneAt?, at?_cons, at?_cons, findIn?_append]
    by_cases hn : n = d.name
    · subst hn
      rw [hfree, Option.none_or]
      have : findIn? d.name [d] = some d := by simp [findIn?]
      rw [this]
      cases q with
      | nil => rw [if_pos rfl, Option.bind_some, if_pos rfl, Option.map_some, alone_of_nested hd]
      | cons m q =>
        rw [Option.bind_some, if_neg (List.cons_ne_nil _ _), hd, if_neg (by simp), Option.bind_none, at?_cons]
        rfl
    · have : findIn? n [d] = none := by simp [findIn?, Ne.symm hn]
      rw [this, Option.or_none, if_neg (by simp [hn])]

end Declaration

open Declaration

namespace Workspace

/-! ## Files -/

theorem file_updateFile (w : Workspace) (id i : OutputId) (f : File → File) :
    (w.updateFile id f).file i = if i = id ∧ i < w.files.size then f (w.file i) else w.file i := by
  simp only [file, updateFile, Array.getD_eq_getD_getElem?, Array.getElem?_modify]
  by_cases hi : i < w.files.size
  · by_cases he : id = i
    · simp [he, hi]
    · simp [he, Ne.symm he]
  · simp [hi]

@[simp] theorem size_updateFile (w : Workspace) (id : OutputId) (f : File → File) :
    (w.updateFile id f).files.size = w.files.size := by
  simp [updateFile]

theorem file_create (w : Workspace) (path : Path) (package : String) (role : FileRole) (id : OutputId) :
    (w.create path package role).file id =
      if id = w.files.size then ⟨id, path, package, role, .empty, [], []⟩ else w.file id := by
  simp only [file, create, Array.getD_eq_getD_getElem?, Array.getElem?_push]
  by_cases h : id = w.files.size
  · simp [h]
  · simp [h]

theorem size_create (w : Workspace) (path : Path) (package : String) (role : FileRole) :
    (w.create path package role).files.size = w.files.size + 1 := by
  simp [create]

/-- The workspace `w'` has the files of `w`, each in its package. -/
structure SameFiles (w w' : Workspace) : Prop where
  size : w'.files.size = w.files.size
  package : ∀ id, (w'.file id).package = (w.file id).package

namespace SameFiles

theorem refl (w : Workspace) : SameFiles w w := ⟨rfl, fun _ => rfl⟩

theorem trans {u v w : Workspace} (h : SameFiles u v) (h' : SameFiles v w) : SameFiles u w :=
  ⟨h'.size.trans h.size, fun id => (h'.package id).trans (h.package id)⟩

theorem updateFile (w : Workspace) (id : OutputId) {f : File → File} (hf : ∀ file, (f file).package = file.package) :
    SameFiles w (w.updateFile id f) :=
  ⟨size_updateFile w id f, fun i => by
    rw [file_updateFile]
    split
    · exact hf _
    · rfl⟩

end SameFiles

/-- All files are in one package. -/
def InPackage (w : Workspace) (package : String) : Prop := ∀ id < w.files.size, (w.file id).package = package

theorem inPackage_empty (package : String) : empty.InPackage package :=
  fun _ h => absurd h (Nat.not_lt_zero _)

theorem InPackage.create {w : Workspace} {package : String} (path : Path) (role : FileRole) (h : w.InPackage package) :
    (w.create path package role).InPackage package := by
  intro id hid
  rw [size_create] at hid
  rw [file_create]
  split
  · rfl
  next hne => exact h id (Nat.lt_of_le_of_ne (Nat.le_of_lt_succ hid) hne)

theorem SameFiles.inPackage {w w' : Workspace} {package : String} (h : SameFiles w w') (hw : w.InPackage package) :
    w'.InPackage package := by
  intro id hid
  rw [h.package]
  exact hw id (h.size ▸ hid)

/-- A file that is not there has no declarations. -/
theorem lt_size_of_declaration? {w : Workspace} {r : Ref} {d : Declaration} (h : w.declaration? r = some d) :
    r.file < w.files.size := by
  rcases Nat.lt_or_ge r.file w.files.size with hr | hr
  · exact hr
  · have : w.file r.file = default := by simp [file, Array.getD, Nat.not_lt.mpr hr]
    rw [declaration?, this] at h
    cases hp : r.path with
    | nil => rw [hp] at h; cases h
    | cons n q => rw [hp, at?_cons] at h; cases h

/-! ## Declarations -/

/-- The declaration at an address, without those inside it. -/
def alone? (w : Workspace) (r : Ref) : Option Declaration :=
  (w.declaration? r).map alone

theorem alone?_eq (w : Workspace) (r : Ref) : w.alone? r = aloneAt? r.path (w.file r.file).declarations := rfl

theorem alone?_updateFile {w : Workspace} {id : OutputId} {f : File → File} (hid : id < w.files.size) (q : Ref) :
    (w.updateFile id f).alone? q =
      if q.file = id then aloneAt? q.path (f (w.file id)).declarations else w.alone? q := by
  rw [alone?_eq, file_updateFile]
  by_cases hq : q.file = id
  · rw [if_pos ⟨hq, hq ▸ hid⟩, if_pos hq, hq]
  · rw [if_neg fun h => hq h.1, if_neg hq, alone?_eq]

theorem updateDeclaration_eq_ok {w w' : Workspace} {r : Ref} {f : Declaration → Declaration} :
    w.updateDeclaration r f = .ok w' ↔ ∃ ds, updateAt? f r.path (w.file r.file).declarations = some ds ∧
      w' = w.updateFile r.file fun file => { file with declarations := ds } := by
  unfold updateDeclaration
  split
  next ds hds => simp [hds, eq_comm]
  next hds => simp [hds]

theorem SameFiles.updateDeclaration {w w' : Workspace} {r : Ref} {f : Declaration → Declaration}
    (h : w.updateDeclaration r f = .ok w') : SameFiles w w' := by
  obtain ⟨ds, -, rfl⟩ := updateDeclaration_eq_ok.mp h
  exact .updateFile w _ fun _ => rfl

theorem SameFiles.addDeclaration {w w' : Workspace} {place : Place} {d : Declaration}
    (h : w.addDeclaration place d = .ok w') : SameFiles w w' := by
  cases place with
  | topLevel file => cases h; exact .updateFile w _ fun _ => rfl
  | inside parent => exact .updateDeclaration h

/-- A declaration that is there can be changed. -/
theorem exists_updateDeclaration {w : Workspace} {r : Ref} (f : Declaration → Declaration)
    (h : (w.alone? r).isSome = true) : ∃ w', w.updateDeclaration r f = .ok w' := by
  have hne : updateAt? f r.path (w.file r.file).declarations ≠ none := by
    rw [Ne, updateAt?_eq_none]
    intro hn
    rw [alone?_eq, aloneAt?, hn] at h
    cases h
  obtain ⟨ds, hds⟩ := Option.ne_none_iff_exists'.mp hne
  exact ⟨_, updateDeclaration_eq_ok.mpr ⟨ds, hds, rfl⟩⟩

/-- Changing a declaration but for its name and what is inside it changes what its own address leads to. -/
theorem alone?_updateDeclaration {w w' : Workspace} {r : Ref} {f : Declaration → Declaration}
    (hname : ∀ d, (f d).name = d.name) (hnested : ∀ d, (f d).nested = d.nested) (halone : ∀ d, (f d).alone = f d.alone)
    (h : w.updateDeclaration r f = .ok w') (q : Ref) :
    w'.alone? q = if q = r then (w.alone? r).map f else w.alone? q := by
  obtain ⟨ds, hds, rfl⟩ := updateDeclaration_eq_ok.mp h
  obtain ⟨d, hd, hd', hkeep⟩ := at?_updateAt? hname hds
  rw [alone?_updateFile (lt_size_of_declaration? hd)]
  obtain ⟨qf, qp⟩ := q
  obtain ⟨rf, rp⟩ := r
  simp only [Ref.mk.injEq] at hd hd' hkeep ⊢
  by_cases hf : qf = rf
  · subst hf
    rw [if_pos rfl]
    by_cases hp : rp <+: qp
    · obtain ⟨rest, rfl⟩ := hp
      by_cases hr : rest = []
      · subst hr
        simp [alone?_eq, aloneAt?, hd, hd', halone]
      · rw [if_neg (by simp [hr]), alone?_eq, aloneAt?, aloneAt?, at?_append hd' hr, at?_append hd hr, hnested]
    · rw [if_neg fun he => hp (by simp [he]), hkeep qp hp, alone?_eq]
  · rw [if_neg hf, if_neg fun he => hf he.1]

/-- Adding a declaration under a free name makes its address lead to it. -/
theorem alone?_addDeclaration {w w' : Workspace} {place : Place} {d : Declaration} (hd : d.nested = [])
    (hfile : place.file < w.files.size) (hfree : w.holds place d.name = false)
    (h : w.addDeclaration place d = .ok w') (q : Ref) :
    w'.alone? q = if q = place.refTo d.name then some d else w.alone? q := by
  cases place with
  | topLevel file =>
    cases h
    have hfree' : findIn? d.name (w.file file).declarations = none := by simpa [holds] using hfree
    rw [alone?_updateFile (show file < w.files.size from hfile), aloneAt?_concat hd hfree']
    obtain ⟨qf, qp⟩ := q
    by_cases hf : qf = file
    · subst hf
      simp [Place.refTo, Ref.topLevel, alone?_eq]
    · simp [Place.refTo, Ref.topLevel, hf]
  | inside parent =>
    obtain ⟨ds, hds, rfl⟩ := updateDeclaration_eq_ok.mp h
    obtain ⟨e, he, he', hkeep⟩ := at?_updateAt? (by intro d; rfl) hds
    have hfree' : findIn? d.name e.nested = none := by
      simpa [holds, declaration?, he, findNested?] using hfree
    rw [alone?_updateFile (lt_size_of_declaration? he)]
    obtain ⟨qf, qp⟩ := q
    obtain ⟨rf, rp⟩ := parent
    simp only [Place.refTo, Ref.child, Ref.mk.injEq] at he he' hkeep ⊢
    by_cases hf : qf = rf
    · subst hf
      rw [if_pos rfl]
      by_cases hp : rp <+: qp
      · obtain ⟨rest, rfl⟩ := hp
        by_cases hr : rest = []
        · subst hr
          simp [alone?_eq, aloneAt?, he, he', alone]
        · rw [alone?_eq, aloneAt?, at?_append he' hr, ← aloneAt?, aloneAt?_concat hd hfree', aloneAt?, aloneAt?,
            at?_append he hr]
          simp
      · rw [if_neg fun hq => hp (by simp [hq.2]), hkeep qp hp, alone?_eq]
    · rw [if_neg hf, if_neg fun hq => hf hq.1]

/-- A place whose file is there, and whose declaration is there when it is inside one, takes a declaration. -/
theorem exists_addDeclaration {w : Workspace} {place : Place} (d : Declaration)
    (h : ∀ parent, place = .inside parent → (w.alone? parent).isSome = true) :
    ∃ w', w.addDeclaration place d = .ok w' := by
  cases place with
  | topLevel file => exact ⟨_, rfl⟩
  | inside parent => exact exists_updateDeclaration _ (h parent rfl)

/-! ## Changes that leave declarations -/

/-- The workspace `w'` has the files of `w`, and the same declarations in them. -/
structure SameDeclarations (w w' : Workspace) : Prop extends SameFiles w w' where
  declarations : ∀ id, (w'.file id).declarations = (w.file id).declarations

namespace SameDeclarations

theorem refl (w : Workspace) : SameDeclarations w w := ⟨.refl w, fun _ => rfl⟩

theorem trans {u v w : Workspace} (h : SameDeclarations u v) (h' : SameDeclarations v w) : SameDeclarations u w :=
  ⟨h.toSameFiles.trans h'.toSameFiles, fun id => (h'.declarations id).trans (h.declarations id)⟩

theorem declaration? {w w' : Workspace} (h : SameDeclarations w w') (r : Ref) : w'.declaration? r = w.declaration? r := by
  rw [Workspace.declaration?, Workspace.declaration?, h.declarations]

theorem alone {w w' : Workspace} (h : SameDeclarations w w') (r : Ref) : w'.alone? r = w.alone? r := by
  rw [alone?, alone?, h.declaration?]

theorem foldl {α : Type} {f : Workspace → α → Workspace} (h : ∀ w a, SameDeclarations w (f w a)) (as : List α)
    (w : Workspace) : SameDeclarations w (as.foldl f w) := by
  induction as generalizing w with
  | nil => exact refl w
  | cons a as ih => exact (h w a).trans (ih (f w a))

theorem updateFile (w : Workspace) (id : OutputId) {f : File → File} (hp : ∀ file, (f file).package = file.package)
    (hd : ∀ file, (f file).declarations = file.declarations) : SameDeclarations w (w.updateFile id f) :=
  ⟨.updateFile w id hp, fun i => by
    rw [file_updateFile]
    split
    · exact hd _
    · rfl⟩

theorem addImport (w : Workspace) (id : OutputId) (i : Import) : SameDeclarations w (w.addImport id i) :=
  updateFile w id (fun f => by split <;> rfl) fun f => by split <;> rfl

theorem addReference (w : Workspace) (id : OutputId) (name : String) : SameDeclarations w (w.addReference id name) :=
  updateFile w id (fun _ => rfl) fun _ => rfl

theorem addReferences (w : Workspace) (id : OutputId) (names : List String) :
    SameDeclarations w (w.addReferences id names) := by
  rw [Workspace.addReferences]
  exact foldl (fun w name => addReference w id name) names w

theorem addFunction (w : Workspace) (id : OutputId) (f : Function) : SameDeclarations w (w.addFunction id f) :=
  updateFile w id (fun _ => rfl) fun _ => rfl

end SameDeclarations

end Workspace

end Counterpart.Output
