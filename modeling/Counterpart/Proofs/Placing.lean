/-
What the steps of a walk do. Placing a class (`place_cases`) either skips it, because its name is taken, or makes a free
address lead to its shell; finishing a class (`finish_cases`) sets the parameters at its own address. Both succeed where
the walk calls for them (`exists_place`, `exists_finish`).
-/
import Counterpart.Entity.Walk
import Counterpart.Proofs.Address
import Counterpart.Proofs.Outcomes
import Counterpart.Proofs.Substitution

namespace Counterpart.Entity

open Kotlin Output

/-! ## The table -/

namespace Table

variable {t : Table} {c d : ClassId} {o : Outcome}

theorem outcome?_add (h : t.contains c = false) (o : Outcome) (d : ClassId) :
    (t.add c o).outcome? d = if d = c then some o else t.outcome? d := by
  have hc : t.outcome? c = none := by simpa [contains] using h
  rw [outcome?, Option.map_eq_none_iff] at hc
  simp only [outcome?, add, List.find?_append]
  by_cases hd : d = c
  · subst hd
    simp [hc]
  · simp [hd, Ne.symm hd]

theorem ref?_add (h : t.contains c = false) (o : Outcome) (d : ClassId) :
    (t.add c o).ref? d = if d = c then o.ref? else t.ref? d := by
  rw [ref?, outcome?_add h]
  by_cases hd : d = c <;> simp [hd, ref?]

theorem contains_add (h : t.contains c = false) (o : Outcome) (d : ClassId) :
    (t.add c o).contains d = true ↔ d = c ∨ t.contains d = true := by
  rw [contains, outcome?_add h, contains]
  by_cases hd : d = c <;> simp [hd]

theorem contains_of_ref? {r : Ref} (h : t.ref? c = some r) : t.contains c = true := by
  obtain ⟨o, ho, -⟩ := Option.bind_eq_some_iff.mp h
  simp [contains, ho]

/-- What became of a class stays when another one is added. -/
theorem ref?_add_of_contains (h : t.contains c = false) (hd : t.contains d = true) :
    (t.add c o).ref? d = t.ref? d := by
  rw [ref?_add h, if_neg]
  rintro rfl
  rw [h] at hd
  cases hd

theorem ref?_add_of_ref? (h : t.contains c = false) {r : Ref} (hr : t.ref? d = some r) : (t.add c o).ref? d = some r := by
  rw [ref?_add_of_contains h (contains_of_ref? hr), hr]

/-- A class that is skipped has no counterpart, and those of the others stay. -/
theorem ref?_add_skipped (h : t.contains c = false) (d : ClassId) : (t.add c .skipped).ref? d = t.ref? d := by
  rw [ref?_add h]
  split
  next hd =>
    have hnone : t.outcome? c = none := by simpa [contains] using h
    rw [hd, ref?, hnone]
    rfl
  next => rfl

/-- The counterparts when a class is generated: its own and those that there were. -/
theorem ref?_add_generated_iff {target r : Ref} (h : t.contains c = false) :
    (t.add c (.generated target)).ref? d = some r ↔ d = c ∧ r = target ∨ t.ref? d = some r := by
  constructor
  · intro hd
    rw [ref?_add h] at hd
    split at hd
    next hdc => exact .inl ⟨hdc, (Option.some.inj hd).symm⟩
    next => exact .inr hd
  · rintro (⟨rfl, rfl⟩ | hd)
    · rw [ref?_add h, if_pos rfl, Outcome.ref?]
    · exact ref?_add_of_ref? h hd

theorem contains_iff_mem : t.contains c = true ↔ c ∈ t.entries.map (·.1) := by
  simp [contains, outcome?, List.find?_isSome]

end Table

namespace Generator

variable {g : Generator} {s s' : State} {c : ClassId} {scope : Option Scope} {new : List Step}

/-! ## Placing a class -/

/-- **Placing a class** either skips it, with a warning, or adds its shell where the name is free. -/
theorem place_cases (h : g.place c scope s = .ok (s', new)) :
    ∃ place, g.placeOf c scope = .ok place ∧
      ((s.workspace.holds place (g.naming.className g.project c) = true ∧ new = [] ∧
          ∃ message, s' = { s.warn message (g.project.qualifiedName c) with table := s.table.add c .skipped }) ∨
        (s.workspace.holds place (g.naming.className g.project c) = false ∧
          ∃ target w, target = place.refTo (g.naming.className g.project c) ∧
            s.workspace.addDeclaration place (g.shell c) = .ok w ∧ new = g.fieldSteps ⟨c, target⟩ ∧
            s' = { s with
              workspace := (g.copiedImports c).foldl (fun w i => w.addImport target.file i) w
              table := s.table.add c (.generated target) })) := by
  rw [Generator.place] at h
  obtain ⟨place, hplace, h⟩ := exists_of_bind_ok h
  refine ⟨place, hplace, ?_⟩
  dsimp only at h
  split at h
  next hheld =>
    cases h
    exact .inl ⟨hheld, rfl, _, rfl⟩
  next hfree =>
    obtain ⟨w, hw, h⟩ := exists_of_bind_ok h
    cases h
    exact .inr ⟨by simpa using hfree, _, w, rfl, hw, rfl, rfl⟩

theorem placeOf_cases {place : Place} (h : g.placeOf c scope = .ok place) :
    (∃ file, g.plan.entityFile? (g.project.decl c).file = some file ∧ place = .topLevel file) ∨
      ∃ sc, scope = some sc ∧ g.project.isNestedIn c sc.source = true ∧ place = .inside sc.target := by
  simp only [placeOf] at h
  cases hfile : g.plan.entityFile? (g.project.decl c).file with
  | some file =>
    simp only [hfile] at h
    split at h
    · split at h
      next hn => cases h; exact .inr ⟨_, rfl, hn, rfl⟩
      next => cases h; exact .inl ⟨file, rfl, rfl⟩
    · cases h; exact .inl ⟨file, rfl, rfl⟩
  | none =>
    simp only [hfile] at h
    split at h
    · split at h
      next hn => cases h; exact .inr ⟨_, rfl, hn, rfl⟩
      next => cases h
    · cases h

/-- A class whose file is planned has a place. -/
theorem exists_placeOf {file : OutputId} (h : g.plan.entityFile? (g.project.decl c).file = some file)
    (scope : Option Scope) : ∃ place, g.placeOf c scope = .ok place := by
  simp only [placeOf, h]
  split
  · split <;> exact ⟨_, rfl⟩
  · exact ⟨_, rfl⟩

/-- A class whose file is planned is placed, if the class that names it has its counterpart. -/
theorem exists_place {file : OutputId} (hfile : g.plan.entityFile? (g.project.decl c).file = some file)
    (hscope : ∀ sc, scope = some sc → (s.workspace.alone? sc.target).isSome = true) :
    ∃ s' new, g.place c scope s = .ok (s', new) := by
  obtain ⟨place, hplace⟩ := exists_placeOf hfile scope
  obtain ⟨w, hw⟩ : ∃ w, s.workspace.addDeclaration place (g.shell c) = .ok w := by
    refine Workspace.exists_addDeclaration _ ?_
    rintro parent rfl
    rcases placeOf_cases hplace with ⟨_, _, h⟩ | ⟨sc, hsc, _, h⟩
    · cases h
    · cases h; exact hscope sc hsc
  simp only [Generator.place, hplace, hw, bind, Except.bind, pure, Except.pure]
  split <;> exact ⟨_, _, rfl⟩

/-- A free name in a place is an address that leads nowhere. -/
theorem alone?_refTo_of_free {w : Workspace} {place : Place} {name : String}
    (hparent : ∀ parent, place = .inside parent → (w.alone? parent).isSome = true)
    (h : w.holds place name = false) : w.alone? (place.refTo name) = none := by
  cases place with
  | topLevel file =>
    simpa [Workspace.holds, Place.refTo, Ref.topLevel, Workspace.alone?, Workspace.declaration?, Declaration.at?] using h
  | inside parent =>
    obtain ⟨d, hd⟩ := Option.isSome_iff_exists.mp (hparent parent rfl)
    obtain ⟨d, hd, -⟩ := Option.map_eq_some_iff.mp hd
    have hat : Declaration.at? (parent.path ++ [name]) (w.file parent.file).declarations =
        Declaration.at? [name] d.nested := Declaration.at?_append hd (List.cons_ne_nil _ _)
    have : Declaration.findIn? name d.nested = none := by
      simpa [Workspace.holds, hd, Declaration.findNested?] using h
    simp [Place.refTo, Ref.child, Workspace.alone?, Workspace.declaration?, hat, Declaration.at?, this]

/-! ## Finishing a class -/

/-- The counterpart of a class with its parameters, without the declarations inside it. -/
def counterpart (g : Generator) (t : Table) (c : ClassId) : Declaration :=
  { g.shell c with
    params := g.params t c
    kind := if !(g.project.decl c).isEnum && (g.params t c).isEmpty then .plain else (g.shell c).kind }

/-- The declaration with these parameters; a data class without any becomes a plain one. -/
def withParams (params : List Param) (d : Declaration) : Declaration :=
  { d with params, kind := if d.kind = .data ∧ params = [] then .plain else d.kind }

/-- What finishing a class makes of the declaration at its address. -/
def finished (g : Generator) (sc : Scope) (s : State) (d : Declaration) : Declaration :=
  { d with
    params := g.params s.table sc.source
    kind := if (s.workspace.declaration? sc.target).any (·.kind == .data) && (g.params s.table sc.source).isEmpty then .plain
      else d.kind }

theorem params_congr {t t' : Table} (h : ∀ d ∈ g.project.mentions c, t.ref? d = t'.ref? d) :
    g.params t c = g.params t' c := by
  refine List.map_congr_left fun f hf => ?_
  rw [ParamDraft.ofField_congr fun d hd => h d (List.mem_flatMap.mpr ⟨f, hf, hd⟩)]

theorem counterpart_congr {t t' : Table} (h : ∀ d ∈ g.project.mentions c, t.ref? d = t'.ref? d) :
    g.counterpart t c = g.counterpart t' c := by
  rw [counterpart, counterpart, params_congr h]

theorem kind_shell (g : Generator) (c : ClassId) :
    (g.shell c).kind = if (g.project.decl c).isEnum then .enum else .data := rfl

/-- Finishing a class updates the declaration at its address and nothing else, but for a warning about the class. -/
theorem finish_ok {sc : Scope} (h : g.finish sc s = .ok s') :
    ∃ w, s.workspace.updateDeclaration sc.target (g.finished sc s) = .ok w ∧
      (s' = { s with workspace := w } ∨
        ∃ message, s' = State.warn { s with workspace := w } message (g.project.qualifiedName sc.source)) := by
  rw [finish] at h
  obtain ⟨w, hw, h⟩ := exists_of_bind_ok h
  refine ⟨w, hw, ?_⟩
  split at h <;> cases h
  · exact .inr ⟨_, rfl⟩
  · exact .inl rfl

/-- **Finishing a class** sets the parameters of its counterpart and changes no other declaration. -/
theorem finish_cases {sc : Scope} (h : g.finish sc s = .ok s') :
    s'.table = s.table ∧
      (∃ f, (∀ d, (f d).name = d.name) ∧ (∀ d, (f d).nested = d.nested) ∧
        s.workspace.updateDeclaration sc.target f = .ok s'.workspace) ∧
      ∀ q, s'.workspace.alone? q =
        if q = sc.target then (s.workspace.alone? q).map (withParams (g.params s.table sc.source))
        else s.workspace.alone? q := by
  obtain ⟨w, hw, hs'⟩ := finish_ok h
  have hview := Workspace.alone?_updateDeclaration (by intro d; rfl) (by intro d; rfl) (by intro d; rfl) hw
  have hkept : s'.table = s.table ∧ s'.workspace = w := by
    rcases hs' with rfl | ⟨message, rfl⟩ <;> exact ⟨rfl, rfl⟩
  rw [hkept.1, hkept.2]
  refine ⟨rfl, ⟨_, by intro d; rfl, by intro d; rfl, hw⟩, fun q => ?_⟩
  rw [hview]
  by_cases hq : q = sc.target
  · subst hq
    rw [if_pos rfl, if_pos rfl, Workspace.alone?]
    cases hd : s.workspace.declaration? sc.target with
    | none => rfl
    | some d => simp [Declaration.alone, withParams, finished, hd]
  · rw [if_neg hq, if_neg hq]

theorem exists_finish {sc : Scope} (h : (s.workspace.alone? sc.target).isSome = true) :
    ∃ s', g.finish sc s = .ok s' := by
  obtain ⟨w, hw⟩ := Workspace.exists_updateDeclaration (g.finished sc s) h
  show ∃ s', (s.workspace.updateDeclaration sc.target (g.finished sc s) >>= fun w => _) = .ok s'
  rw [hw]
  dsimp only [bind, Except.bind]
  split <;> exact ⟨_, rfl⟩

/-- Setting the parameters makes the shell of a class its counterpart. -/
theorem withParams_shell (t : Table) : withParams (g.params t c) (g.shell c) = g.counterpart t c := by
  rw [counterpart, withParams, kind_shell]
  cases (g.project.decl c).isEnum <;> simp

theorem withParams_counterpart (t : Table) : withParams (g.params t c) (g.counterpart t c) = g.counterpart t c := by
  rw [counterpart, withParams, kind_shell]
  cases (g.project.decl c).isEnum <;> simp

/-! ## Fields -/

theorem foldl_warn (cs : List ClassId) (message : ClassId → String) (location : String) (s : State) :
    (cs.foldl (fun s c => s.warn (message c) location) s).table = s.table ∧
      (cs.foldl (fun s c => s.warn (message c) location) s).workspace = s.workspace := by
  induction cs generalizing s with
  | nil => exact ⟨rfl, rfl⟩
  | cons c cs ih => exact ih (s.warn (message c) location)

theorem table_addField (sc : Scope) (f : Field) (s : State) : (g.addField sc f s).table = s.table :=
  (foldl_warn ..).1

/-- A field adds the imports of its parameter. -/
theorem workspace_addField (sc : Scope) (f : Field) (s : State) :
    (g.addField sc f s).workspace = s.workspace.addReferences sc.target.file
      (ParamDraft.ofField g.project g.naming s.table sc.source f).imports :=
  (foldl_warn ..).2

end Generator

end Counterpart.Entity
