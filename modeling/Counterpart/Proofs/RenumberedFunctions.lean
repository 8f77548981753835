/-
Functions that differ in numbers. Over renumbered classes every conversion is the same and calls for the same classes
(`Setting.Renumbered.element`, `argument`), so the queue serves the same functions in the same order (`Renumbered.allDrafts`).
-/
import Counterpart.Proofs.Drafts
import Counterpart.Proofs.RenumberedEntities

namespace Counterpart.Mapper

open Kotlin Output Entity

variable {f : ClassId → ClassId} {ρ : OutputId → OutputId}

/-! ## Other numbers -/

def Built.renumber (f : ClassId → ClassId) (b : Built) : Built := { b with calls := b.calls.map f }

def Side.renumber (f : ClassId → ClassId) (s : Side) : Side := ⟨s.built.renumber f, s.nullable⟩

/-- The function with other numbers for the classes and the file. -/
def Draft.renumber (f : ClassId → ClassId) (ρ : OutputId → OutputId) (d : Draft) : Draft :=
  ⟨d.function.renumber f, d.target.renumber ρ, d.calls.map f, d.imports, d.diagnostics⟩

@[simp] theorem Built.conversion_renumber (b : Built) : (b.renumber f).conversion = b.conversion := rfl

theorem Built.both_renumber (c : Conversion) (a b : Built) :
    (both c a b).renumber f = both c (a.renumber f) (b.renumber f) := by
  simp only [both, renumber, List.map_append]

/-- The two settings are over classes and files with other numbers. -/
structure Setting.Renumbered (f : ClassId → ClassId) (ρ : OutputId → OutputId) (dom : ClassId → Prop) (g g' : Setting) :
    Prop where
  project : g.project.Renumbered f dom g'.project
  naming : g'.naming = g.naming.renumber f
  table : g'.table = g.table.renumber f ρ

namespace Setting.Renumbered

variable {dom : ClassId → Prop} {g g' : Setting} {c : ClassId}

theorem ref? (h : g.Renumbered f ρ dom g') (c : ClassId) : g'.table.ref? (f c) = (g.table.ref? c).map (Ref.renumber ρ) := by
  rw [h.table, Table.ref?_renumber h.project.injective]

theorem functionName (h : g.Renumbered f ρ dom g') : g'.naming.functionName = g.naming.functionName := by
  rw [h.naming]
  rfl

theorem fieldName (h : g.Renumbered f ρ dom g') (name : String) : g'.naming.fieldName name = g.naming.fieldName name := by
  rw [h.naming]
  rfl

/-! ## Conversions -/

theorem convertMap (h : g.Renumbered f ρ dom g') (kind : MapKind) (args : List (TypeArg ResolvedType))
    (key value : Option Side) :
    g'.convertMap kind (ResolvedType.renumberArgs f args) (key.map (Side.renumber f)) (value.map (Side.renumber f)) =
      (g.convertMap kind args key value).renumber f := by
  have htext : (substituteArgs g'.project g'.table.ref? (ResolvedType.renumberArgs f args)) =
      (substituteArgs g.project g.table.ref? args).renumber f ρ := substituteArgs_renumber h.project h.ref? args
  cases key with
  | none =>
    cases value with
    | none => rfl
    | some v =>
      simp only [Option.map_none, Option.map_some, Setting.convertMap, Side.renumber, Built.conversion_renumber]
      rw [apply_ite (Built.renumber f)]
      rfl
  | some k =>
    cases value with
    | none =>
      simp only [Option.map_none, Option.map_some, Setting.convertMap, Side.renumber, Built.conversion_renumber]
      rw [apply_ite (Built.renumber f)]
      rfl
    | some v =>
      simp only [Option.map_some, Setting.convertMap, htext, Side.renumber, ← Built.both_renumber, Built.conversion_renumber]
      rw [apply_ite (Built.renumber f)]
      rfl

theorem join_getElem?_map (sides : List (Option Side)) (i : Nat) :
    (sides.map (Option.map (Side.renumber f)))[i]?.join = (sides[i]?.join).map (Side.renumber f) := by
  rw [List.getElem?_map]
  rcases sides[i]? with _ | _ | _ <;> rfl

theorem foldl_both (sides : List Side) (b : Built) :
    (sides.map (Side.renumber f)).foldl (fun b side => b.both .identity side.built) (b.renumber f) =
      (sides.foldl (fun b side => b.both .identity side.built) b).renumber f := by
  induction sides generalizing b with
  | nil => rfl
  | cons side sides ih => rw [List.map_cons, List.foldl_cons, List.foldl_cons, ← ih, Built.both_renumber, Side.renumber]

theorem combine (h : g.Renumbered f ρ dom g') (base : GenericBase) (args : List (TypeArg ResolvedType))
    (sides : List (Option Side)) :
    g'.combine base (ResolvedType.renumberArgs f args) (sides.map (Option.map (Side.renumber f))) =
      (g.combine base args sides).renumber f := by
  cases base with
  | collection kind =>
    simp only [Setting.combine, join_getElem?_map]
    cases sides[0]?.join <;> rfl
  | map kind =>
    simp only [Setting.combine, join_getElem?_map]
    exact h.convertMap kind args _ _
  | pair =>
    simp only [Setting.combine, join_getElem?_map]
    cases sides[0]?.join with
    | none => rfl
    | some first =>
      cases sides[1]?.join with
      | none => rfl
      | some second => exact (Built.both_renumber _ _ _).symm
  | other =>
    simp only [Setting.combine, GenericBase.filterMap_map, List.all_map]
    have hfold := foldl_both (f := f) (sides.filterMap id) (.pure .identity)
    rw [show (Built.pure .identity).renumber f = .pure .identity from rfl] at hfold
    rw [hfold]
    simp only [Function.comp_def, Side.renumber, Built.conversion_renumber]
    rw [apply_ite (Built.renumber f)]
    rfl

mutual

/-- **The conversion of a value** is the same. -/
theorem element (h : g.Renumbered f ρ dom g') : ∀ t : ResolvedType, g'.element (t.renumber f) = (g.element t).renumber f
  | ⟨written, qualifiedName, importName, classId, args⟩ => by
    have hcategory := h.project.categoryOf ⟨written, qualifiedName, importName, classId, args⟩
    rw [ResolvedType.renumber] at hcategory ⊢
    rw [Setting.element, Setting.element, hcategory]
    cases g.project.categoryOf ⟨written, qualifiedName, importName, classId, args⟩ with
    | userClass id kind =>
      simp only [Category.renumber, h.ref?, Option.isSome_map, h.functionName]
      split <;> rfl
    | generic base =>
      simp only [Category.renumber, elements h args]
      exact h.combine base args (g.elements args)
    | unsupported id => rfl
    | basic b => rfl
    | foreign => rfl

theorem elements (h : g.Renumbered f ρ dom g') : ∀ as : List (TypeArg ResolvedType),
    g'.elements (ResolvedType.renumberArgs f as) = (g.elements as).map (Option.map (Side.renumber f))
  | [] => rfl
  | a :: as => by
    rw [ResolvedType.renumberArgs, Setting.elements, Setting.elements, elementOf h a, elements h as, List.map_cons]

theorem elementOf (h : g.Renumbered f ρ dom g') : ∀ a : TypeArg ResolvedType,
    g'.elementOf (ResolvedType.renumberArg f a) = (g.elementOf a).map (Side.renumber f)
  | .star => rfl
  | .type _ ty => by
    rw [ResolvedType.renumberArg, Setting.elementOf, Setting.elementOf, element h ty, ResolvedType.nullable_renumber]
    rfl

end

/-! ## Functions -/

theorem arms (h : g.Renumbered f ρ dom g') (c : ClassId) (target : Ref) :
    g'.arms (f c) (target.renumber ρ) = g.arms c target := by
  simp only [Setting.arms, (h.project.decl c).entries, h.project.nestedPath, Ref.qualifiedName_renumber]

theorem importOf (h : g.Renumbered f ρ dom g') (hc : dom c) : g'.importOf (f c) = g.importOf c := by
  rw [Setting.importOf, h.project.outermost c hc, h.project.qualifiedName (h.project.dom_outermost c hc), Setting.importOf]

/-- **The argument for a field** is the same. -/
theorem argument (h : g.Renumbered f ρ dom g') (hc : dom c) (fd : Field) :
    g'.argument (f c) fd = ((g.argument c fd).1, (g.argument c fd).2.renumber f) := by
  simp only [Setting.argument, h.project.resolve hc, h.project.categoryOf, ResolvedType.nullable_renumber, h.fieldName,
    h.functionName, ResolvedType.args_renumber]
  cases hcategory : g.project.categoryOf (g.project.resolve c fd.ty) with
  | userClass id kind =>
    have hid : dom id := h.project.supported id (Project.isSupported_of_userClass hcategory)
    simp only [Category.renumber, h.ref?, h.importOf hid]
    cases g.table.ref? id with
    | none => rfl
    | some target =>
      cases kind with
      | data => rfl
      | enum =>
        simp only [Option.map_some, h.arms]
        rfl
  | generic base =>
    simp only [Category.renumber, h.elements, h.combine]
    rfl
  | unsupported id => rfl
  | basic b => rfl
  | foreign => rfl

theorem warningFor (h : g.Renumbered f ρ dom g') (hc : dom c) (fd : Field) :
    g'.warningFor (f c) fd = g.warningFor c fd := by
  funext o
  rw [Setting.warningFor, h.project.qualifiedName hc, Setting.warningFor]

/-- **The function of a class** is the same. -/
theorem draft (h : g.Renumbered f ρ dom g') (hc : dom c) (target : Ref) :
    g'.draft (f c) (target.renumber ρ) = (g.draft c target).renumber f ρ := by
  simp only [Setting.draft, h.project.isEnum, (h.project.decl c).typeParams, h.project.nestedPath, h.functionName,
    Ref.qualifiedName_renumber, h.arms, h.importOf hc, h.project.visibleFields, h.argument hc]
  split
  · rfl
  · simp only [Draft.renumber, Function.renumber, List.map_map, List.flatMap_map, List.map_flatMap, Built.renumber,
      h.warningFor hc, Function.comp_def]

theorem draft? (h : g.Renumbered f ρ dom g') (hc : dom c) :
    Agree (fun o o' => o' = o.map (Draft.renumber f ρ)) (g.draft? c) (g'.draft? (f c)) := by
  rw [Setting.draft?, Setting.draft?, h.table, Table.outcome?_renumber h.project.injective, h.project.qualifiedName hc]
  cases g.table.outcome? c with
  | none => exact .error _
  | some o =>
    cases o with
    | skipped => exact .ok rfl
    | generated target => exact .ok (congrArg some (h.draft hc target))

end Setting.Renumbered

/-! ## The queue -/

theorem enqueue_renumber (hf : Function.Injective f) (calls : List ClassId) {remaining remaining' : List ClassId}
    (hr : SameRemaining f remaining remaining') (queue : List ClassId) :
    SameRemaining f (enqueue calls remaining queue).1 (enqueue (calls.map f) remaining' (queue.map f)).1 ∧
      (enqueue (calls.map f) remaining' (queue.map f)).2 = (enqueue calls remaining queue).2.map f := by
  induction calls generalizing remaining remaining' queue with
  | nil => exact ⟨hr, rfl⟩
  | cons c calls ih =>
    rw [List.map_cons, enqueue, enqueue]
    simp only [hr.mem]
    split
    · rw [show queue.map f ++ [f c] = (queue ++ [c]).map f by rw [List.map_append, List.map_singleton]]
      exact ih (hr.erase hf c) (queue ++ [c])
    · exact ih hr queue

namespace Setting.Renumbered

variable {dom : ClassId → Prop} {g g' : Setting}

/-- **Serving the queue** gives the same functions in the same order. -/
theorem drafts (h : g.Renumbered f ρ dom g') {remaining remaining' queue : List ClassId}
    (hr : SameRemaining f remaining remaining') (hqueue : ∀ c ∈ queue, dom c) :
    g'.drafts remaining' (queue.map f) =
      ((g.drafts remaining queue).1.map (Draft.renumber f ρ), (g.drafts remaining queue).2) := by
  fun_induction g.drafts remaining queue generalizing remaining' with
  | case1 =>
    rw [List.map_nil, Setting.drafts]
    rfl
  | case2 remaining c queue e hd =>
    have hdraft := h.draft? (hqueue c List.mem_cons_self)
    rw [hd] at hdraft
    rw [List.map_cons, Setting.drafts, hdraft.of_error]
    rfl
  | case3 remaining c queue hd ih =>
    have hdraft := h.draft? (hqueue c List.mem_cons_self)
    rw [hd] at hdraft
    obtain ⟨_, hd', rfl⟩ := hdraft.of_ok
    rw [List.map_cons, Setting.drafts, hd']
    exact ih hr fun d hd => hqueue d (List.mem_cons_of_mem c hd)
  | case4 remaining c queue d hd ih =>
    have hdraft := h.draft? (hqueue c List.mem_cons_self)
    rw [hd] at hdraft
    obtain ⟨_, hd', rfl⟩ := hdraft.of_ok
    obtain ⟨hremaining, hnext⟩ := enqueue_renumber h.project.injective d.calls hr queue
    have hcalls : ∀ e ∈ d.calls, dom e := by
      intro e he
      obtain ⟨r, rfl⟩ : ∃ r, d = g.draft c r := by
        rw [Setting.draft?] at hd
        split at hd
        next r _ => cases hd; exact ⟨r, rfl⟩
        · cases hd
        · cases hd
      rw [calls_draft] at he
      exact h.project.dom_of_mentions (Project.mem_mentions_of_conversions (mem_calls.mp he).2.1)
    have hrest := ih hremaining fun e he => (mem_or_mem_of_mem_enqueue he).elim
      (fun he => hqueue e (List.mem_cons_of_mem c he)) (hcalls e)
    rw [List.map_cons, Setting.drafts, hd']
    simp only [Option.map_some, Draft.renumber, hnext, hrest]
    rfl

theorem allDrafts (h : g.Renumbered f ρ dom g') (hroot : dom g.naming.root) :
    g'.allDrafts = (g.allDrafts.1.map (Draft.renumber f ρ), g.allDrafts.2) := by
  have hroot' : g'.naming.root = f g.naming.root := by rw [h.naming]; rfl
  obtain ⟨hremaining, hqueue⟩ := enqueue_renumber h.project.injective [g.naming.root] h.project.sameRemaining []
  rw [Setting.allDrafts, Setting.allDrafts, hroot']
  simp only [List.map_cons, List.map_nil] at hremaining hqueue ⊢
  rw [hqueue]
  refine h.drafts hremaining fun c hc => ?_
  rcases mem_or_mem_of_mem_enqueue hc with hc | hc
  · cases hc
  · rwa [List.mem_singleton.mp hc]

/-! ## The run -/

theorem addDraft {plan plan' : Plan} (hplan : ∀ r, fileOf plan' (r.renumber ρ) = ρ (fileOf plan r)) {s s' : State}
    (hw : s.workspace.Alike f ρ s'.workspace) (d : Draft) :
    (s.addDraft plan d).workspace.Alike f ρ (s'.addDraft plan' (d.renumber f ρ)).workspace := by
  have hfile := (hw.addReferences (fileOf plan d.target) d.imports).addFunction (fileOf plan d.target) d.function
  rw [← hplan d.target] at hfile
  exact hfile

/-- **The functions** are the same in both generations. -/
theorem run {plan plan' : Plan} {w w' : Workspace} (h : g.Renumbered f ρ dom g') (hroot : dom g.naming.root)
    (hplan : ∀ r, fileOf plan' (r.renumber ρ) = ρ (fileOf plan r)) (hw : w.Alike f ρ w') :
    (g.run plan w).1.Alike f ρ (g'.run plan' w').1 ∧ (g'.run plan' w').2 = (g.run plan w).2 := by
  have hafter : ∀ (ds : List Draft) (s s' : State), s.workspace.Alike f ρ s'.workspace →
      (afterDrafts plan s ds).workspace.Alike f ρ (afterDrafts plan' s' (ds.map (Draft.renumber f ρ))).workspace := by
    intro ds
    induction ds with
    | nil => exact fun _ _ hs => hs
    | cons d ds ih => exact fun _ _ hs => ih _ _ (addDraft hplan hs d)
  have hfiles := hafter g.allDrafts.1 ⟨w, []⟩ ⟨w', []⟩ hw
  have hmessages : (afterDrafts plan' ⟨w', []⟩ (g.allDrafts.1.map (Draft.renumber f ρ))).diagnostics =
      (afterDrafts plan ⟨w, []⟩ g.allDrafts.1).diagnostics := by
    rw [diagnostics_afterDrafts, diagnostics_afterDrafts, List.flatMap_map]
    rfl
  rw [run_eq, run_eq, h.allDrafts hroot]
  generalize g.allDrafts = r at hfiles hmessages ⊢
  obtain ⟨ds, o⟩ := r
  cases o with
  | some e => exact ⟨hfiles, rfl⟩
  | none => exact ⟨hfiles, congrArg Except.ok hmessages⟩

end Setting.Renumbered

end Counterpart.Mapper
