/-
Branches over the constants of an enum, which are written in two places: in the argument for a field of the enum and in the
enum's own function. Both have the same branches, but only the function quotes the keywords in them, so the lines are the same
exactly when there is no keyword to quote (`Hooks.branchLines_same_iff`).
-/
import Counterpart.Proofs.EmittedFunctions
import Counterpart.Proofs.Run

namespace Counterpart

open Kotlin Output Text

namespace Kotlin

/-! ## Paths without keywords -/

/-- No segment of a dotted name is a keyword. -/
def Keywordless (path : String) : Prop := ∀ segment ∈ split '.' path, isReserved segment = false

instance : DecidablePred Keywordless := fun path => inferInstanceAs (Decidable (∀ segment ∈ split '.' path, _))

/-- Quoting makes a text longer when a segment is a keyword, and leaves it as it is otherwise. -/
theorem length_join_safeName (segments : List String) :
    (join "." segments).length ≤ (join "." (segments.map safeName)).length ∧
      ((join "." (segments.map safeName)).length ≤ (join "." segments).length → ∀ s ∈ segments, isReserved s = false) := by
  have hsegment (s : String) : s.length ≤ (safeName s).length ∧ ((safeName s).length ≤ s.length → isReserved s = false) := by
    rw [safeName]
    split
    next =>
      have hquote : "`".length = 1 := rfl
      rw [String.length_append, String.length_append, hquote]
      exact ⟨by omega, fun h => by omega⟩
    next h => exact ⟨Nat.le_refl _, fun _ => by simpa using h⟩
  induction segments with
  | nil => exact ⟨Nat.le_refl _, fun _ => by simp⟩
  | cons s segments ih =>
    obtain ⟨hle, hfree⟩ := hsegment s
    cases segments with
    | nil => exact ⟨hle, fun h => by simpa using hfree h⟩
    | cons t segments =>
      obtain ⟨hle', hfree'⟩ := ih
      rw [List.map_cons, join_cons (List.cons_ne_nil t segments), join_cons (show (t :: segments).map safeName ≠ [] by simp)]
      simp only [String.length_append] at hle' hfree' ⊢
      refine ⟨by omega, fun h => ?_⟩
      rw [List.forall_mem_cons]
      exact ⟨hfree (by omega), hfree' (by omega)⟩

theorem length_le_safePath (path : String) : path.length ≤ (safePath path).length := by
  have := (length_join_safeName (split '.' path)).1
  rwa [show join "." (split '.' path) = path from join_split '.' path] at this

theorem keywordless_of_length {path : String} (h : (safePath path).length ≤ path.length) : Keywordless path := by
  have hjoin : join "." (split '.' path) = path := join_split '.' path
  refine (length_join_safeName (split '.' path)).2 ?_
  rwa [hjoin]

theorem safePath_of_keywordless {path : String} (h : Keywordless path) : safePath path = path := by
  have hmap : (split '.' path).map safeName = split '.' path := by
    refine (List.map_congr_left fun s hs => ?_).trans (List.map_id _)
    rw [safeName, h s hs, if_neg Bool.false_ne_true, id]
  rw [safePath, hmap]
  exact join_split '.' path

theorem keywordless_append {s t : String} : Keywordless (s ++ "." ++ t) ↔ Keywordless s ∧ Keywordless t := by
  have htext : (s ++ "." ++ t).toList = s.toList ++ '.' :: t.toList := by
    rw [String.toList_append, String.toList_append, List.append_assoc]
    rfl
  rw [Keywordless, split, htext, splitBy_append rfl, List.map_append, List.forall_mem_append]
  rfl

end Kotlin

namespace Code

/-! ## The lines of branches -/

/-- The lines of the branches over constants in the value of an argument. The branch that keeps null stands behind them. -/
def ArgumentBranches (a : Argument) (lines : List String) : Prop :=
  (expressionOf a.conversion (safeName a.source) a.nullable).lines =
    ("when (" ++ safeName a.source ++ ") \x7b") ::
      (lines ++ ((nullBranch a.nullable).map ("    " ++ ·) ++ ["\x7d"]))

/-- The lines of the branches over constants that a function consists of. -/
def FunctionBranches (f : Output.Function) (lines : List String) : Prop :=
  (FunctionCode.ofFunction f).fragments =
    (((FunctionCode.ofFunction f).signature ++ "when (this) \x7b") :: (lines ++ ["\x7d"])).map .line

/-- An argument and a function have the same branches, line for line. -/
def SameBranches (a : Argument) (f : Output.Function) : Prop :=
  ∃ lines, ArgumentBranches a lines ∧ FunctionBranches f lines

/-- The line of a branch. -/
def branchLine (a : Arm) : String := "    " ++ branch a

/-- The branch with its keywords quoted. -/
def quotedArm (a : Arm) : Arm := ⟨safePath a.source, safePath a.target⟩

theorem argumentBranches_iff {a : Argument} {arms : List Arm} (h : a.conversion = .enumWhen arms) {lines : List String} :
    ArgumentBranches a lines ↔ lines = arms.map branchLine := by
  have hlines : (expressionOf a.conversion (safeName a.source) a.nullable).lines =
      ("when (" ++ safeName a.source ++ ") \x7b") ::
        (arms.map branchLine ++ ((nullBranch a.nullable).map ("    " ++ ·) ++ ["\x7d"])) := by
    rw [h]
    show _ :: ((arms.map branch ++ nullBranch a.nullable).map ("    " ++ ·) ++ ["\x7d"]) = _
    rw [List.map_append, List.map_map, List.append_assoc]
    rfl
  rw [ArgumentBranches, hlines, List.cons.injEq, List.append_left_inj, eq_comm (a := lines)]
  simp

theorem functionBranches_iff {f : Output.Function} {arms : List Arm} (h : f.body = .enumWhen arms) {lines : List String} :
    FunctionBranches f lines ↔ lines = arms.map fun a => branchLine (quotedArm a) := by
  have hbody : (FunctionCode.ofFunction f).body = .branches ⟨"this", arms.map quotedArm, false⟩ := by
    rw [FunctionCode.ofFunction, h]
    rfl
  have hlines : (When.mk "this" (arms.map quotedArm) false).expression.lines =
      "when (this) \x7b" :: ((arms.map fun a => branchLine (quotedArm a)) ++ ["\x7d"]) := by
    show _ :: (((arms.map quotedArm).map branch ++ nullBranch false).map ("    " ++ ·) ++ ["\x7d"]) = _
    rw [nullBranch, if_neg Bool.false_ne_true, List.append_nil, List.map_map, List.map_map]
    rfl
  have hinjective : Function.Injective Fragment.line := fun _ _ h => Fragment.line.inj h
  rw [FunctionBranches, FunctionCode.fragments_of_branches hbody hlines, hinjective.list_map.eq_iff, List.cons.injEq,
    List.append_left_inj, eq_comm (a := lines)]
  simp

/-- A branch has the line of the quoted one when it has no keyword. -/
theorem branchLine_quotedArm_iff {a : Arm} :
    branchLine a = branchLine (quotedArm a) ↔ Keywordless a.source ∧ Keywordless a.target := by
  constructor
  · intro h
    have hlength := congrArg String.length h
    simp only [branchLine, branch, quotedArm, String.length_append] at hlength
    have hsource := length_le_safePath a.source
    have htarget := length_le_safePath a.target
    exact ⟨keywordless_of_length (by omega), keywordless_of_length (by omega)⟩
  · rintro ⟨hsource, htarget⟩
    rw [quotedArm, safePath_of_keywordless hsource, safePath_of_keywordless htarget]

/-- **The same branches** are written the same in both places when no keyword is in them. -/
theorem sameBranches_iff {a : Argument} {f : Output.Function} {arms : List Arm} (ha : a.conversion = .enumWhen arms)
    (hf : f.body = .enumWhen arms) :
    SameBranches a f ↔ ∀ arm ∈ arms, Keywordless arm.source ∧ Keywordless arm.target := by
  have hlines : SameBranches a f ↔ (arms.map branchLine) = arms.map fun a => branchLine (quotedArm a) := by
    simp only [SameBranches, argumentBranches_iff ha, functionBranches_iff hf, exists_eq_left]
  rw [hlines, List.map_inj_left]
  exact forall₂_congr fun arm _ => branchLine_quotedArm_iff

end Code

/-! ## Runs -/

/-- No keyword is in the names of an enum, of its counterpart at `r`, and of its constants, if it has any. -/
def Project.BranchesKeywordless (p : Project) (c : ClassId) (r : Ref) : Prop :=
  ∀ entry ∈ (p.decl c).entries, Keywordless (p.nestedPath c) ∧ Keywordless r.qualifiedName ∧ Keywordless entry.name

/-- Whether every enum with a counterpart that is the type of a field of a class with a function has a function of its own, and
`P` holds of the enum, the address of its counterpart, the argument for the field and the function of the enum. -/
def Generation.EnumFields (g : Generation) (p : Project) (t : Entity.Table)
    (P : ClassId → Ref → Argument → Output.Function → Prop) : Prop :=
  ∀ f ∈ g.workspace.functions, ∀ target args, f.body = .construct target args →
    List.Forall₂ (fun (field : Field) (a : Argument) => ∀ c r,
      p.categoryOf (p.resolve f.source field.ty) = .userClass c .enum → t.ref? c = some r →
        (∃ f' ∈ g.workspace.functions, f'.source = c) ∧
          ∀ f' ∈ g.workspace.functions, f'.source = c → P c r a f')
      (p.decl f.source).visibleFields args

/-- The branches for a field of an enum are those of the enum's own function, line for line. -/
def Generation.BranchesSame (g : Generation) (p : Project) : Prop :=
  ∃ t, g.table = some t ∧ g.EnumFields p t fun _ _ a f => Code.SameBranches a f

namespace Generation.Made

variable {g : Generation} {p : Project} {n : Naming} {plan : Plan} {t : Entity.Table} {cs : List ClassId}

/-- The enum of a field has a function when the class of the field has one. -/
theorem exists_enumFunction (h : g.Made p n plan t cs) {f : Output.Function} (hf : f ∈ g.workspace.functions)
    (hdata : (p.decl f.source).isEnum = false) {field : Field} (hfield : field ∈ (p.decl f.source).visibleFields)
    {c : ClassId} {r : Ref} (hcat : p.categoryOf (p.resolve f.source field.ty) = .userClass c .enum)
    (hr : t.ref? c = some r) : ∃ f' ∈ g.workspace.functions, f'.source = c := by
  have hsource : f.source ∈ cs := h.sources_perm.mem_iff.mp (List.mem_map_of_mem hf)
  have hcalls : c ∈ (Mapper.Setting.mk p n t).calls f.source := by
    refine Mapper.Setting.mem_calls.mpr ⟨hdata, List.mem_flatMap.mpr ⟨field, hfield, ?_⟩, by rw [hr]; rfl⟩
    generalize p.resolve f.source field.ty = ty at hcat ⊢
    obtain ⟨written, name, importName, classId, args⟩ := ty
    rw [Project.converted, hcat]
    exact List.mem_singleton_self c
  have hc : c ∈ cs := (h.mem c).mpr (.tail ((h.mem f.source).mp hsource) hcalls)
  exact List.mem_map.mp (h.sources_perm.mem_iff.mpr hc)

/-- The function of an enum branches over the constants. -/
theorem body_of_isEnum (h : g.Made p n plan t cs) {f : Output.Function} (hf : f ∈ g.workspace.functions)
    (henum : (p.decl f.source).isEnum = true) {r : Ref} (hr : t.ref? f.source = some r) :
    f.body = .enumWhen ((Mapper.Setting.mk p n t).arms f.source r) := by
  obtain ⟨r', hr', hdraft⟩ := h.eq_draft hf
  cases hr.symm.trans hr'
  have hbody := congrArg Output.Function.body hdraft
  rwa [Code.function_draft, if_pos henum] at hbody

/-- The function of a class that is no enum has an argument for every field that is not private. -/
theorem args_of_construct (h : g.Made p n plan t cs) {f : Output.Function} (hf : f ∈ g.workspace.functions)
    {target : String} {args : List Argument} (hbody : f.body = .construct target args) :
    (p.decl f.source).isEnum = false ∧
      args = (p.decl f.source).visibleFields.map fun field => ((Mapper.Setting.mk p n t).argument f.source field).1 := by
  obtain ⟨r, hr, hdraft⟩ := h.eq_draft hf
  cases henum : (p.decl f.source).isEnum with
  | true =>
    rw [h.body_of_isEnum hf henum hr] at hbody
    cases hbody
  | false =>
    rw [hdraft, Code.function_draft, if_neg (by simp [henum])] at hbody
    exact ⟨rfl, (FunctionBody.construct.inj hbody).2.symm⟩

theorem sameBranches_arms_iff {a : Argument} {f : Output.Function} {c : ClassId} {r : Ref}
    (ha : a.conversion = .enumWhen ((Mapper.Setting.mk p n t).arms c r))
    (hf : f.body = .enumWhen ((Mapper.Setting.mk p n t).arms c r)) :
    Code.SameBranches a f ↔ p.BranchesKeywordless c r := by
  rw [Code.sameBranches_iff ha hf, Mapper.Setting.arms, List.forall_mem_map]
  refine forall₂_congr fun entry _ => ?_
  rw [keywordless_append, keywordless_append]
  tauto

theorem enumFields (h : g.Made p n plan t cs) :
    g.EnumFields p t fun c r a f => (Code.SameBranches a f ↔ p.BranchesKeywordless c r) := by
  intro f hf target args hbody
  obtain ⟨hdata, hargs⟩ := h.args_of_construct hf hbody
  rw [hargs, List.forall₂_map_right_iff, List.forall₂_same]
  intro field hfield c r hcat hr
  refine ⟨h.exists_enumFunction hf hdata hfield hcat hr, fun f' hf' hsource => ?_⟩
  subst hsource
  have hargument : (Mapper.Setting.mk p n t).enumOf? f.source field = some (f'.source, r) := by
    rw [Mapper.Setting.enumOf?, hcat]
    exact Option.map_eq_some_iff.mpr ⟨r, hr, rfl⟩
  have henum : (p.decl f'.source).isEnum = true := by
    simp [ClassDecl.isEnum, (Project.categoryOf_eq_userClass hcat).2]
  exact sameBranches_arms_iff (Mapper.Setting.conversion_of_enumOf? hargument) (h.body_of_isEnum hf' henum hr)

end Generation.Made

/-- **The branches for a field of an enum** are those of the enum's own function in a run that succeeds, line for line, exactly
when no keyword is in them. -/
theorem Hooks.branchLines_same_iff {σ : Type} {h : Hooks σ} {p : Project} {o : Options} {s s' : σ} {g : Generation}
    (hrun : h.run [] p o s = (s', .ok g)) : ∃ t, g.table = some t ∧
      g.EnumFields p t fun c r a f => (Code.SameBranches a f ↔ p.BranchesKeywordless c r) := by
  obtain ⟨n, plan, t, cs, hmade⟩ := h.made_of_run hrun
  exact ⟨t, hmade.table, hmade.enumFields⟩

/-- An enum with a constant that is a keyword, and a class with a field of it that may be null. -/
def sizesProject : Project :=
  .ofSource "enum class Size \x7b S, `is` \x7d\ndata class Box(val size: Size?)"

theorem sizes_not_keywordless (r : Ref) : ¬ sizesProject.BranchesKeywordless 0 r := by
  intro hkeywordless
  have hkeyword : ∃ entry ∈ (sizesProject.decl 0).entries, ¬ Keywordless entry.name := by decide +kernel
  obtain ⟨entry, hentry, hkeyword⟩ := hkeyword
  exact hkeyword (hkeywordless entry hentry).2.2

/-- The function of the class has an argument for its only field, whose type is the enum. -/
theorem sizes_generated :
    ∃ g t r f target args field, (Hooks.none fun _ => false).run [] sizesProject (.ofClass "Box") () = ((), .ok g) ∧
      g.table = some t ∧ t.ref? 0 = some r ∧ f ∈ g.workspace.functions ∧ f.body = .construct target args ∧
      (sizesProject.decl f.source).visibleFields = [field] ∧
      sizesProject.categoryOf (sizesProject.resolve f.source field.ty) = .userClass 0 .enum := by
  have hresult : (((Hooks.none fun _ => false).run [] sizesProject (.ofClass "Box") ()).2.toOption.bind fun g =>
      g.table.bind fun t => (t.ref? 0).bind fun r => g.workspace.functions.head?.bind fun f => (match f.body with
        | .construct target args => some (target, args)
        | _ => none).map fun _ => f.source) = some 1 := by
    decide +kernel
  have hfields : ((sizesProject.decl 1).visibleFields.map fun field =>
      sizesProject.categoryOf (sizesProject.resolve 1 field.ty)) = [.userClass 0 .enum] := by
    decide +kernel
  obtain ⟨g, hg, hresult⟩ := Option.bind_eq_some_iff.mp hresult
  obtain ⟨t, ht, hresult⟩ := Option.bind_eq_some_iff.mp hresult
  obtain ⟨r, hr, hresult⟩ := Option.bind_eq_some_iff.mp hresult
  obtain ⟨f, hf, hresult⟩ := Option.bind_eq_some_iff.mp hresult
  obtain ⟨⟨target, args⟩, hbody, hsource⟩ := Option.map_eq_some_iff.mp hresult
  obtain ⟨field, hfield, hcat⟩ := List.map_eq_singleton_iff.mp hfields
  refine ⟨g, t, r, f, target, args, field, eq_ok_of_toOption hg, ht, hr, List.mem_of_mem_head? hf, ?_, ?_⟩
  · split at hbody
    next h => cases hbody; exact h
    next => cases hbody
  · rw [hsource]
    exact ⟨hfield, hcat⟩

/-- The argument for the field and the function of the enum, whose branches are not the same. -/
theorem branchLines_same_iff_sizesProject :
    ∃ g t r f target a f', (Hooks.none fun _ => false).run [] sizesProject (.ofClass "Box") () = ((), .ok g) ∧
      g.table = some t ∧ t.ref? 0 = some r ∧ f ∈ g.workspace.functions ∧ f.body = .construct target [a] ∧
      f' ∈ g.workspace.functions ∧ f'.source = 0 ∧ ¬ Code.SameBranches a f' := by
  obtain ⟨g, t, r, f, target, args, field, hg, ht, hr, hf, hbody, hfield, hcat⟩ := sizes_generated
  obtain ⟨t', ht', hfields⟩ := Hooks.branchLines_same_iff hg
  cases ht.symm.trans ht'
  have hargs := hfields f hf target args hbody
  rw [hfield] at hargs
  obtain ⟨a, _, harg, hnil, rfl⟩ := List.forall₂_cons_left_iff.mp hargs
  cases hnil
  obtain ⟨⟨f', hf', hsource⟩, hiff⟩ := harg 0 r hcat hr
  exact ⟨g, t, r, f, target, a, f', hg, ht, hr, hf, hbody, hf', hsource, fun h =>
    sizes_not_keywordless r ((hiff f' hf' hsource).mp h)⟩

/-- The branch over the keyword has two different lines. -/
theorem sizes_not_same :
    ∃ g, (Hooks.none fun _ => false).run [] sizesProject (.ofClass "Box") () = ((), .ok g) ∧
      ¬ g.BranchesSame sizesProject := by
  obtain ⟨g, t, r, f, target, args, field, hg, ht, hr, hf, hbody, hfield, hcat⟩ := sizes_generated
  refine ⟨g, hg, fun ⟨t', ht', hsame⟩ => ?_⟩
  cases ht.symm.trans ht'
  obtain ⟨n, plan, t', cs, hmade⟩ := Hooks.made_of_run hg
  cases ht.symm.trans hmade.table
  have hiffs := hmade.enumFields f hf target args hbody
  have hlines := hsame f hf target args hbody
  rw [hfield] at hiffs hlines
  obtain ⟨a, _, hiff, _, rfl⟩ := List.forall₂_cons_left_iff.mp hiffs
  obtain ⟨⟨f', hf', hsource⟩, hiff⟩ := hiff 0 r hcat hr
  have hline := (List.forall₂_cons.mp hlines).1
  exact sizes_not_keywordless r ((hiff f' hf' hsource).mp ((hline 0 r hcat hr).2 f' hf' hsource))

end Counterpart
