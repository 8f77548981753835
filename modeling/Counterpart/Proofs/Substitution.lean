/-
What substitution does to a type. It asks for the counterparts of the classes that the type mentions, no others
(`substituteType_congr`), and names those that there are (`dependencies_substituteType`). When there are none the
text stays as written, or the placeholder is in it (`value_substituteType`).
-/
import Counterpart.Entity.Param
import Counterpart.Proofs.Reachable

namespace Counterpart.Entity

open Kotlin Output Text

variable {p : Project}

/-! ## Counterparts asked for -/

mutual

theorem substituteType_congr {u v : ClassId → Option Ref} :
    ∀ {t : ResolvedType}, (∀ c ∈ p.mentioned t, u c = v c) → substituteType p u t = substituteType p v t
  | ⟨written, name, importName, classId, args⟩, h => by
    rw [substituteType, substituteType]
    rw [Project.mentioned] at h
    cases hc : p.categoryOf ⟨written, name, importName, classId, args⟩ with
    | userClass c k =>
      simp only [hc] at h ⊢
      rw [h c (List.mem_singleton_self c)]
    | generic base =>
      simp only [hc] at h ⊢
      rw [substituteArgs_congr h]
    | unsupported c => rfl
    | basic b => rfl
    | foreign => rfl

theorem substituteArgs_congr {u v : ClassId → Option Ref} :
    ∀ {as : List (TypeArg ResolvedType)}, (∀ c ∈ p.mentionedInArgs as, u c = v c) →
      substituteArgs p u as = substituteArgs p v as
  | [], _ => rfl
  | a :: as, h => by
    rw [Project.mentionedInArgs] at h
    rw [substituteArgs, substituteArgs, substituteArg_congr fun c hc => h c (List.mem_append_left _ hc),
      substituteArgs_congr fun c hc => h c (List.mem_append_right _ hc)]

theorem substituteArg_congr {u v : ClassId → Option Ref} :
    ∀ {a : TypeArg ResolvedType}, (∀ c ∈ p.mentionedInArg a, u c = v c) → substituteArg p u a = substituteArg p v a
  | .star, _ => rfl
  | .type _ ty, h => by
    rw [Project.mentionedInArg] at h
    rw [substituteArg, substituteArg, substituteType_congr h]

end

/-- The parameter for a field depends on what became of the classes that the field names. -/
theorem ParamDraft.ofField_congr {n : Naming} {t t' : Table} {c : ClassId} {f : Field}
    (h : ∀ d ∈ p.mentionedBy c f, t.ref? d = t'.ref? d) : ofField p n t c f = ofField p n t' c f := by
  unfold Project.mentionedBy at h
  unfold ofField
  generalize p.resolve c f.ty = ty at h ⊢
  obtain ⟨written, name, importName, classId, args⟩ := ty
  rw [Project.mentioned] at h
  cases hc : p.categoryOf ⟨written, name, importName, classId, args⟩ with
  | userClass d k =>
    simp only [hc] at h ⊢
    rw [h d (List.mem_singleton_self d)]
  | generic base =>
    simp only [hc] at h ⊢
    rw [substituteArgs_congr h]
  | unsupported d => simp only [hc]
  | basic b => simp only [hc]
  | foreign => simp only [hc]

/-! ## Counterparts named -/

mutual

theorem dependencies_substituteType (u : ClassId → Option Ref) :
    ∀ t : ResolvedType, (substituteType p u t).dependencies = (p.mentioned t).filterMap u
  | ⟨written, name, importName, classId, args⟩ => by
    rw [substituteType, Project.mentioned]
    cases hc : p.categoryOf ⟨written, name, importName, classId, args⟩ with
    | userClass c k =>
      simp only
      cases hu : u c <;> simp [hu, unsupportedType]
    | generic base => exact dependencies_substituteArgs u args
    | unsupported c => rfl
    | basic b => rfl
    | foreign => rfl

theorem dependencies_substituteArgs (u : ClassId → Option Ref) :
    ∀ as : List (TypeArg ResolvedType), (substituteArgs p u as).dependencies = (p.mentionedInArgs as).filterMap u
  | [] => rfl
  | a :: as => by
    rw [substituteArgs, Project.mentionedInArgs, List.filterMap_append, ← dependencies_substituteArg u a,
      ← dependencies_substituteArgs u as]
    rfl

theorem dependencies_substituteArg (u : ClassId → Option Ref) :
    ∀ a : TypeArg ResolvedType, (substituteArg p u a).dependencies = (p.mentionedInArg a).filterMap u
  | .star => rfl
  | .type _ ty => dependencies_substituteType u ty

end

/-! ## Text -/

/-- The text `part` is somewhere in the text `s`. -/
def Within (part s : String) : Prop :=
  ∃ before after, s = before ++ part ++ after

theorem Within.refl (s : String) : Within s s :=
  ⟨"", "", by simp⟩

theorem Within.append_left {part s : String} (h : Within part s) (t : String) : Within part (t ++ s) := by
  obtain ⟨before, after, rfl⟩ := h
  exact ⟨t ++ before, after, by simp only [String.append_assoc]⟩

theorem Within.append_right {part s : String} (h : Within part s) (t : String) : Within part (s ++ t) := by
  obtain ⟨before, after, rfl⟩ := h
  exact ⟨before, after ++ t, by simp only [String.append_assoc]⟩

theorem Within.trans {part s t : String} (h : Within part s) (h' : Within s t) : Within part t := by
  obtain ⟨before, after, rfl⟩ := h'
  exact (h.append_left before).append_right after

theorem Within.join {part sep : String} {ss : List String} (h : ∃ s ∈ ss, Within part s) :
    Within part (join sep ss) := by
  induction ss with
  | nil => simp at h
  | cons s ss ih =>
    simp only [List.mem_cons, exists_eq_or_imp] at h
    cases ss with
    | nil => simpa [Text.join] using h
    | cons t ss =>
      rw [Text.join]
      · rcases h with h | h
        · exact (h.append_right _).append_right _
        · exact (ih h).append_left _
      · simp

theorem Within.length_le {part s : String} (h : Within part s) : part.length ≤ s.length := by
  obtain ⟨before, after, rfl⟩ := h
  simp only [String.length_append]
  omega

/-- The placeholder is somewhere in the text. -/
def HasPlaceholder (s : String) : Prop := Within placeholderType s

theorem args_ne_nil_of_generic {t : ResolvedType} {base : GenericBase} (h : p.categoryOf t = .generic base) :
    t.args ≠ [] := by
  unfold Project.categoryOf at h
  intro hn
  simp only [hn, List.isEmpty_nil, if_true] at h
  split at h
  · cases h
  split at h
  · split at h <;> cases h
  · simp only [Bool.not_true, Bool.false_eq_true, if_false] at h
    split at h <;> cases h

mutual

/-- **A type none of whose classes has a counterpart** stays as written, unless a placeholder replaces a part. -/
theorem value_substituteType {u : ClassId → Option Ref} (scope : ClassId) :
    ∀ ty : TypeRef, (∀ c ∈ p.mentioned (p.resolve scope ty), u c = none) →
      (substituteType p u (p.resolve scope ty)).value = ty.render ∨
        HasPlaceholder (substituteType p u (p.resolve scope ty)).value
  | .function nullable text, _ => .inl rfl
  | .named name args nullable text, h => by
    rw [Project.resolve] at h ⊢
    rw [substituteType]
    rw [Project.mentioned] at h
    generalize hcat : p.categoryOf _ = cat at h ⊢
    cases cat with
    | userClass c k =>
      simp only at h ⊢
      rw [h c (List.mem_singleton_self c)]
      exact .inr (.refl _)
    | unsupported c => exact .inr (.refl _)
    | generic base =>
      have hne : args.isEmpty = false := by
        have := args_ne_nil_of_generic hcat
        cases args with
        | nil => exact absurd rfl this
        | cons _ _ => rfl
      simp only at h ⊢
      rcases value_substituteArgs scope args h with hargs | hargs
      · refine .inl ?_
        rw [TypeRef.render_named, TypeRef.argsText, TypeRef.args, hne, ← hargs]
        rfl
      · exact .inr (((((Within.join hargs).append_left "<").append_right ">").append_left _).append_right _)
    | basic b => exact .inl rfl
    | foreign => exact .inl rfl

theorem value_substituteArgs {u : ClassId → Option Ref} (scope : ClassId) :
    ∀ as : List (TypeArg TypeRef), (∀ c ∈ p.mentionedInArgs (p.resolveArgs scope as), u c = none) →
      (substituteArgs p u (p.resolveArgs scope as)).value.map SubstitutedArg.text = TypeRef.renderArgs as ∨
        ∃ s ∈ (substituteArgs p u (p.resolveArgs scope as)).value.map SubstitutedArg.text, HasPlaceholder s
  | [], _ => .inl rfl
  | a :: as, h => by
    rw [Project.resolveArgs] at h ⊢
    rw [Project.mentionedInArgs] at h
    rw [substituteArgs]
    have hhead := value_substituteArg scope a fun c hc => h c (List.mem_append_left _ hc)
    have htail := value_substituteArgs scope as fun c hc => h c (List.mem_append_right _ hc)
    rcases hhead with hhead | hhead
    · rcases htail with htail | ⟨s, hs, hp⟩
      · exact .inl (by rw [TypeRef.renderArgs, ← hhead, ← htail]; rfl)
      · exact .inr ⟨s, List.mem_cons_of_mem _ hs, hp⟩
    · exact .inr ⟨_, List.mem_cons_self, hhead⟩

theorem value_substituteArg {u : ClassId → Option Ref} (scope : ClassId) :
    ∀ a : TypeArg TypeRef, (∀ c ∈ p.mentionedInArg (p.resolveArg scope a), u c = none) →
      (substituteArg p u (p.resolveArg scope a)).value.text = TypeRef.renderArg a ∨
        HasPlaceholder (substituteArg p u (p.resolveArg scope a)).value.text
  | .star, _ => .inl rfl
  | .type variance ty, h => by
    rcases value_substituteType scope ty h with hty | hty
    · exact .inl (by rw [TypeRef.renderArg, ← hty]; rfl)
    · exact .inr (hty.append_left _)

end

theorem value_substituteArgs_eq {u : ClassId → Option Ref} (as : List (TypeArg ResolvedType)) :
    (substituteArgs p u as).value = as.map fun a => (substituteArg p u a).value := by
  induction as with
  | nil => rfl
  | cons a as ih => rw [substituteArgs, Substituted.both, ih, List.map_cons]

/-- The text of a type with arguments has those of the arguments in it. -/
theorem within_substituteType {u : ClassId → Option Ref} {t arg : ResolvedType} {base : GenericBase} {v : Variance}
    (hc : p.categoryOf t = .generic base) (h : .type v arg ∈ t.args) :
    Within (substituteType p u arg).value (substituteType p u t).value := by
  obtain ⟨written, name, importName, classId, args⟩ := t
  rw [substituteType, hc]
  have hin : ∃ s ∈ (substituteArgs p u args).value.map SubstitutedArg.text, Within (substituteType p u arg).value s := by
    rw [value_substituteArgs_eq, List.map_map]
    exact ⟨_, List.mem_map_of_mem h, (Within.refl _).append_left _⟩
  exact ((((Within.join hin).append_left "<").append_right ">").append_left _).append_right _

/-- The type of a parameter is the substituted type of its field. -/
theorem ParamDraft.ty_ofField (n : Naming) (t : Table) (c : ClassId) (f : Field) :
    (ofField p n t c f).param.ty = (substituteType p t.ref? (p.resolve c f.ty)).value := by
  have hw : (p.resolve c f.ty).written = f.ty := by cases f.ty <;> rfl
  unfold ofField
  generalize p.resolve c f.ty = ty at hw ⊢
  obtain ⟨written, name, importName, classId, args⟩ := ty
  rw [substituteType]
  cases hc : p.categoryOf ⟨written, name, importName, classId, args⟩ with
  | userClass d k =>
    simp only [hc]
    cases t.ref? d <;> rfl
  | generic base => simp only [hc]
  | unsupported d => simp only [hc, unsupportedType]
  | basic b => simp only [hc]; rw [← hw]
  | foreign => simp only [hc]; rw [← hw]

end Counterpart.Entity
