/-
How far conversions go into a type. A conversion enters some of the arguments and passes over the others: surplus ones, and
both of a pair one half of which is a star. `converted` are the classes that it meets, `concealed` those that the type
mentions in what is passed over. A conversion calls for what it meets (`calls_element`) and is the identity when there is
nothing of that (`isIdentity_element`), whatever is concealed.
-/
import Counterpart.Mapper.Convert
import Counterpart.Proofs.Substitution

namespace Counterpart

open Kotlin Output

/-! ## Arguments entered and passed over -/

namespace GenericBase

/-- What conversions of the family enter, of something given for every argument but the stars. -/
def entered {α : Type} : GenericBase → List (Option α) → List α
  | .collection _, xs => (xs.take 1).filterMap id
  | .map _, xs => (xs.take 2).filterMap id
  | .pair, some first :: some second :: _ => [first, second]
  | .pair, _ => []
  | .other, xs => xs.filterMap id

/-- What conversions of the family pass over. -/
def passedOver {α : Type} : GenericBase → List (Option α) → List α
  | .collection _, xs => (xs.drop 1).filterMap id
  | .map _, xs => (xs.drop 2).filterMap id
  | .pair, some _ :: some _ :: xs => xs.filterMap id
  | .pair, xs => xs.filterMap id
  | .other, _ => []

variable {α β : Type}

theorem filterMap_map (f : α → β) (xs : List (Option α)) :
    (xs.map (Option.map f)).filterMap id = (xs.filterMap id).map f := by
  rw [List.filterMap_map, List.map_filterMap]
  rfl

theorem entered_map (base : GenericBase) (f : α → β) (xs : List (Option α)) :
    base.entered (xs.map (Option.map f)) = (base.entered xs).map f := by
  cases base with
  | collection k => rw [entered, entered, ← List.map_take, filterMap_map]
  | map k => rw [entered, entered, ← List.map_take, filterMap_map]
  | pair =>
    match xs with
    | [] => rfl
    | [x] => cases x <;> rfl
    | none :: _ :: _ => rfl
    | some _ :: none :: _ => rfl
    | some _ :: some _ :: _ => rfl
  | other => exact filterMap_map f xs

theorem entered_ofCollection (kind : CollectionKind) (xs : List (Option α)) :
    (collection kind).entered xs = xs[0]?.join.toList := by
  rcases xs with _ | ⟨_ | x, xs⟩ <;> rfl

theorem entered_ofMap (kind : MapKind) (xs : List (Option α)) :
    (map kind).entered xs = xs[0]?.join.toList ++ xs[1]?.join.toList := by
  rcases xs with _ | ⟨_ | x, _ | ⟨_ | y, xs⟩⟩ <;> rfl

/-- A pair is entered for both halves or for none. -/
theorem entered_ofPair (xs : List (Option α)) :
    (∃ first second, xs[0]?.join = some first ∧ xs[1]?.join = some second ∧ pair.entered xs = [first, second]) ∨
      (xs[0]?.join = none ∨ xs[1]?.join = none) ∧ pair.entered xs = [] := by
  rcases xs with _ | ⟨_ | x, _ | ⟨_ | y, xs⟩⟩
  case cons.some.cons.some => exact .inl ⟨x, y, rfl, rfl, rfl⟩
  all_goals exact .inr ⟨by simp, rfl⟩

theorem passedOver_map (base : GenericBase) (f : α → β) (xs : List (Option α)) :
    base.passedOver (xs.map (Option.map f)) = (base.passedOver xs).map f := by
  cases base with
  | collection k => rw [passedOver, passedOver, ← List.map_drop, filterMap_map]
  | map k => rw [passedOver, passedOver, ← List.map_drop, filterMap_map]
  | pair =>
    match xs with
    | [] => rfl
    | [x] => cases x <;> rfl
    | none :: x :: xs => exact filterMap_map f (none :: x :: xs)
    | some x :: none :: xs => exact filterMap_map f (some x :: none :: xs)
    | some _ :: some _ :: xs => exact filterMap_map f xs
  | other => rfl

/-- Every argument but the stars is either entered or passed over. -/
theorem mem_entered_or_passedOver (base : GenericBase) (xs : List (Option α)) (a : α) :
    some a ∈ xs ↔ a ∈ base.entered xs ∨ a ∈ base.passedOver xs := by
  have hmem : ∀ xs : List (Option α), a ∈ xs.filterMap id ↔ some a ∈ xs := by simp
  have hsplit : ∀ n, some a ∈ xs ↔ some a ∈ xs.take n ∨ some a ∈ xs.drop n := by
    intro n
    rw [← List.mem_append, List.take_append_drop]
  cases base with
  | collection k => rw [entered, passedOver, hmem, hmem, ← hsplit]
  | map k => rw [entered, passedOver, hmem, hmem, ← hsplit]
  | pair =>
    match xs with
    | [] => simp [entered, passedOver]
    | [x] => cases x <;> simp [entered, passedOver]
    | none :: _ :: _ => simp [entered, passedOver]
    | some _ :: none :: _ => simp [entered, passedOver]
    | some _ :: some _ :: xs => simp [entered, passedOver, or_assoc]
  | other => simp [entered, passedOver]

end GenericBase

/-! ## Arguments of types -/

namespace ResolvedType

/-- The types of the arguments; a star has none. -/
def argTypes (t : ResolvedType) : List (Option ResolvedType) := t.args.map TypeArg.type?

/-- Induction over the arguments of types. -/
theorem induction {P : ResolvedType → Prop} (h : ∀ t, (∀ u, some u ∈ t.argTypes → P u) → P t) (t : ResolvedType) :
    P t :=
  h t fun u hu => by
    obtain ⟨a, ha, hau⟩ := List.mem_map.mp hu
    cases a with
    | star => cases hau
    | type v u' =>
      cases hau
      have := List.sizeOf_lt_of_mem ha
      have : sizeOf u < sizeOf t := by
        obtain ⟨written, name, importName, classId, args⟩ := t
        simp only [TypeArg.type.sizeOf_spec] at this
        simp only [mk.sizeOf_spec]
        omega
      exact induction h u
termination_by sizeOf t

end ResolvedType

namespace Project

variable (p : Project)

mutual

/-- The classes with a counterpart that a conversion of a value of the type meets. -/
def converted : ResolvedType → List ClassId
  | ⟨written, qualifiedName, importName, classId, args⟩ =>
    match p.categoryOf ⟨written, qualifiedName, importName, classId, args⟩ with
    | .userClass id _ => [id]
    | .generic base => (base.entered (convertedInArgs args)).flatten
    | _ => []

def convertedInArgs : List (TypeArg ResolvedType) → List (Option (List ClassId))
  | [] => []
  | a :: as => convertedInArg a :: convertedInArgs as

def convertedInArg : TypeArg ResolvedType → Option (List ClassId)
  | .star => none
  | .type _ ty => some (converted ty)

end

/-- The classes that each argument mentions. -/
def mentionedByArg (as : List (TypeArg ResolvedType)) : List (Option (List ClassId)) :=
  as.map fun a => a.type?.map p.mentioned

mutual

/-- The classes with a counterpart that a type mentions in arguments which a conversion passes over. -/
def concealed : ResolvedType → List ClassId
  | ⟨written, qualifiedName, importName, classId, args⟩ =>
    match p.categoryOf ⟨written, qualifiedName, importName, classId, args⟩ with
    | .generic base =>
      (base.entered (concealedInArgs args)).flatten ++ (base.passedOver (p.mentionedByArg args)).flatten
    | _ => []

def concealedInArgs : List (TypeArg ResolvedType) → List (Option (List ClassId))
  | [] => []
  | a :: as => concealedInArg a :: concealedInArgs as

def concealedInArg : TypeArg ResolvedType → Option (List ClassId)
  | .star => none
  | .type _ ty => some (concealed ty)

end

/-- The classes with a counterpart that the conversions of the visible fields of a class meet, in order. -/
def conversions (c : ClassId) : List ClassId :=
  (p.decl c).visibleFields.flatMap fun f => p.converted (p.resolve c f.ty)

variable {p}

/-! ## Types with arguments -/

theorem convertedInArgs_eq (as : List (TypeArg ResolvedType)) :
    p.convertedInArgs as = (as.map TypeArg.type?).map (Option.map p.converted) := by
  induction as with
  | nil => rfl
  | cons a as ih => cases a <;> simp [convertedInArgs, convertedInArg, TypeArg.type?, ih]

theorem concealedInArgs_eq (as : List (TypeArg ResolvedType)) :
    p.concealedInArgs as = (as.map TypeArg.type?).map (Option.map p.concealed) := by
  induction as with
  | nil => rfl
  | cons a as ih => cases a <;> simp [concealedInArgs, concealedInArg, TypeArg.type?, ih]

theorem mem_mentionedInArgs {as : List (TypeArg ResolvedType)} {c : ClassId} :
    c ∈ p.mentionedInArgs as ↔ ∃ t, some t ∈ as.map TypeArg.type? ∧ c ∈ p.mentioned t := by
  induction as with
  | nil => simp [mentionedInArgs]
  | cons a as ih => cases a <;> simp [mentionedInArgs, mentionedInArg, TypeArg.type?, ih, or_and_right, exists_or]

theorem mentionedByArg_eq (as : List (TypeArg ResolvedType)) :
    p.mentionedByArg as = (as.map TypeArg.type?).map (Option.map p.mentioned) := by
  rw [mentionedByArg, List.map_map]
  rfl

variable {t : ResolvedType} {base : GenericBase} {c : ClassId}

theorem converted_of_generic (h : p.categoryOf t = .generic base) :
    p.converted t = (base.entered t.argTypes).flatMap p.converted := by
  obtain ⟨written, name, importName, classId, args⟩ := t
  rw [converted, h, convertedInArgs_eq]
  simp only [GenericBase.entered_map]
  rfl

theorem concealed_of_generic (h : p.categoryOf t = .generic base) :
    p.concealed t =
      (base.entered t.argTypes).flatMap p.concealed ++ (base.passedOver t.argTypes).flatMap p.mentioned := by
  obtain ⟨written, name, importName, classId, args⟩ := t
  rw [concealed, h, concealedInArgs_eq, mentionedByArg_eq]
  simp only [GenericBase.entered_map, GenericBase.passedOver_map]
  rfl

theorem mem_mentioned_of_generic (h : p.categoryOf t = .generic base) :
    c ∈ p.mentioned t ↔ ∃ u, some u ∈ t.argTypes ∧ c ∈ p.mentioned u := by
  obtain ⟨written, name, importName, classId, args⟩ := t
  rw [mentioned, h]
  exact mem_mentionedInArgs

/-- **A class that a type mentions** is met by conversions or concealed from them. -/
theorem mem_mentioned : c ∈ p.mentioned t ↔ c ∈ p.converted t ∨ c ∈ p.concealed t := by
  induction t using ResolvedType.induction with | _ t ih =>
  cases hc : p.categoryOf t with
  | generic base =>
    have split : (∃ u ∈ base.entered t.argTypes, c ∈ p.mentioned u) ↔
        (∃ u ∈ base.entered t.argTypes, c ∈ p.converted u) ∨ ∃ u ∈ base.entered t.argTypes, c ∈ p.concealed u := by
      rw [← exists_or]
      refine exists_congr fun u => ?_
      rw [← and_or_left]
      exact and_congr_right fun hu => ih u ((base.mem_entered_or_passedOver _ _).mpr (.inl hu))
    rw [mem_mentioned_of_generic hc, converted_of_generic hc, concealed_of_generic hc, List.mem_append]
    simp only [List.mem_flatMap, base.mem_entered_or_passedOver, or_and_right, exists_or, split, or_assoc]
  | _ =>
    obtain ⟨written, name, importName, classId, args⟩ := t
    simp [mentioned, converted, concealed, hc]

theorem mem_mentions_of_conversions {d : ClassId} (h : d ∈ p.conversions c) : d ∈ p.mentions c := by
  obtain ⟨f, hf, hd⟩ := List.mem_flatMap.mp h
  exact List.mem_flatMap.mpr ⟨f, hf, mem_mentioned.mpr (.inl hd)⟩

end Project

end Counterpart
