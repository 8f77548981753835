/-
The order in which classes are reached. `DepthFirst` is the walk itself, which marks a class before it goes into what the class
leads to; `gather` ends every such walk (`depthFirst_gather`). For a project the walk from a class reaches the least set that has
this class and all classes that the visible fields of its classes contain (`reachable_depthFirst`).
-/
import Mathlib.Data.List.Nodup
import Mathlib.Data.Set.Defs
import Mathlib.Order.Bounds.Defs
import Counterpart.Proofs.Run

namespace Counterpart.Project

open Kotlin Relation

/-! ## Walks -/

/-- The walk over `pending` with the classes `seen` behind it ends with the last list. What a class leads to comes before the
rest of what is pending. -/
inductive DepthFirst (next : ClassId → List ClassId) : (seen pending : List ClassId) → List ClassId → Prop
  | nil (seen : List ClassId) : DepthFirst next seen [] seen
  | skip {seen pending order : List ClassId} {c : ClassId} (hc : c ∈ seen) (h : DepthFirst next seen pending order) :
    DepthFirst next seen (c :: pending) order
  | visit {seen pending between order : List ClassId} {c : ClassId} (hc : c ∉ seen)
    (hnext : DepthFirst next (seen ++ [c]) (next c) between) (h : DepthFirst next between pending order) :
    DepthFirst next seen (c :: pending) order

section Walk

variable {next : ClassId → List ClassId} {seen pending order : List ClassId}

/-- A walk ends in one way only. -/
theorem DepthFirst.unique {order' : List ClassId} (h : DepthFirst next seen pending order)
    (h' : DepthFirst next seen pending order') : order = order' := by
  induction h generalizing order' with
  | nil seen => cases h'; rfl
  | skip hc _ ih =>
    cases h' with
    | skip _ h' => exact ih h'
    | visit hc' => exact absurd hc hc'
  | visit hc _ _ ihnext ih =>
    cases h' with
    | skip hc' => exact absurd hc' hc
    | visit _ hnext' h' =>
      cases ihnext hnext'
      exact ih h'

/-- What is gathered from the second part is what the first one leaves. -/
theorem gather_append (remaining pending rest : List ClassId) :
    gather next remaining (pending ++ rest) = gather next remaining pending ++
      gather next (remaining.diff (gather next remaining pending)) rest := by
  induction remaining, pending using gather_induction next with
  | nil remaining => simp
  | skip remaining c pending h ih => rw [List.cons_append, gather_cons_of_not_mem h, gather_cons_of_not_mem h, ih]
  | visit remaining c pending h ih =>
    rw [List.cons_append, gather_cons_of_mem h, gather_cons_of_mem h, ← List.append_assoc, ih, List.diff_cons,
      List.cons_append]

/-- **Gathering ends the walk**: when all classes are numbered below `n` and those that remain are the ones not seen yet, the walk
adds what is gathered. -/
theorem depthFirst_gather {n : Nat} (hnext : ∀ a, ∀ b ∈ next a, b < n) (remaining pending : List ClassId)
    (seen : List ClassId) (hr : remaining.Nodup)
    (hseen : ∀ c, c ∈ remaining ↔ c < n ∧ c ∉ seen) (hp : ∀ c ∈ pending, c < n) :
    DepthFirst next seen pending (seen ++ gather next remaining pending) := by
  match pending with
  | [] =>
    rw [gather_nil, List.append_nil]
    exact .nil seen
  | c :: pending =>
    obtain ⟨hc, hp⟩ := List.forall_mem_cons.mp hp
    by_cases h : c ∈ remaining
    · have hlt : (remaining.erase c).length < remaining.length := by
        have := List.length_pos_of_mem h
        rw [List.length_erase_of_mem h]
        omega
      have hseen' : ∀ d, d ∈ remaining.erase c ↔ d < n ∧ d ∉ seen ++ [c] := by
        intro d
        rw [hr.mem_erase_iff, hseen, List.mem_append, List.mem_singleton, not_or]
        exact ⟨fun ⟨hd, hlt, hs⟩ => ⟨hlt, hs, hd⟩, fun ⟨hlt, hs, hd⟩ => ⟨hd, hlt, hs⟩⟩
      have hinner := depthFirst_gather hnext (remaining.erase c) (next c) _ (hr.erase c) hseen' (hnext c)
      generalize hfound : gather next (remaining.erase c) (next c) = found at hinner
      have hlt' : ((remaining.erase c).diff found).length < remaining.length :=
        Nat.lt_of_le_of_lt (List.diff_sublist _ _).length_le hlt
      have hseen'' : ∀ d, d ∈ (remaining.erase c).diff found ↔ d < n ∧ d ∉ seen ++ [c] ++ found := by
        intro d
        rw [(hr.erase c).mem_sdiff_iff, hseen', List.mem_append (t := found), not_or, and_assoc]
      have houter := depthFirst_gather hnext _ pending _ ((hr.erase c).diff) hseen'' hp
      rw [gather_cons_of_mem h, gather_append, hfound]
      have := DepthFirst.visit ((hseen c).mp h).2 hinner houter
      simpa only [List.append_assoc, List.cons_append, List.nil_append] using this
    · have hc' : c ∈ seen := by
        by_contra hs
        exact h ((hseen c).mpr ⟨hc, hs⟩)
      rw [gather_cons_of_not_mem h]
      exact .skip hc' (depthFirst_gather hnext remaining pending seen hr hseen hp)
termination_by (remaining.length, pending.length)

end Walk

/-! ## The classes that a type contains -/

/-- A type is the class `d`, one with a counterpart, or has it in an argument, however deep. -/
inductive Contains (p : Project) (d : ClassId) : ResolvedType → Prop
  | itself {t : ResolvedType} {k : UserKind} (h : p.categoryOf t = .userClass d k) : Contains p d t
  | inArgument {t u : ResolvedType} {base : GenericBase} {variance : Variance} (h : p.categoryOf t = .generic base)
    (hu : .type variance u ∈ t.args) (hd : Contains p d u) : Contains p d t

theorem mem_mentioned_iff {p : Project} {d : ClassId} {t : ResolvedType} : d ∈ p.mentioned t ↔ p.Contains d t := by
  constructor
  · intro h
    induction t using ResolvedType.induction with | _ t ih =>
    cases hc : p.categoryOf t with
    | generic base =>
      obtain ⟨u, hu, hd⟩ := (mem_mentioned_of_generic hc).mp h
      obtain ⟨a, ha, hau⟩ := List.mem_map.mp hu
      cases a with
      | star => cases hau
      | type variance u' =>
        cases hau
        exact .inArgument hc ha (ih u hu hd)
    | userClass c k =>
      obtain ⟨written, name, importName, classId, args⟩ := t
      rw [mentioned, hc, List.mem_singleton] at h
      subst h
      exact .itself hc
    | _ =>
      obtain ⟨written, name, importName, classId, args⟩ := t
      simp [mentioned, hc] at h
  · intro h
    induction h with
    | @itself t k hc =>
      obtain ⟨written, name, importName, classId, args⟩ := t
      rw [mentioned, hc]
      exact List.mem_singleton_self d
    | inArgument hc hu _ ih => exact (mem_mentioned_of_generic hc).mpr ⟨_, List.mem_map_of_mem hu, ih⟩

/-- Whether a set has all classes that the visible fields of its classes contain. -/
def Closed (p : Project) (s : Set ClassId) : Prop :=
  ∀ c ∈ s, ∀ f ∈ (p.decl c).fields, f.isPrivate = false → ∀ d, p.Contains d (p.resolve c f.ty) → d ∈ s

theorem closed_iff {p : Project} {s : Set ClassId} : p.Closed s ↔ ∀ c ∈ s, ∀ d, p.Mentions c d → d ∈ s := by
  simp only [Closed, Mentions, mentions, mentionedBy, ClassDecl.visibleFields, List.mem_flatMap, List.mem_filter,
    Bool.not_eq_true', mem_mentioned_iff]
  refine forall₂_congr fun c _ => ⟨?_, ?_⟩
  · rintro h d ⟨f, ⟨hf, hvisible⟩, hd⟩
    exact h f hf hvisible d hd
  · intro h f hf hvisible d hd
    exact h d ⟨f, ⟨hf, hvisible⟩, hd⟩

/-! ## Reachable classes -/

/-- The classes in the order of the walk from `root`: each once, and all of the least closed set with `root`. -/
structure ReachedInOrder (p : Project) (root : ClassId) (order : List ClassId) : Prop where
  /-- The walk ends, with this order. -/
  ends : ∀ order', DepthFirst p.mentions [] [root] order' ↔ order' = order
  first : order.head? = some root
  nodup : order.Nodup
  least : IsLeast {s : Set ClassId | root ∈ s ∧ p.Closed s} {c | c ∈ order}
  supported : ∀ c ∈ order, c ≠ root → (p.decl c).kind = .data ∨ (p.decl c).kind = .enum

theorem head?_reachable {p : Project} {root : ClassId} (hroot : root < p.classes.size) :
    (p.reachable root).head? = some root := by
  rw [reachable, gather_cons_of_mem (List.mem_range.mpr hroot)]
  rfl

theorem depthFirst_reachable {p : Project} {root : ClassId} (hroot : root < p.classes.size) :
    DepthFirst p.mentions [] [root] (p.reachable root) := by
  have hnext : ∀ a, ∀ b ∈ p.mentions a, b < p.classes.size := fun a b hb =>
    lt_size_of_isSupported (isSupported_of_mentions hb)
  exact depthFirst_gather hnext (List.range p.classes.size) [root] [] List.nodup_range (by simp) (by simpa using hroot)

theorem isLeast_reachable {p : Project} {root : ClassId} (hroot : root < p.classes.size) :
    IsLeast {s : Set ClassId | root ∈ s ∧ p.Closed s} {c | c ∈ p.reachable root} := by
  refine ⟨⟨mem_reachable.mpr ⟨hroot, .refl⟩, closed_iff.mpr fun c hc d hd => ?_⟩, ?_⟩
  · obtain ⟨-, hreached⟩ := mem_reachable.mp hc
    exact mem_reachable.mpr ⟨hroot, hreached.tail hd⟩
  · rintro s ⟨hs, hclosed⟩ c hc
    obtain ⟨-, hreached⟩ := mem_reachable.mp hc
    induction hreached with
    | refl => exact hs
    | tail hreached hd ih => exact closed_iff.mp hclosed _ (ih (mem_reachable.mpr ⟨hroot, hreached⟩)) _ hd

theorem kind_of_mem_reachable {p : Project} {root c : ClassId} (hc : c ∈ p.reachable root) (hne : c ≠ root) :
    (p.decl c).kind = .data ∨ (p.decl c).kind = .enum := by
  obtain ⟨-, hreached⟩ := mem_reachable.mp hc
  obtain rfl | ⟨b, -, hmentions⟩ := hreached.cases_tail
  · exact absurd rfl hne
  · have hsupported := isSupported_of_mentions hmentions
    rw [ClassDecl.isSupported] at hsupported
    cases hkind : (p.decl c).kind <;> simp [hkind, ClassKind.isSupported] at hsupported ⊢

/-- **The classes reached from a class** of the project are walked through to an end, each once and the class first. They are the
least set that has the class and is closed, and all others among them are data classes or enums. -/
theorem reachable_depthFirst {p : Project} {root : ClassId} (hroot : root < p.classes.size) :
    p.ReachedInOrder root (p.reachable root) where
  ends _ := ⟨fun h => h.unique (depthFirst_reachable hroot), fun h => h ▸ depthFirst_reachable hroot⟩
  first := head?_reachable hroot
  nodup := nodup_reachable p root
  least := isLeast_reachable hroot
  supported _ := kind_of_mem_reachable

/-- Two classes that lead to each other, one of them to an enum through a list in a map; a private field leads to nothing. -/
def lettersProject : Project :=
  .ofSource ("data class A(val b: B?, val c: Map<String, List<C>>)\n" ++
    "data class B(val a: A, private val d: D)\ndata class C(val tag: Tag)\ndata class D(val x: Int)\n" ++
    "enum class Tag \x7b X \x7d")

theorem reachable_depthFirst_lettersProject :
    0 < lettersProject.classes.size ∧ lettersProject.reachable 0 = [0, 1, 2, 4] ∧
      lettersProject.ReachedInOrder 0 (lettersProject.reachable 0) := by
  have hsize : 0 < lettersProject.classes.size := by decide +kernel
  exact ⟨hsize, by decide +kernel, reachable_depthFirst hsize⟩

end Counterpart.Project
