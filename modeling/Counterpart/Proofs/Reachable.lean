/-
What `gather` collects: the classes that lead from `pending` over classes that remain, each once. For a project
this is reachability (`mem_reachable`): mentions lead to a class from the selected one.
-/
import Mathlib.Logic.Relation
import Counterpart.Project.Reachable

namespace Counterpart.Project

open Kotlin Relation

/-! ## Classes with a counterpart -/

/-- A class that no project declares is none with a counterpart. -/
theorem lt_size_of_isSupported {p : Project} {c : ClassId} (h : (p.decl c).isSupported = true) :
    c < p.classes.size := by
  rcases Nat.lt_or_ge c p.classes.size with hc | hc
  · exact hc
  · have : p.decl c = default := by simp [decl, Array.getD, Nat.not_lt.mpr hc]
    rw [this] at h
    cases h

theorem categoryOf_eq_userClass {p : Project} {t : ResolvedType} {c : ClassId} {k : UserKind}
    (h : p.categoryOf t = .userClass c k) :
    t.classId = some c ∧ (p.decl c).kind = (match k with | .data => .data | .enum => .enum) := by
  unfold categoryOf at h
  split at h
  · cases h
  split at h
  next id hid =>
    split at h
    next hk => cases h; exact ⟨hid, hk⟩
    next hk => cases h; exact ⟨hid, hk⟩
    next => split at h <;> cases h
  next =>
    split at h
    · cases h
    split at h <;> cases h

theorem isSupported_of_userClass {p : Project} {t : ResolvedType} {c : ClassId} {k : UserKind}
    (h : p.categoryOf t = .userClass c k) : (p.decl c).isSupported = true := by
  have := (categoryOf_eq_userClass h).2
  cases k <;> simp [ClassDecl.isSupported, ClassKind.isSupported, this]

mutual

theorem isSupported_of_mentioned {p : Project} {c : ClassId} :
    ∀ {t : ResolvedType}, c ∈ p.mentioned t → (p.decl c).isSupported = true
  | ⟨_, _, _, _, args⟩, h => by
    rw [mentioned] at h
    split at h
    next hc => rw [List.mem_singleton] at h; subst h; exact isSupported_of_userClass hc
    next => exact isSupported_of_mentionedInArgs h
    next => cases h

theorem isSupported_of_mentionedInArgs {p : Project} {c : ClassId} :
    ∀ {as : List (TypeArg ResolvedType)}, c ∈ p.mentionedInArgs as → (p.decl c).isSupported = true
  | [], h => by simp [mentionedInArgs] at h
  | a :: as, h => by
    rw [mentionedInArgs, List.mem_append] at h
    rcases h with h | h
    · exact isSupported_of_mentionedInArg h
    · exact isSupported_of_mentionedInArgs h

theorem isSupported_of_mentionedInArg {p : Project} {c : ClassId} :
    ∀ {a : TypeArg ResolvedType}, c ∈ p.mentionedInArg a → (p.decl c).isSupported = true
  | .star, h => by simp [mentionedInArg] at h
  | .type _ ty, h => isSupported_of_mentioned (t := ty) (by simpa [mentionedInArg] using h)

end

theorem isSupported_of_mentions {p : Project} {c d : ClassId} (h : d ∈ p.mentions c) :
    (p.decl d).isSupported = true := by
  obtain ⟨f, -, hd⟩ := List.mem_flatMap.mp h
  exact isSupported_of_mentioned hd

/-! ## Gathering -/

section Gather

variable {next : ClassId → List ClassId}

@[simp] theorem gather_nil (remaining : List ClassId) : gather next remaining [] = [] := by
  rw [gather]
  split
  next => rfl
  next h => simp at h

theorem gather_cons_of_mem {remaining pending : List ClassId} {c : ClassId} (h : c ∈ remaining) :
    gather next remaining (c :: pending) = c :: gather next (remaining.erase c) (next c ++ pending) := by
  rw [gather]
  split
  next he => simp [h] at he
  next d rest he =>
    rw [List.dropWhile_cons_of_neg (by simpa using h)] at he
    cases he
    rfl

theorem gather_cons_of_not_mem {remaining pending : List ClassId} {c : ClassId} (h : c ∉ remaining) :
    gather next remaining (c :: pending) = gather next remaining pending := by
  rw [gather, gather]
  rw [List.dropWhile_cons_of_pos (by simpa using h)]

/-- Gathering proceeds as its first class does: it remains or it does not. -/
theorem gather_induction {motive : List ClassId → List ClassId → Prop} (next : ClassId → List ClassId)
    (nil : ∀ remaining, motive remaining [])
    (skip : ∀ remaining c pending, c ∉ remaining → motive remaining pending → motive remaining (c :: pending))
    (visit : ∀ remaining c pending, c ∈ remaining → motive (remaining.erase c) (next c ++ pending) →
      motive remaining (c :: pending)) :
    ∀ remaining pending, motive remaining pending
  | remaining, [] => nil remaining
  | remaining, c :: pending =>
    if h : c ∈ remaining then
      have : (remaining.erase c).length < remaining.length := by
        have := List.length_pos_of_mem h
        rw [List.length_erase_of_mem h]
        omega
      visit remaining c pending h (gather_induction next nil skip visit (remaining.erase c) (next c ++ pending))
    else skip remaining c pending h (gather_induction next nil skip visit remaining pending)
termination_by remaining pending => (remaining.length, pending.length)

theorem subset_of_gather (remaining pending : List ClassId) : gather next remaining pending ⊆ remaining := by
  induction remaining, pending using gather_induction next with
  | nil => simp
  | skip remaining c pending h ih => rwa [gather_cons_of_not_mem h]
  | visit remaining c pending h ih =>
    rw [gather_cons_of_mem h]
    exact List.cons_subset.mpr ⟨h, fun _ hd => List.mem_of_mem_erase (ih hd)⟩

theorem nodup_gather {remaining : List ClassId} (pending : List ClassId) (hr : remaining.Nodup) :
    (gather next remaining pending).Nodup := by
  induction remaining, pending using gather_induction next with
  | nil => simp
  | skip remaining c pending h ih => rw [gather_cons_of_not_mem h]; exact ih hr
  | visit remaining c pending h ih =>
    rw [gather_cons_of_mem h, List.nodup_cons]
    refine ⟨fun hc => ?_, ih (hr.erase c)⟩
    exact hr.not_mem_erase (subset_of_gather _ _ hc)

/-- Gathering asks only the gathered classes what they lead to. -/
theorem gather_congr {next' : ClassId → List ClassId} {remaining pending : List ClassId}
    (h : ∀ c ∈ gather next remaining pending, next c = next' c) :
    gather next remaining pending = gather next' remaining pending := by
  induction remaining, pending using gather_induction next with
  | nil => simp
  | skip remaining c pending hc ih =>
    rw [gather_cons_of_not_mem hc] at h ⊢
    rw [gather_cons_of_not_mem hc, ih h]
  | visit remaining c pending hc ih =>
    rw [gather_cons_of_mem hc] at h ⊢
    rw [gather_cons_of_mem hc, ih fun d hd => h d (List.mem_cons_of_mem c hd), h c List.mem_cons_self]

/-- A step from a class to one that it leads to and that remains. -/
def Onward (next : ClassId → List ClassId) (remaining : List ClassId) (a b : ClassId) : Prop :=
  b ∈ next a ∧ b ∈ remaining

/-- A way over classes that remain either avoids `c` or leaves it for the last time. -/
theorem onward_erase {remaining : List ClassId} (hr : remaining.Nodup) {a c x : ClassId}
    (h : ReflTransGen (Onward next remaining) a x) :
    x = c ∨ (a ≠ c ∧ ReflTransGen (Onward next (remaining.erase c)) a x) ∨
      ∃ b ∈ next c, b ∈ remaining.erase c ∧ ReflTransGen (Onward next (remaining.erase c)) b x := by
  induction h using ReflTransGen.head_induction_on with
  | refl =>
    by_cases hx : x = c
    · exact .inl hx
    · exact .inr (.inl ⟨hx, .refl⟩)
  | @head a b hab _ ih =>
    rcases ih with ih | ⟨hb, ih⟩ | ih
    · exact .inl ih
    · have hb' : b ∈ remaining.erase c := hr.mem_erase_iff.mpr ⟨hb, hab.2⟩
      by_cases ha : a = c
      · exact .inr (.inr ⟨b, ha ▸ hab.1, hb', ih⟩)
      · exact .inr (.inl ⟨ha, .head ⟨hab.1, hb'⟩ ih⟩)
    · exact .inr (.inr ih)

theorem mem_gather {remaining : List ClassId} (pending : List ClassId) (hr : remaining.Nodup) {x : ClassId} :
    x ∈ gather next remaining pending ↔
      ∃ a ∈ pending, a ∈ remaining ∧ ReflTransGen (Onward next remaining) a x := by
  induction remaining, pending using gather_induction next with
  | nil => simp
  | skip remaining c pending h ih =>
    rw [gather_cons_of_not_mem h, ih hr]
    simp [h]
  | visit remaining c pending h ih =>
    have keep {a b : ClassId} (h : ReflTransGen (Onward next (remaining.erase c)) a b) :
        ReflTransGen (Onward next remaining) a b :=
      ReflTransGen.mono (fun _ _ h => ⟨h.1, List.mem_of_mem_erase h.2⟩) _ _ h
    rw [gather_cons_of_mem h, List.mem_cons, ih (hr.erase c)]
    constructor
    · rintro (rfl | ⟨a, ha, har, hx⟩)
      · exact ⟨x, by simp, h, .refl⟩
      · rcases List.mem_append.mp ha with ha | ha
        · exact ⟨c, by simp, h, .head ⟨ha, List.mem_of_mem_erase har⟩ (keep hx)⟩
        · exact ⟨a, by simp [ha], List.mem_of_mem_erase har, keep hx⟩
    · rintro ⟨a, ha, har, hx⟩
      rcases onward_erase (c := c) hr hx with hx | ⟨hac, hx⟩ | ⟨b, hb, hbr, hx⟩
      · exact .inl hx
      · have ha' : a ∈ pending := by simpa [hac] using ha
        exact .inr ⟨a, List.mem_append_right _ ha', hr.mem_erase_iff.mpr ⟨hac, har⟩, hx⟩
      · exact .inr ⟨b, List.mem_append_left _ hb, hbr, hx⟩

end Gather

/-! ## Reachable classes -/

/-- Some visible field of the class `a` names the class `b`. -/
def Mentions (p : Project) (a b : ClassId) : Prop := b ∈ p.mentions a

theorem mem_reachable {p : Project} {root c : ClassId} :
    c ∈ p.reachable root ↔ root < p.classes.size ∧ ReflTransGen p.Mentions root c := by
  rw [reachable, mem_gather _ List.nodup_range]
  simp only [List.mem_singleton, exists_eq_left, List.mem_range]
  have : Onward p.mentions (List.range p.classes.size) = p.Mentions := by
    funext a b
    simpa [Onward, Mentions] using fun h => lt_size_of_isSupported (isSupported_of_mentions h)
  rw [this]

/-- Mentions lead to classes of the project only. -/
theorem lt_size_of_reached {p : Project} {root c : ClassId} (hroot : root < p.classes.size)
    (h : ReflTransGen p.Mentions root c) : c < p.classes.size := by
  cases h with
  | refl => exact hroot
  | tail _ h => exact lt_size_of_isSupported (isSupported_of_mentions h)

theorem nodup_reachable (p : Project) (root : ClassId) : (p.reachable root).Nodup :=
  nodup_gather _ List.nodup_range

end Counterpart.Project
