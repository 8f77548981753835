/-
The invariant of the walk that generates the counterparts. In a `Sound` state a class that was visited has its shell at its
address or, when it is finished, its counterpart, for good. Every step preserves it: `place` and `skip` for a class, `field`
for a field, `finish` for the end of a class.
-/
import Counterpart.Proofs.Planning
import Counterpart.Proofs.Walk

namespace Counterpart.Entity

open Kotlin Output Relation

/-! ## The invariant -/

/-- Mentions lead from the selected class to the class `c`. -/
def Generator.Reached (g : Generator) (c : ClassId) : Prop :=
  ReflTransGen g.project.Mentions g.naming.root c

/-- The invariant of the walk that starts in the workspace `w₀`. -/
structure Sound (g : Generator) (w₀ : Workspace) (remaining : List ClassId) (s : State) (steps : List Step) : Prop where
  unvisited : ∀ c, c ∈ remaining ↔ c < g.project.classes.size ∧ s.table.contains c = false
  nodup : remaining.Nodup
  same : w₀.SameFiles s.workspace
  reached : ∀ c ∈ visits steps, g.Reached c
  known : ∀ c, s.table.contains c = true → g.Reached c
  scopes : ∀ step ∈ steps, ∀ sc, step.scope? = some sc → s.table.ref? sc.source = some sc.target
  ready : Ready g.project (s.table.contains · = true) steps
  /-- A class has its shell until it is finished, then its counterpart. -/
  declared : ∀ c r, s.table.ref? c = some r →
    (.finish ⟨c, r⟩ ∈ steps ∧ s.workspace.alone? r = some (g.shell c)) ∨
      ((∀ d ∈ g.project.mentions c, s.table.contains d = true) ∧ s.workspace.alone? r = some (g.counterpart s.table c))

namespace Sound

variable {g : Generator} {w₀ : Workspace} {remaining : List ClassId} {s s' : State} {steps : List Step}

theorem init (g : Generator) (w : Workspace) :
    Sound g w (List.range g.project.classes.size) ⟨w, .empty, []⟩ [.visit g.naming.root none] where
  unvisited c := by simp [Table.contains, Table.outcome?, Table.empty]
  nodup := List.nodup_range
  same := .refl w
  reached c hc := by
    rw [visits, visits, List.mem_singleton] at hc
    exact hc ▸ .refl
  known c hc := by cases hc
  scopes step hstep sc hsc := by
    rw [List.mem_singleton] at hstep
    subst hstep
    cases hsc
  ready := trivial
  declared c r h := by cases h

/-- A class that has a counterpart has a declaration at its address. -/
theorem isSome_alone? (h : Sound g w₀ remaining s steps) {c : ClassId} {r : Ref} (hr : s.table.ref? c = some r) :
    (s.workspace.alone? r).isSome = true := by
  rcases h.declared c r hr with ⟨-, ha⟩ | ⟨-, ha⟩ <;> simp [ha]

/-- A class that was visited before is in the table. -/
theorem skip {c : ClassId} {scope : Option Scope} (hroot : g.naming.root < g.project.classes.size)
    (h : Sound g w₀ remaining s (.visit c scope :: steps)) (hc : c ∉ remaining) :
    Sound g w₀ remaining s steps := by
  have hreached := h.reached c (by simp [visits])
  have hlt := Project.lt_size_of_reached hroot hreached
  have hin : s.table.contains c = true := by
    rw [h.unvisited] at hc
    simpa [hlt] using hc
  refine { h with
    reached := fun d hd => h.reached d (by simp [visits, hd])
    scopes := fun step hstep => h.scopes step (List.mem_cons_of_mem _ hstep)
    ready := Ready.mono (fun d hd => ?_) h.ready
    declared := fun d r hr => ?_ }
  · rcases hd with rfl | hd
    · exact hin
    · exact hd
  · rcases h.declared d r hr with ⟨hf, ha⟩ | hd
    · exact .inl ⟨by simpa using hf, ha⟩
    · exact .inr hd

theorem field {sc : Scope} {f : Field} (h : Sound g w₀ remaining s (.field sc f :: steps)) :
    Sound g w₀ remaining (g.addField sc f s) steps := by
  have ht := Generator.table_addField (g := g) sc f s
  have hw : s.workspace.SameDeclarations (g.addField sc f s).workspace := by
    rw [Generator.workspace_addField]
    exact .addReferences ..
  refine {
    unvisited := by rw [ht]; exact h.unvisited
    nodup := h.nodup
    same := h.same.trans hw.toSameFiles
    reached := h.reached
    known := by rw [ht]; exact h.known
    scopes := by rw [ht]; exact fun step hstep => h.scopes step (List.mem_cons_of_mem _ hstep)
    ready := by rw [ht]; exact h.ready.2
    declared := fun d r hr => ?_ }
  rw [ht] at hr ⊢
  rw [hw.alone]
  rcases h.declared d r hr with ⟨hf, ha⟩ | hd
  · exact .inl ⟨by simpa using hf, ha⟩
  · exact .inr hd

theorem finish {sc : Scope} (h : Sound g w₀ remaining s (.finish sc :: steps)) (hf : g.finish sc s = .ok s') :
    Sound g w₀ remaining s' steps := by
  obtain ⟨ht, ⟨f, -, -, hw⟩, hview⟩ := Generator.finish_cases hf
  have hsc := h.scopes _ List.mem_cons_self sc rfl
  refine {
    unvisited := by rw [ht]; exact h.unvisited
    nodup := h.nodup
    same := h.same.trans (.updateDeclaration hw)
    reached := h.reached
    known := by rw [ht]; exact h.known
    scopes := by rw [ht]; exact fun step hstep => h.scopes step (List.mem_cons_of_mem _ hstep)
    ready := by rw [ht]; exact h.ready.2
    declared := fun d r hr => ?_ }
  rw [ht] at hr ⊢
  rw [hview]
  by_cases hd : r = sc.target
  · -- Addresses tell classes apart, for the declaration at one knows its source.
    have hsource : d = sc.source := by
      have source : ∀ {c r}, s.table.ref? c = some r → (s.workspace.alone? r).map (·.source) = some c := by
        intro c r hr
        rcases h.declared c r hr with ⟨-, ha⟩ | ⟨-, ha⟩ <;> rw [ha] <;> rfl
      have := source hr
      rw [hd, source hsc] at this
      exact (Option.some.inj this).symm
    subst hsource
    refine .inr ⟨h.ready.1, ?_⟩
    rw [if_pos hd]
    rcases h.declared _ r hr with ⟨-, ha⟩ | ⟨-, ha⟩
    · rw [ha, Option.map_some, Generator.withParams_shell]
    · rw [ha, Option.map_some, Generator.withParams_counterpart]
  · rw [if_neg hd]
    rcases h.declared d r hr with ⟨hf, ha⟩ | hd'
    · refine .inl ⟨?_, ha⟩
      rcases List.mem_cons.mp hf with hf | hf
      · cases hf; exact absurd rfl hd
      · exact hf
    · exact .inr hd'

/-- The facts about the table and the classes that remain, when a class is entered. -/
theorem enter {c : ClassId} {scope : Option Scope} (h : Sound g w₀ remaining s (.visit c scope :: steps))
    (hc : c ∈ remaining) (o : Outcome) :
    (∀ d, d ∈ remaining.erase c ↔ d < g.project.classes.size ∧ (s.table.add c o).contains d = false) ∧
      (∀ d, (s.table.add c o).contains d = true → g.Reached d) ∧
      (∀ d, s.table.contains d = true → (s.table.add c o).contains d = true) ∧
      ∀ d, (∀ e ∈ g.project.mentions d, s.table.contains e = true) →
        g.counterpart (s.table.add c o) d = g.counterpart s.table d := by
  have hfresh := ((h.unvisited c).mp hc).2
  have hadd := Table.contains_add hfresh o
  refine ⟨fun d => ?_, fun d hd => ?_, fun d hd => (hadd d).mpr (.inr hd), fun d hd => ?_⟩
  · have hout : (s.table.add c o).contains d = false ↔ d ≠ c ∧ s.table.contains d = false := by
      rw [← Bool.not_eq_true, hadd, not_or, Bool.not_eq_true]
    rw [h.nodup.mem_erase_iff, h.unvisited, hout]
    exact and_left_comm
  · rcases (hadd d).mp hd with rfl | hd
    · exact h.reached d (by simp [visits])
    · exact h.known d hd
  · exact Generator.counterpart_congr fun e he => Table.ref?_add_of_contains hfresh (hd e he)

theorem placeSkipped {c : ClassId} {scope : Option Scope} {message location : String}
    (h : Sound g w₀ remaining s (.visit c scope :: steps)) (hc : c ∈ remaining) :
    Sound g w₀ (remaining.erase c) { s.warn message location with table := s.table.add c .skipped } steps := by
  have hfresh := ((h.unvisited c).mp hc).2
  obtain ⟨hrem, hknown, hmono, hsame⟩ := h.enter hc .skipped
  have href := Table.ref?_add_skipped hfresh
  refine {
    unvisited := hrem
    nodup := h.nodup.erase c
    same := h.same
    reached := fun d hd => h.reached d (by simp [visits, hd])
    known := hknown
    scopes := fun step hstep sc hsc => by
      rw [href]
      exact h.scopes step (List.mem_cons_of_mem _ hstep) sc hsc
    ready := Ready.mono (fun d hd => (Table.contains_add hfresh _ d).mpr hd) h.ready
    declared := fun d r hr => ?_ }
  rw [href] at hr
  rcases h.declared d r hr with ⟨hf, ha⟩ | ⟨hd, ha⟩
  · exact .inl ⟨by simpa using hf, ha⟩
  · exact .inr ⟨fun e he => hmono e (hd e he), by rw [hsame d hd]; exact ha⟩

/-- Placing the class `c` has put its shell at the address `target`, which led nowhere before. -/
structure Entered (g : Generator) (c : ClassId) (place : Place) (target : Ref) (s s' : State) : Prop where
  target_eq : target = place.refTo (g.naming.className g.project c)
  free : s.workspace.alone? target = none
  added : ∃ w, s.workspace.holds place (g.naming.className g.project c) = false ∧
    s.workspace.addDeclaration place (g.shell c) = .ok w ∧ w.SameDeclarations s'.workspace
  alone : ∀ q, s'.workspace.alone? q = if q = target then some (g.shell c) else s.workspace.alone? q
  table : s'.table = s.table.add c (.generated target)

/-- A plan that gives every reached class a file that is there. -/
def Covered (g : Generator) (files : Nat) : Prop :=
  ∀ c, g.Reached c → ∃ file, g.plan.entityFile? (g.project.decl c).file = some file ∧ file < files

/-- In a sound state, placing a class skips it or enters it. -/
theorem place_cases {c : ClassId} {scope : Option Scope} {new : List Step} (hcover : Covered g w₀.files.size)
    (h : Sound g w₀ remaining s (.visit c scope :: steps)) (hp : g.place c scope s = .ok (s', new)) :
    (new = [] ∧ ∃ message location, s' = { s.warn message location with table := s.table.add c .skipped }) ∨
      ∃ place target, g.placeOf c scope = .ok place ∧ new = g.fieldSteps ⟨c, target⟩ ∧
        Entered g c place target s s' := by
  obtain ⟨place, hplace, ⟨-, rfl, message, rfl⟩ | ⟨hfree, target, w, rfl, hw, rfl, rfl⟩⟩ := Generator.place_cases hp
  · exact .inl ⟨rfl, message, _, rfl⟩
  have hparent : ∀ parent, place = .inside parent → (s.workspace.alone? parent).isSome = true := by
    rintro parent rfl
    rcases Generator.placeOf_cases hplace with ⟨_, _, he⟩ | ⟨sc, hsc, _, he⟩
    · cases he
    · cases he
      exact h.isSome_alone? (h.scopes _ List.mem_cons_self sc hsc)
  have hlt : place.file < s.workspace.files.size := by
    rcases Generator.placeOf_cases hplace with ⟨file, hfile, rfl⟩ | ⟨sc, hsc, _, rfl⟩
    · obtain ⟨file', hfile', hlt⟩ := hcover c (h.reached c (by simp [visits]))
      rw [hfile] at hfile'
      cases hfile'
      exact h.same.size ▸ hlt
    · obtain ⟨d, hd⟩ := Option.isSome_iff_exists.mp (hparent _ rfl)
      obtain ⟨d, hd, -⟩ := Option.map_eq_some_iff.mp hd
      exact Workspace.lt_size_of_declaration? hd
  have hsame := Workspace.SameDeclarations.foldl
    (fun w i => .addImport w (place.refTo (g.naming.className g.project c)).file i) (g.copiedImports c) w
  refine .inr ⟨place, _, hplace, rfl, rfl, Generator.alone?_refTo_of_free hparent hfree, ⟨w, hfree, hw, hsame⟩,
    fun q => ?_, rfl⟩
  rw [hsame.alone]
  exact Workspace.alone?_addDeclaration rfl hlt hfree hw q

/-- Generating a class makes its address lead to its shell, and its steps come next. -/
theorem placeGenerated {c : ClassId} {scope : Option Scope} {place : Place} {target : Ref}
    (h : Sound g w₀ remaining s (.visit c scope :: steps)) (hc : c ∈ remaining) (he : Entered g c place target s s') :
    Sound g w₀ (remaining.erase c) s' (g.fieldSteps ⟨c, target⟩ ++ steps) := by
  have hfresh := ((h.unvisited c).mp hc).2
  obtain ⟨hrem, hknown, hmono, hsame⟩ := h.enter hc (.generated target)
  have hreached := h.reached c (by simp [visits])
  have hcontains := Table.contains_add hfresh (.generated target)
  have href : ∀ {d r}, (s.table.add c (.generated target)).ref? d = some r ↔ d = c ∧ r = target ∨ s.table.ref? d = some r :=
    Table.ref?_add_generated_iff hfresh
  have hfiles : s.workspace.SameFiles s'.workspace := by
    obtain ⟨w, -, hw, hsame⟩ := he.added
    exact (Workspace.SameFiles.addDeclaration hw).trans hsame.toSameFiles
  rw [← he.table] at hrem hknown hmono hsame hcontains href
  refine {
    unvisited := hrem
    nodup := h.nodup.erase c
    same := h.same.trans hfiles
    reached := fun d hd => ?_
    known := hknown
    scopes := fun step hstep sc hsc => ?_
    ready := (Ready.fieldSteps g _ _).append (Ready.mono (fun d hd => (hcontains d).mpr hd) h.ready)
    declared := fun d r hr => ?_ }
  · rw [visits_append, visits_fieldSteps] at hd
    rcases List.mem_append.mp hd with hd | hd
    · exact hreached.tail hd
    · exact h.reached d (by simp [visits, hd])
  · rcases List.mem_append.mp hstep with hstep | hstep
    · rw [scope?_fieldSteps hstep] at hsc
      cases hsc
      exact href.mpr (.inl ⟨rfl, rfl⟩)
    · exact href.mpr (.inr (h.scopes step (List.mem_cons_of_mem _ hstep) sc hsc))
  · rw [he.alone]
    rcases href.mp hr with ⟨rfl, rfl⟩ | hr
    · refine .inl ⟨List.mem_append_left _ ?_, by rw [if_pos rfl]⟩
      simp [Generator.fieldSteps]
    · have hr' : r ≠ target := by
        rintro rfl
        have := h.isSome_alone? hr
        rw [he.free] at this
        cases this
      rw [if_neg hr']
      rcases h.declared d r hr with ⟨hf, ha⟩ | ⟨hd, ha⟩
      · exact .inl ⟨List.mem_append_right _ (by simpa using hf), ha⟩
      · exact .inr ⟨fun e he => hmono e (hd e he), by rw [hsame d hd]; exact ha⟩

theorem place {c : ClassId} {scope : Option Scope} {new : List Step} (hcover : Covered g w₀.files.size)
    (h : Sound g w₀ remaining s (.visit c scope :: steps)) (hc : c ∈ remaining)
    (hp : g.place c scope s = .ok (s', new)) : Sound g w₀ (remaining.erase c) s' (new ++ steps) := by
  obtain ⟨rfl, message, location, rfl⟩ | ⟨place, target, -, rfl, he⟩ := h.place_cases hcover hp
  · exact h.placeSkipped hc
  · exact h.placeGenerated hc he

end Sound

end Counterpart.Entity
