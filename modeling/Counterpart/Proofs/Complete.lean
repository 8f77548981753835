/-
The run that generates the counterparts. On a plan that covers the reachable classes it cannot fail (`run_complete`), and
what it leaves is `Complete`: every generated class has its counterpart at its address, the classes that its fields name
are in the table, and the table lists the classes in the order in which generated ones lead to them.
-/
import Counterpart.Proofs.Arrangement
import Counterpart.Proofs.Functions

namespace Counterpart.Entity

open Kotlin Output Relation

variable {g : Generator}

/-! ## The order of the table -/

/-- The classes that the fields of a class bring into the table; a skipped class brings none. -/
def Generator.leads (g : Generator) (t : Table) (c : ClassId) : List ClassId :=
  if (t.ref? c).isSome then g.project.mentions c else []

theorem Table.ref?_of_entries {t t' : Table} {c : ClassId} {o : Outcome} {added : List (ClassId × Outcome)}
    (hc : t.contains c = false) (h : t'.entries = (t.add c o).entries ++ added) : t'.ref? c = o.ref? := by
  have hself : (t.add c o).outcome? c = some o := by rw [outcome?_add hc, if_pos rfl]
  have : t'.outcome? c = some o := by
    obtain ⟨e, he, ho⟩ := Option.map_eq_some_iff.mp hself
    rw [outcome?, h, List.find?_append, he, Option.some_or, Option.map_some, ho]
  rw [ref?, this, Option.bind_some]

/-- **The walk enters classes as they are reached**, over those that are generated. -/
theorem Generator.entries_walk {remaining : List ClassId} {s s' : State} {steps : List Step}
    (hr : ∀ c ∈ remaining, s.table.contains c = false) (hn : remaining.Nodup)
    (h : g.walk remaining s steps = (s', none)) :
    ∃ added, s'.table.entries = s.table.entries ++ added ∧
      added.map (·.1) = Project.gather (g.leads s'.table) remaining (visits steps) := by
  have erase : ∀ {remaining : List ClassId} {t : Table} {c : ClassId} {o : Outcome},
      (∀ c ∈ remaining, t.contains c = false) → remaining.Nodup → c ∈ remaining →
      ∀ d ∈ remaining.erase c, (t.add c o).contains d = false := by
    intro remaining t c o hr hn hc d hd
    obtain ⟨hdc, hd⟩ := hn.mem_erase_iff.mp hd
    rw [← Bool.not_eq_true, Table.contains_add (hr c hc), not_or, Bool.not_eq_true]
    exact ⟨hdc, hr d hd⟩
  fun_induction g.walk remaining s steps with
  | case1 remaining s => cases h; exact ⟨[], by simp, by simp [visits]⟩
  | case2 => cases h
  | case3 remaining s c scope steps hc s₁ new hp ih =>
    have hfresh := hr c hc
    rw [visits, Project.gather_cons_of_mem hc]
    obtain ⟨place, -, ⟨-, rfl, message, rfl⟩ | ⟨-, target, w, -, -, rfl, rfl⟩⟩ := place_cases hp
    · obtain ⟨added, hadd, horder⟩ := ih (erase hr hn hc) (hn.erase c) h
      have hlead : g.leads s'.table c = [] := by
        rw [leads, Table.ref?_of_entries hfresh hadd]
        rfl
      refine ⟨(c, .skipped) :: added, by rw [hadd]; simp [Table.add], ?_⟩
      rw [List.map_cons, horder, hlead]
      rfl
    · obtain ⟨added, hadd, horder⟩ := ih (erase hr hn hc) (hn.erase c) h
      have hlead : g.leads s'.table c = g.project.mentions c := by
        rw [leads, Table.ref?_of_entries hfresh hadd]
        rfl
      refine ⟨(c, .generated target) :: added, by rw [hadd]; simp [Table.add], ?_⟩
      rw [List.map_cons, horder, visits_append, visits_fieldSteps, hlead]
  | case4 remaining s c scope steps hc ih =>
    rw [visits, Project.gather_cons_of_not_mem hc]
    exact ih hr hn h
  | case5 remaining s sc f steps ih =>
    rw [table_addField] at ih
    exact ih hr hn h
  | case6 => cases h
  | case7 remaining s sc steps s₁ hf ih =>
    rw [(finish_cases hf).1] at ih
    exact ih hr hn h

/-! ## The run -/

/-- What generation leaves behind, in a workspace that was `w`. -/
structure Complete (g : Generator) (w w' : Workspace) (t : Table) : Prop where
  same : w.SameFiles w'
  functions : w'.functions = w.functions
  root : (t.ref? g.naming.root).isSome = true
  reached : ∀ c, t.contains c = true → g.Reached c
  closed : ∀ c r, t.ref? c = some r → ∀ d ∈ g.project.mentions c, t.contains d = true
  alone : ∀ c r, t.ref? c = some r → w'.alone? r = some (g.counterpart t c)
  order : t.entries.map (·.1) =
    Project.gather (g.leads t) (List.range g.project.classes.size) [g.naming.root]
  arranged : Arranged g w' t

variable {w : Workspace}

theorem covered_of_planned (hroot : g.naming.root < g.project.classes.size)
    (h : Planned g.project g.plan (g.project.reachable g.naming.root) w) : Sound.Covered g w.files.size :=
  fun _ hc => h.exists_entityFile? (Project.mem_reachable.mpr ⟨hroot, hc⟩)

/-- The selected class is the first to be placed, so its name is free. -/
theorem Sound.kept_root (hroot : g.naming.root < g.project.classes.size) (hcover : Sound.Covered g w.files.size)
    (hblank : ∀ id, (w.file id).declarations = []) :
    g.Kept fun remaining s steps => Sound g w remaining s steps ∧
      ((s = ⟨w, .empty, []⟩ ∧ steps = [.visit g.naming.root none]) ∨ (s.table.ref? g.naming.root).isSome = true) where
  place {remaining s s' c scope steps new} hc hp h := by
    refine ⟨h.1.place hcover hc hp, .inr ?_⟩
    have hfresh := ((h.1.unvisited c).mp hc).2
    obtain ⟨place, hplace, hcases⟩ := Generator.place_cases hp
    rcases h.2 with ⟨rfl, hsteps⟩ | hr
    · cases hsteps
      rcases hcases with ⟨hheld, -⟩ | ⟨-, target, w', -, -, -, rfl⟩
      · rcases Generator.placeOf_cases hplace with ⟨file, -, rfl⟩ | ⟨_, hsc, -⟩
        · rw [Workspace.holds, hblank] at hheld
          cases hheld
        · cases hsc
      · exact Option.isSome_iff_exists.mpr ⟨target, (Table.ref?_add_generated_iff hfresh).mpr (.inl ⟨rfl, rfl⟩)⟩
    · obtain ⟨r, hr⟩ := Option.isSome_iff_exists.mp hr
      rcases hcases with ⟨-, -, _, rfl⟩ | ⟨-, _, _, -, -, -, rfl⟩ <;> rw [Table.ref?_add_of_ref? hfresh hr] <;> rfl
  known {remaining s c scope steps} hc h := by
    refine ⟨h.1.skip hroot hc, h.2.imp_left fun hstart => ?_⟩
    obtain ⟨rfl, hsteps⟩ := hstart
    cases hsteps
    exact absurd ((h.1.unvisited _).mpr ⟨hroot, rfl⟩) hc
  field {remaining s sc f steps} h := by
    refine ⟨h.1.field, h.2.imp (fun h => by cases h.2) fun h => ?_⟩
    rwa [Generator.table_addField]
  finish {remaining s s' sc steps} hf h := by
    refine ⟨h.1.finish hf, h.2.imp (fun h => by cases h.2) fun h => ?_⟩
    rwa [(Generator.finish_cases hf).1]

/-- **Generation does not fail** on a plan that covers the reachable classes. -/
theorem Generator.run_complete (hroot : g.naming.root < g.project.classes.size)
    (h : Planned g.project g.plan (g.project.reachable g.naming.root) w) :
    ∃ w' r, g.run w = (w', .ok r) ∧ Complete g w w' r.table ∧ r.table.ref? g.naming.root = some r.root := by
  have hcover := covered_of_planned hroot h
  have hk := Sound.kept_root hroot hcover h.declarations
  have hinit := Sound.init g w
  obtain ⟨s, hs⟩ := hk.walk_ok
    (fun {remaining s c scope steps} hc h => by
      obtain ⟨file, hfile, -⟩ := hcover c (h.1.reached c (by simp [visits]))
      exact exists_place hfile fun sc hsc => h.1.isSome_alone? (h.1.scopes _ List.mem_cons_self sc hsc))
    (fun {remaining s sc steps} h => exists_finish (h.1.isSome_alone? (h.1.scopes _ List.mem_cons_self sc rfl)))
    ⟨hinit, .inl ⟨rfl, rfl⟩⟩
  obtain ⟨rest, hsound, hfirst⟩ := hk.walk ⟨hinit, .inl ⟨rfl, rfl⟩⟩ hs
  obtain ⟨-, -, harranged⟩ := (Arranged.kept hroot hcover).walk ⟨hinit, .init h.declarations⟩ hs
  have hsome : (s.table.ref? g.naming.root).isSome = true := by
    rcases hfirst with ⟨-, hsteps⟩ | hfirst
    · cases hsteps
    · exact hfirst
  obtain ⟨added, hadd, horder⟩ := g.entries_walk (fun c hc => ((hinit.unvisited c).mp hc).2) hinit.nodup hs
  obtain ⟨target, ht⟩ := Option.isSome_iff_exists.mp hsome
  have settled : ∀ c r, s.table.ref? c = some r →
      (∀ d ∈ g.project.mentions c, s.table.contains d = true) ∧ s.workspace.alone? r = some (g.counterpart s.table c) := by
    intro c r hr
    rcases hsound.declared c r hr with ⟨hf, -⟩ | hd
    · cases hf
    · exact hd
  refine ⟨s.workspace, ⟨target, s.table, s.diagnostics⟩, ?_, ?_, ht⟩
  · simp [run, hs, ht]
  · exact {
      same := hsound.same
      functions := functions_walk hs
      root := hsome
      reached := hsound.known
      closed := fun c r hr => (settled c r hr).1
      alone := fun c r hr => (settled c r hr).2
      order := by
        rw [hadd]
        simpa [Table.empty, visits] using horder
      arranged := harranged }

/-- The selected class leads to every class in the table, over generated ones. -/
theorem Complete.led {w' : Workspace} {t : Table} (h : Complete g w w' t) {c : ClassId} (hc : t.contains c = true) :
    ReflTransGen (fun a b => b ∈ g.leads t a) g.naming.root c := by
  rw [Table.contains_iff_mem, h.order, Project.mem_gather _ List.nodup_range] at hc
  obtain ⟨a, ha, -, hac⟩ := hc
  rw [List.mem_singleton.mp ha] at hac
  exact ReflTransGen.mono (fun _ _ hab => hab.1) _ _ hac

/-- When no class was skipped the table lists the reachable classes. -/
theorem Complete.entries_eq_reachable {w' : Workspace} {t : Table} (h : Complete g w w' t)
    (hskip : ∀ e ∈ t.entries, e.2 ≠ .skipped) : t.entries.map (·.1) = g.project.reachable g.naming.root := by
  rw [h.order, Project.reachable]
  refine Project.gather_congr fun c hc => ?_
  rw [← h.order, ← Table.contains_iff_mem, Table.contains] at hc
  obtain ⟨o, ho⟩ := Option.isSome_iff_exists.mp hc
  obtain ⟨e, he, heo⟩ := Option.map_eq_some_iff.mp ho
  have := hskip e (List.mem_of_find?_eq_some he)
  rw [heo] at this
  have hr : (t.ref? c).isSome = true := by
    cases o with
    | generated target => simp [Table.ref?, ho, Outcome.ref?]
    | skipped => exact absurd rfl this
  rw [Generator.leads, if_pos hr]

end Counterpart.Entity
