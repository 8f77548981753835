/-
Generated classes and declarations correspond. After planning and generation the declarations of the workspace, at every
depth, are what the addresses in the table lead to, one for each generated class (`Entity.Matched`); each is in the file
planned for its class, and inside the counterpart of the class around it when it is inside any (`Entity.WellPlaced`).
-/
import Counterpart.Proofs.Run

namespace Counterpart.Entity

open Kotlin Output

/-! ## The generated classes -/

namespace Table

variable {t : Table} {c : ClassId} {r : Ref}

/-- The generated classes with the addresses of their counterparts, in order. -/
def generated (t : Table) : List (ClassId × Ref) := t.entries.filterMap fun e => e.2.ref?.map (e.1, ·)

theorem mem_generated (hn : (t.entries.map (·.1)).Nodup) : (c, r) ∈ t.generated ↔ t.ref? c = some r := by
  obtain ⟨entries⟩ := t
  simp only [generated, ref?, outcome?]
  induction entries with
  | nil => simp
  | cons e entries ih =>
    obtain ⟨hc, hn⟩ := List.nodup_cons.mp hn
    rw [List.find?_cons]
    by_cases he : e.1 = c
    · subst he
      -- no later entry is about this class
      have hrest : (e.1, r) ∉ entries.filterMap fun e => e.2.ref?.map (e.1, ·) := by
        rw [ih hn]
        intro h
        obtain ⟨o, ho, -⟩ := Option.bind_eq_some_iff.mp h
        obtain ⟨e', he', -⟩ := Option.map_eq_some_iff.mp ho
        have hkey : e'.1 = e.1 := by simpa using List.find?_some he'
        exact hc (List.mem_map.mpr ⟨e', List.mem_of_find?_eq_some he', hkey⟩)
      rw [beq_self_eq_true, List.filterMap_cons]
      cases hr : e.2.ref? with
      | none => simpa [hr] using hrest
      | some s => simp [hr, hrest, eq_comm]
    · have hkey : (e.1 == c) = false := by simpa using he
      rw [hkey, ← ih hn, List.filterMap_cons]
      cases e.2.ref? with
      | none => rfl
      | some s => simp [Ne.symm he]

theorem nodup_generated (hn : (t.entries.map (·.1)).Nodup) : (t.generated.map (·.1)).Nodup := by
  refine hn.sublist ?_
  rw [generated]
  induction t.entries with
  | nil => exact .slnil
  | cons e entries ih =>
    rw [List.filterMap_cons, List.map_cons]
    cases e.2.ref? with
    | none => exact ih.cons _
    | some r => exact ih.cons_cons _

end Table

/-! ## The correspondence -/

/-- The generated classes of a table are the sources of the declarations in a workspace, one of each for each. -/
structure Matched (t : Table) (w : Workspace) : Prop where
  /-- An address in the table leads to the declaration of its class. -/
  resolved : ∀ e ∈ t.generated, ∃ d, w.declaration? e.2 = some d ∧ d.source = e.1
  /-- A declaration is what its address leads to, which is that of one class. -/
  addressed : ∀ x ∈ w.declarations, w.declaration? x.1 = some x.2 ∧ ∃! c, (c, x.1) ∈ t.generated
  perm : (w.declarations.map fun x => (x.2.source, x.1)).Perm t.generated
  classes : (t.generated.map (·.1)).Nodup
  addresses : (t.generated.map (·.2)).Nodup

/-- The counterparts of the classes of a table are where the plan and the classes around them put them. -/
structure WellPlaced (p : Project) (plan : Plan) (t : Table) (w : Workspace) : Prop where
  planned : ∀ e ∈ t.generated, plan.entityFile? (p.decl e.1).file = some e.2.file
  inside : ∀ e ∈ t.generated, 1 < e.2.path.length →
    ∃ parent r name, (p.decl e.1).parent? = some parent ∧ (parent, r) ∈ t.generated ∧ e.2 = r.child name
  distinct : w.Distinct

namespace Complete

variable {g : Generator} {w w' : Workspace} {t : Table} {c : ClassId} {r : Ref} {d : Declaration}

theorem nodup_entries (h : Complete g w w' t) : (t.entries.map (·.1)).Nodup := by
  rw [h.order]
  exact Project.nodup_gather _ List.nodup_range

theorem ref?_iff (h : Complete g w w' t) : t.ref? c = some r ↔ ∃ d, w'.declaration? r = some d ∧ d.source = c :=
  h.arranged.ref?_iff h.alone

theorem perm_generated (h : Complete g w w' t) :
    (w'.declarations.map fun x => (x.2.source, x.1)).Perm t.generated := by
  have hnodup := h.arranged.distinct.nodup_declarations
  have hnodup' : (w'.declarations.map fun x => (x.2.source, x.1)).Nodup := by
    refine List.Nodup.of_map Prod.snd ?_
    rwa [List.map_map]
  refine (List.perm_ext_iff_of_nodup hnodup' (.of_map _ (Table.nodup_generated h.nodup_entries))).mpr fun ⟨c, r⟩ => ?_
  rw [Table.mem_generated h.nodup_entries, h.ref?_iff]
  simp [h.arranged.distinct.mem_declarations, and_comm]

theorem matched (h : Complete g w w' t) : Matched t w' where
  resolved e he := h.ref?_iff.mp ((Table.mem_generated h.nodup_entries).mp he)
  addressed := by
    intro x hx
    have hd := h.arranged.distinct.mem_declarations.mp hx
    simp only [Table.mem_generated h.nodup_entries, h.ref?_iff]
    refine ⟨hd, x.2.source, ⟨x.2, hd, rfl⟩, ?_⟩
    rintro c ⟨d, hd', rfl⟩
    cases hd.symm.trans hd'
    rfl
  perm := h.perm_generated
  classes := Table.nodup_generated h.nodup_entries
  addresses := by
    have := h.arranged.distinct.nodup_declarations
    refine (h.perm_generated.map _).nodup_iff.mp ?_
    rwa [List.map_map]

theorem wellPlaced (h : Complete g w w' t) (hp : g.project.Loaded) : WellPlaced g.project g.plan t w' where
  planned e he := h.arranged.entityFile? hp ((Table.mem_generated h.nodup_entries).mp he)
  inside := by
    rintro ⟨c, r⟩ he hlen
    cases h.arranged.placed ((Table.mem_generated h.nodup_entries).mp he) with
    | topLevel => simp [Ref.topLevel] at hlen
    | inside hparent hr => exact ⟨_, _, _, hparent, (Table.mem_generated h.nodup_entries).mpr hr, rfl⟩
  distinct := h.arranged.distinct

end Complete

end Counterpart.Entity

namespace Counterpart

/-- **Generated classes and declarations correspond** after planning from no files and generation, and every counterpart is
in its place. -/
theorem Planner.generated_matched {pl : Planner} {plan : Plan} {w : Output.Workspace} (hp : pl.project.Loaded)
    (hroot : pl.naming.root < pl.project.classes.size) (hplan : pl.run .empty = (w, .ok plan)) :
    ∃ w' r, (Entity.Generator.mk pl.project plan pl.naming).run w = (w', .ok r) ∧ Entity.Matched r.table w' ∧
      Entity.WellPlaced pl.project plan r.table w' := by
  obtain ⟨w', r, hrun, hcomplete, -⟩ :=
    Entity.Generator.run_complete (g := ⟨pl.project, plan, pl.naming⟩) hroot (Planner.run_planned hplan)
  exact ⟨w', r, hrun, hcomplete.matched, hcomplete.wellPlaced hp⟩

/-- Classes of two files, one of them nested and named by the class around it. -/
def nestingPlanner : Planner where
  project := (Project.empty.addSource "demo/Node.kt"
    ("package demo\nimport paint.Color\ndata class Node(val leaf: Leaf, val color: Color) " ++
      "\x7b\ndata class Leaf(val up: Node?)\n\x7d")).addSource "paint/Color.kt"
    "package paint\nenum class Color \x7b RED, BLUE \x7d"
  naming := ⟨0, "Tree", "Dto"⟩
  placement := .inlined
  overwrite := false
  onDisk := fun _ => false

theorem generated_matched_nestingPlanner :
    nestingPlanner.project.Loaded ∧ nestingPlanner.naming.root < nestingPlanner.project.classes.size ∧
      ∃ w plan, nestingPlanner.run .empty = (w, .ok plan) ∧
        ∃ w' r, (Entity.Generator.mk nestingPlanner.project plan nestingPlanner.naming).run w = (w', .ok r) ∧
          Entity.Matched r.table w' ∧ Entity.WellPlaced nestingPlanner.project plan r.table w' := by
  have hloaded : nestingPlanner.project.Loaded := (Project.Loaded.empty.addSource _ _).addSource _ _
  have hrun : nestingPlanner.naming.root < nestingPlanner.project.classes.size ∧
      (nestingPlanner.run .empty).2.toOption.isSome = true := by decide +kernel
  obtain ⟨hroot, hrun⟩ := hrun
  obtain ⟨w, plan, hplan⟩ := exists_of_isSome hrun
  exact ⟨hloaded, hroot, w, plan, hplan, Planner.generated_matched hloaded hroot hplan⟩

end Counterpart
