/-
The names that refer to counterparts. A file refers to a counterpart by the path of its address alone, and all files are in
one package. A name is free or taken in one place only, so counterparts at the top of two files can have one name. They do
not, and then all counterparts are told apart by name, exactly when the names at the top of the files are all different
(`Hooks.qualifiedNames_distinct_iff`); but for names with dots in them, which can read like the path of another address.
-/
import Counterpart.Proofs.Run

namespace Counterpart

open Kotlin Output Text

namespace Entity

/-! ## Spelling -/

/-- No two addresses with different paths are spelled alike. -/
def Table.SpelledApart (t : Table) : Prop :=
  ∀ c d r s, t.ref? c = some r → t.ref? d = some s → r.qualifiedName = s.qualifiedName → r.path = s.path

namespace Arranged

variable {g : Generator} {w : Workspace} {t : Table} {c : ClassId} {r : Ref}

theorem path_ne_nil (h : Arranged g w t) (hr : t.ref? c = some r) : r.path ≠ [] := by
  cases h.placed hr with
  | topLevel => simp [Ref.topLevel]
  | inside => simp [Ref.child]

/-- The names in an address are those of counterparts. -/
theorem exists_className (h : Arranged g w t) (hr : t.ref? c = some r) {name : String} (hname : name ∈ r.path) :
    ∃ d, (t.ref? d).isSome = true ∧ name = g.naming.className g.project d := by
  induction c, r, hr using h.induction with
  | topLevel c file hr _ => exact ⟨c, by rw [hr]; rfl, List.mem_singleton.mp hname⟩
  | inside c parent r hr _ _ ih =>
    rcases List.mem_append.mp hname with hname | hname
    · exact ih hname
    · exact ⟨c, by rw [hr]; rfl, List.mem_singleton.mp hname⟩

end Arranged

end Entity

theorem Naming.Dotless.className {n : Naming} (h : n.Dotless) {p : Project} {c : ClassId}
    (hc : '.' ∉ (p.decl c).name.toList) : '.' ∉ (n.className p c).toList := by
  rw [Naming.className, String.toList_append, List.mem_append, not_or]
  refine ⟨?_, h.suffix⟩
  split
  · exact h.rootName
  · exact hc

/-- Cutting a qualified name at its dots gives the path back exactly when no name of the path has a dot in it. -/
theorem Output.Ref.split_qualifiedName_iff {r : Ref} (hne : r.path ≠ []) :
    split '.' r.qualifiedName = r.path ↔ ∀ name ∈ r.path, '.' ∉ name.toList :=
  split_join_iff hne

/-! ## Runs -/

namespace Generation

variable {g : Generation} {p : Project} {n : Naming} {plan : Plan} {t : Entity.Table} {cs : List ClassId}

/-- No two generated classes have counterparts of one qualified name. -/
def NamesDistinct (g : Generation) : Prop :=
  ∃ t, g.table = some t ∧
    ∀ c d r s, t.ref? c = some r → t.ref? d = some s → c ≠ d → r.qualifiedName ≠ s.qualifiedName

namespace Made

/-- The first name of an address is at the top of its file. -/
theorem isSome_topLevel (h : g.Made p n plan t cs) {c : ClassId} {r : Ref} (hr : t.ref? c = some r) {name : String}
    (hname : name ∈ r.path.head?) : (g.workspace.declaration? (.topLevel r.file name)).isSome = true := by
  obtain ⟨rest, hpath⟩ := List.head?_eq_some_iff.mp hname
  obtain ⟨d, hd⟩ := h.arranged.exists_of_prefix hr (List.cons_ne_nil name []) ⟨rest, hpath.symm⟩
  exact h.isSome_declaration? hd

/-- Counterparts of one path in two files are inside some of one name at the top of these files. -/
theorem eq_of_path_eq (h : g.Made p n plan t cs) (htop : g.workspace.topLevelNames.Nodup) {c d : ClassId} {r s : Ref}
    (hr : t.ref? c = some r) (hs : t.ref? d = some s) (hpath : r.path = s.path) : c = d := by
  obtain ⟨name, rest, hcons⟩ := List.exists_cons_of_ne_nil (h.arranged.path_ne_nil hr)
  have hname : name ∈ r.path.head? := by rw [hcons]; rfl
  have hfile : r.file = s.file := h.arranged.distinct.nodup_topLevelNames_iff.mp htop _ _ name
    (h.isSome_topLevel hr hname) (h.isSome_topLevel hs (hpath ▸ hname))
  have hrs : r = s := by
    cases r
    cases s
    exact congrArg₂ Ref.mk hfile hpath
  exact h.ref?_injective hr (hrs ▸ hs)

theorem dot_not_mem_path (h : g.Made p n plan t cs)
    (hdots : ∀ c, (t.ref? c).isSome = true → '.' ∉ (p.decl c).name.toList) {c : ClassId} {r : Ref} (hr : t.ref? c = some r) :
    ∀ name ∈ r.path, '.' ∉ name.toList := by
  intro name hname
  obtain ⟨d, hd, rfl⟩ := h.arranged.exists_className hr hname
  exact h.dotless.className (hdots d hd)

theorem spelledApart (h : g.Made p n plan t cs)
    (hdots : ∀ c, (t.ref? c).isSome = true → '.' ∉ (p.decl c).name.toList) : t.SpelledApart := by
  have hsplit : ∀ {c r}, t.ref? c = some r → split '.' r.qualifiedName = r.path := fun hr =>
    (Ref.split_qualifiedName_iff (h.arranged.path_ne_nil hr)).mpr (h.dot_not_mem_path hdots hr)
  intro c d r s hr hs hname
  rw [← hsplit hr, hname, hsplit hs]

theorem namesDistinct_iff (h : g.Made p n plan t cs) :
    g.NamesDistinct ↔ g.workspace.topLevelNames.Nodup ∧ t.SpelledApart := by
  constructor
  · rintro ⟨t', ht', hdistinct⟩
    cases h.table.symm.trans ht'
    have eq_of_name : ∀ {c d r s}, t.ref? c = some r → t.ref? d = some s → r.qualifiedName = s.qualifiedName → r = s := by
      intro c d r s hr hs hname
      have hcd : c = d := Classical.by_contradiction fun hne => hdistinct c d r s hr hs hne hname
      subst hcd
      exact Option.some.inj (hr.symm.trans hs)
    constructor
    · refine h.arranged.distinct.nodup_topLevelNames_iff.mpr fun i j name hi hj => ?_
      obtain ⟨c, hc⟩ := h.exists_ref?_of_declaration? hi
      obtain ⟨d, hd⟩ := h.exists_ref?_of_declaration? hj
      exact congrArg Ref.file (eq_of_name hc hd rfl)
    · intro c d r s hr hs hname
      exact congrArg Ref.path (eq_of_name hr hs hname)
  · rintro ⟨htop, hapart⟩
    refine ⟨t, h.table, fun c d r s hr hs hne hname => hne ?_⟩
    exact h.eq_of_path_eq htop hr hs (hapart c d r s hr hs hname)

end Made

end Generation

/-- **Counterparts are told apart by name** after a run that succeeds exactly when the names at the top of its files, which are
all in the package of the selected class, are all different and no two paths are spelled alike. Spelled alike are only paths with
a dot in a name, and such a name comes from a class that has it. -/
theorem Hooks.qualifiedNames_distinct_iff {σ : Type} {h : Hooks σ} {p : Project} {o : Options} {s s' : σ} {g : Generation}
    (hrun : h.run [] p o s = (s', .ok g)) :
    ∃ n t, g.naming = some n ∧ g.table = some t ∧ g.workspace.InPackage (p.fileOf n.root).package ∧
      (g.NamesDistinct ↔ g.workspace.topLevelNames.Nodup ∧ t.SpelledApart) ∧
      ((∀ c, (t.ref? c).isSome = true → '.' ∉ (p.decl c).name.toList) → t.SpelledApart) := by
  obtain ⟨n, plan, t, cs, hmade⟩ := h.made_of_run hrun
  exact ⟨n, t, hmade.naming, hmade.table, hmade.inPackage, hmade.namesDistinct_iff, hmade.spelledApart⟩

/-- Two classes `X` of two packages, met in different files: their counterparts are at the top of these. -/
def namesakesProject : Project :=
  ((Project.empty.addSource "demo/R.kt" "package demo\nimport b.First\nimport a.X\ndata class R(val f: First, val x: X)").addSource
    "b/B.kt" "package b\ndata class First(val x: X)\ndata class X(val p: Int)").addSource
    "a/A.kt" "package a\ndata class X(val q: String)"

/-- What is generated for the two: counterparts called `XModel`, in two files. -/
theorem namesakes_generated :
    ∃ g, (Hooks.none fun _ => false).run [] namesakesProject (.ofClass "R") () = ((), .ok g) ∧
      g.table.map (fun t => (t.ref? 2, t.ref? 3)) = some (some ⟨1, ["XModel"]⟩, some ⟨2, ["XModel"]⟩) := by
  have hrun : (((Hooks.none fun _ => false).run [] namesakesProject (.ofClass "R") ()).2.toOption.map fun g =>
      g.table.map fun t => (t.ref? 2, t.ref? 3)) = some (some (some ⟨1, ["XModel"]⟩, some ⟨2, ["XModel"]⟩)) := by
    decide +kernel
  obtain ⟨g, hg, htable⟩ := Option.map_eq_some_iff.mp hrun
  exact ⟨g, eq_ok_of_toOption hg, htable⟩

theorem qualifiedNames_distinct_iff_namesakes :
    ∃ g, (Hooks.none fun _ => false).run [] namesakesProject (.ofClass "R") () = ((), .ok g) ∧
      ∃ n t, g.naming = some n ∧ g.table = some t ∧
        g.workspace.InPackage (namesakesProject.fileOf n.root).package ∧
        (g.NamesDistinct ↔ g.workspace.topLevelNames.Nodup ∧ t.SpelledApart) ∧
        ((∀ c, (t.ref? c).isSome = true → '.' ∉ (namesakesProject.decl c).name.toList) → t.SpelledApart) := by
  obtain ⟨g, hg, -⟩ := namesakes_generated
  exact ⟨g, hg, Hooks.qualifiedNames_distinct_iff hg⟩

/-- The two counterparts have one qualified name. -/
theorem namesakes_not_distinct :
    ∃ g, (Hooks.none fun _ => false).run [] namesakesProject (.ofClass "R") () = ((), .ok g) ∧ ¬ g.NamesDistinct := by
  obtain ⟨g, hg, htable⟩ := namesakes_generated
  refine ⟨g, hg, fun ⟨t, ht, hdistinct⟩ => ?_⟩
  rw [ht, Option.map_some, Option.some.injEq, Prod.mk.injEq] at htable
  exact hdistinct 2 3 _ _ htable.1 htable.2 (by decide) rfl

end Counterpart
