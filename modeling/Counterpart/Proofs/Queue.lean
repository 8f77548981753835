/-
The conversion functions of a run. The queue serves every class once, and serves exactly the classes that the selected one
leads to by calls (`run_converted`); a class calls for those with a counterpart that the conversions of its fields meet
(`mem_calls`). An enum has no conversions, so nothing is called for by one.
-/
import Counterpart.Proofs.Complete
import Counterpart.Proofs.Conversion

namespace Counterpart.Mapper

open Kotlin Output Entity Relation

/-! ## Entering the queue -/

variable {cs remaining queue : List ClassId} {c : ClassId}

theorem perm_enqueue (cs remaining queue : List ClassId) :
    ((enqueue cs remaining queue).2 ++ (enqueue cs remaining queue).1).Perm (queue ++ remaining) := by
  fun_induction enqueue cs remaining queue with
  | case1 => exact .refl _
  | case2 c cs remaining queue h ih =>
    refine ih.trans ?_
    rw [List.append_assoc]
    exact (List.perm_cons_erase h).symm.append_left queue
  | case3 c cs remaining queue h ih => exact ih

theorem mem_enqueue_of_mem (h : c ∈ queue) : c ∈ (enqueue cs remaining queue).2 := by
  fun_induction enqueue cs remaining queue with
  | case1 => exact h
  | case2 d cs remaining queue hd ih => exact ih (List.mem_append_left _ h)
  | case3 d cs remaining queue hd ih => exact ih h

/-- A class that remains is in the queue after it is called for. -/
theorem mem_enqueue_of_called (hc : c ∈ cs) (hr : c ∈ remaining) : c ∈ (enqueue cs remaining queue).2 := by
  fun_induction enqueue cs remaining queue with
  | case1 => cases hc
  | case2 d cs remaining queue hd ih =>
    by_cases hcd : c = d
    · subst hcd
      exact mem_enqueue_of_mem (List.mem_append_right _ List.mem_cons_self)
    · exact ih (List.mem_of_ne_of_mem hcd hc) ((List.mem_erase_of_ne hcd).mpr hr)
  | case3 d cs remaining queue hd ih =>
    have hcd : c ≠ d := by
      rintro rfl
      exact hd hr
    exact ih (List.mem_of_ne_of_mem hcd hc) hr

theorem mem_or_mem_of_mem_enqueue (h : c ∈ (enqueue cs remaining queue).2) : c ∈ queue ∨ c ∈ cs := by
  fun_induction enqueue cs remaining queue with
  | case1 => exact .inl h
  | case2 d cs remaining queue hd ih =>
    rcases ih h with h | h
    · rcases List.mem_append.mp h with h | h
      · exact .inl h
      · exact .inr (List.mem_singleton.mp h ▸ List.mem_cons_self)
    · exact .inr (List.mem_cons_of_mem _ h)
  | case3 d cs remaining queue hd ih => exact (ih h).imp_right (List.mem_cons_of_mem _)

namespace Setting

variable {g : Setting} {plan : Plan}

/-! ## Calls -/

/-- The classes whose functions the function of a class calls. -/
def calls (g : Setting) (c : ClassId) : List ClassId :=
  if (g.project.decl c).isEnum then [] else (g.project.decl c).visibleFields.flatMap fun f => (g.argument c f).2.calls

/-- The function of a class, if the class has a counterpart. -/
def function? (g : Setting) (c : ClassId) : Option Function := (g.table.ref? c).map fun r => (g.draft c r).function

/-- **A class calls for** the classes with a counterpart that the conversions of its fields meet. -/
theorem mem_calls {a b : ClassId} :
    b ∈ g.calls a ↔
      (g.project.decl a).isEnum = false ∧ b ∈ g.project.conversions a ∧ (g.table.ref? b).isSome = true := by
  rw [calls]
  cases (g.project.decl a).isEnum with
  | true => simp
  | false =>
    simp only [Bool.false_eq_true, if_false, true_and, List.mem_flatMap, calls_argument, List.mem_filter,
      Project.conversions]
    exact ⟨fun ⟨f, hf, hb, hr⟩ => ⟨⟨f, hf, hb⟩, hr⟩, fun ⟨⟨f, hf, hb⟩, hr⟩ => ⟨f, hf, hb, hr⟩⟩

theorem calls_draft (c : ClassId) (r : Ref) : (g.draft c r).calls = g.calls c := by
  rw [draft, calls]
  split
  · rfl
  · dsimp only
    rw [List.flatMap_map]

theorem target_draft (c : ClassId) (r : Ref) : (g.draft c r).target = r := by
  rw [draft]
  split <;> rfl

theorem source_function (c : ClassId) (r : Ref) : (g.draft c r).function.source = c := by
  rw [draft]
  split <;> rfl

theorem draft?_of_ref? {r : Ref} (h : g.table.ref? c = some r) : g.draft? c = .ok (some (g.draft c r)) := by
  obtain ⟨o, ho, hr⟩ := Option.bind_eq_some_iff.mp h
  cases o with
  | generated target => cases hr; rw [draft?, ho]
  | skipped => cases hr

/-! ## Serving -/

/-- The file of the functions that go with a counterpart. -/
def fileOf (plan : Plan) (r : Ref) : OutputId := (plan.mapperFile? r.file).getD r.file

theorem same_addDraft (plan : Plan) (d : Draft) (s : State) :
    s.workspace.SameDeclarations (s.addDraft plan d).workspace :=
  (Workspace.SameDeclarations.addReferences ..).trans (.addFunction ..)

theorem functions_addDraft {d : Draft} {s : State} (h : fileOf plan d.target < s.workspace.files.size) :
    (s.addDraft plan d).workspace.functions.Perm (s.workspace.functions ++ [d.function]) := by
  rw [← (Workspace.SameDeclarations.addReferences s.workspace (fileOf plan d.target) d.imports).size] at h
  have := Workspace.functions_addFunction _ d.function h
  rwa [Workspace.functions_addReferences] at this

/-- Serving the queue has generated the functions of the classes `cs`. -/
structure Served (g : Setting) (remaining queue cs : List ClassId) (w w' : Workspace) : Prop where
  same : w.SameDeclarations w'
  functions : w'.functions.Perm (w.functions ++ cs.filterMap g.function?)
  nodup : cs.Nodup
  subset : ∀ c ∈ cs, c ∈ queue ++ remaining
  queued : ∀ c ∈ queue, c ∈ cs
  closed : ∀ c ∈ cs, ∀ d ∈ g.calls c, d ∈ remaining → d ∈ cs
  called : ∀ c ∈ cs, ∃ q ∈ queue, ReflTransGen (fun a b => b ∈ g.calls a) q c

theorem Served.nil (w : Workspace) : Served g remaining [] [] w w where
  same := .refl w
  functions := by simp
  nodup := .nil
  subset := by simp
  queued := by simp
  closed := by simp
  called := by simp

/-- Serving one class before the rest of the queue. -/
theorem Served.cons {cs : List ClassId} {w v w' : Workspace} {f : Function} (hf : g.function? c = some f)
    (hn : (c :: queue ++ remaining).Nodup) (hsame : w.SameDeclarations v) (hv : v.functions.Perm (w.functions ++ [f]))
    (h : Served g (enqueue (g.calls c) remaining queue).1 (enqueue (g.calls c) remaining queue).2 cs v w') :
    Served g remaining (c :: queue) (c :: cs) w w' where
  same := hsame.trans h.same
  functions := by
    rw [List.filterMap_cons_some hf]
    refine h.functions.trans ((hv.append_right _).trans ?_)
    rw [List.append_assoc]
    exact .refl _
  nodup := by
    refine List.nodup_cons.mpr ⟨fun hc => ?_, h.nodup⟩
    exact (List.nodup_cons.mp hn).1 ((perm_enqueue _ _ _).mem_iff.mp (h.subset c hc))
  subset d hd := by
    rcases List.mem_cons.mp hd with rfl | hd
    · exact List.mem_cons_self
    · exact List.mem_cons_of_mem _ ((perm_enqueue _ _ _).mem_iff.mp (h.subset d hd))
  queued d hd := by
    rcases List.mem_cons.mp hd with rfl | hd
    · exact List.mem_cons_self
    · exact List.mem_cons_of_mem _ (h.queued d (mem_enqueue_of_mem hd))
  closed a ha d hd hr := by
    rcases List.mem_cons.mp ha with rfl | ha
    · exact List.mem_cons_of_mem _ (h.queued d (mem_enqueue_of_called hd hr))
    · have hd' : d ∈ _ ++ _ := (perm_enqueue (g.calls c) remaining queue).mem_iff.mpr (List.mem_append_right _ hr)
      rcases List.mem_append.mp hd' with hd' | hd'
      · exact List.mem_cons_of_mem _ (h.queued d hd')
      · exact List.mem_cons_of_mem _ (h.closed a ha d hd hd')
  called d hd := by
    rcases List.mem_cons.mp hd with rfl | hd
    · exact ⟨d, List.mem_cons_self, .refl⟩
    · obtain ⟨q, hq, hqd⟩ := h.called d hd
      rcases mem_or_mem_of_mem_enqueue hq with hq | hq
      · exact ⟨q, List.mem_cons_of_mem _ hq, hqd⟩
      · exact ⟨c, List.mem_cons_self, .head hq hqd⟩

theorem isSome_of_mem_calls {a b : ClassId} (h : b ∈ g.calls a) : (g.table.ref? b).isSome = true :=
  (mem_calls.mp h).2.2

/-- **Serving does not fail** when every class of the queue has a counterpart and the files of the functions are there. -/
theorem serve_served {s : State} (hq : ∀ c ∈ queue, (g.table.ref? c).isSome = true)
    (hn : (queue ++ remaining).Nodup)
    (hfile : ∀ c r, g.table.ref? c = some r → fileOf plan r < s.workspace.files.size) :
    ∃ s' cs, g.serve plan remaining s queue = (s', none) ∧ Served g remaining queue cs s.workspace s'.workspace := by
  fun_induction g.serve plan remaining s queue with
  | case1 remaining s => exact ⟨s, [], rfl, .nil _⟩
  | case2 remaining s c queue e he =>
    obtain ⟨r, hr⟩ := Option.isSome_iff_exists.mp (hq c List.mem_cons_self)
    rw [draft?_of_ref? hr] at he
    cases he
  | case3 remaining s c queue hd ih =>
    obtain ⟨r, hr⟩ := Option.isSome_iff_exists.mp (hq c List.mem_cons_self)
    rw [draft?_of_ref? hr] at hd
    cases hd
  | case4 remaining s c queue d hd ih =>
    obtain ⟨r, hr⟩ := Option.isSome_iff_exists.mp (hq c List.mem_cons_self)
    rw [draft?_of_ref? hr] at hd
    cases hd
    rw [calls_draft] at ih ⊢
    obtain ⟨s', cs, hs', hserved⟩ := ih
      (fun d hd => (mem_or_mem_of_mem_enqueue hd).elim (fun hd => hq d (List.mem_cons_of_mem _ hd)) isSome_of_mem_calls)
      ((perm_enqueue _ _ _).nodup_iff.mpr (List.nodup_cons.mp hn).2)
      (fun d r hr => by rw [(same_addDraft plan _ s).size]; exact hfile d r hr)
    refine ⟨s', c :: cs, hs', hserved.cons (by rw [function?, hr]; rfl) hn (same_addDraft plan _ s) ?_⟩
    exact functions_addDraft (by rw [target_draft]; exact hfile c r hr)

/-! ## The run -/

/-- The workspace `w'` is `w` with the functions of the classes `cs`: those that the selected class leads to by calls. -/
structure Converted (g : Setting) (cs : List ClassId) (w w' : Workspace) : Prop where
  same : w.SameDeclarations w'
  functions : w'.functions.Perm (w.functions ++ cs.filterMap g.function?)
  nodup : cs.Nodup
  mem : ∀ c, c ∈ cs ↔ ReflTransGen (fun a b => b ∈ g.calls a) g.naming.root c

theorem lt_size_of_mem_calls {a b : ClassId} (h : b ∈ g.calls a) : b < g.project.classes.size :=
  Project.lt_size_of_isSupported (Project.isSupported_of_mentions (Project.mem_mentions_of_conversions (mem_calls.mp h).2.1))

/-- **Generating functions does not fail** when the selected class has a counterpart and the files are there. -/
theorem run_converted {w : Workspace} (hroot : (g.project.decl g.naming.root).isSupported = true)
    (href : (g.table.ref? g.naming.root).isSome = true)
    (hfile : ∀ c r, g.table.ref? c = some r → fileOf plan r < w.files.size) :
    ∃ w' ds cs, g.run plan w = (w', .ok ds) ∧ Converted g cs w w' := by
  have hmem : g.naming.root ∈ List.range g.project.classes.size :=
    List.mem_range.mpr (Project.lt_size_of_isSupported hroot)
  have hstart : enqueue [g.naming.root] (List.range g.project.classes.size) [] =
      ((List.range g.project.classes.size).erase g.naming.root, [g.naming.root]) := by
    simp [enqueue, Project.lt_size_of_isSupported hroot]
  have hn : ([g.naming.root] ++ (List.range g.project.classes.size).erase g.naming.root).Nodup :=
    (List.perm_cons_erase hmem).nodup_iff.mp List.nodup_range
  obtain ⟨s, cs, hs, hserved⟩ := serve_served (s := ⟨w, []⟩)
    (fun c hc => by rwa [List.mem_singleton.mp hc]) hn hfile
  refine ⟨s.workspace, s.diagnostics, cs, by simp only [run, hstart, hs], hserved.same, hserved.functions,
    hserved.nodup, fun c => ⟨fun hc => ?_, fun hc => ?_⟩⟩
  · obtain ⟨q, hq, hqc⟩ := hserved.called c hc
    rwa [List.mem_singleton.mp hq] at hqc
  · induction hc with
    | refl => exact hserved.queued _ List.mem_cons_self
    | tail _ hd ih =>
      next b d _ =>
      by_cases hroot : d = g.naming.root
      · exact hroot ▸ hserved.queued _ List.mem_cons_self
      · refine hserved.closed b ih d hd ((List.mem_erase_of_ne hroot).mpr ?_)
        exact List.mem_range.mpr (lt_size_of_mem_calls hd)

end Setting

end Counterpart.Mapper
