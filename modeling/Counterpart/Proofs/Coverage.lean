/-
Which classes have functions. Functions are generated for the classes that conversions call for, one for each. This need not
be every generated class: a class that only an enum names, or that conversions pass over, is called for by none. Where no
generated class is named in this way, every one has its function (`Hooks.one_function_each`).
-/
import Counterpart.Proofs.Run

namespace Counterpart

open Kotlin Output Relation

/-- The function of the class `a` calls that of `b`. -/
def Project.CallsFor (p : Project) (t : Entity.Table) (a b : ClassId) : Prop :=
  (p.decl a).isEnum = false ∧ b ∈ p.conversions a ∧ (t.ref? b).isSome = true

/-- The generated classes, and no others, have one function each. -/
def Generation.OneFunctionEach (g : Generation) : Prop :=
  ∃ t, g.table = some t ∧ (g.workspace.functions.map (·.source)).Nodup ∧
    ∀ c, c ∈ g.workspace.functions.map (·.source) ↔ (t.ref? c).isSome = true

/-- The classes that the selected one calls for, and no others, have one function each. All of them are generated. -/
structure Generation.FunctionsOfCalled (g : Generation) (p : Project) (n : Naming) (t : Entity.Table) : Prop where
  nodup : (g.workspace.functions.map (·.source)).Nodup
  called : ∀ c, c ∈ g.workspace.functions.map (·.source) ↔ ReflTransGen (p.CallsFor t) n.root c
  generated : ∀ c ∈ g.workspace.functions.map (·.source), (t.ref? c).isSome = true

namespace Generation

variable {g : Generation} {p : Project} {n : Naming} {plan : Plan} {t : Entity.Table} {cs : List ClassId}

theorem Made.functionsOfCalled (h : g.Made p n plan t cs) : g.FunctionsOfCalled p n t where
  nodup := h.sources_perm.nodup_iff.mpr h.nodup
  called c := by
    rw [h.sources_perm.mem_iff, h.mem]
    have : (fun a b => b ∈ (Mapper.Setting.mk p n t).calls a) = p.CallsFor t := by
      funext a b
      exact propext Mapper.Setting.mem_calls
    rw [this]
  generated c hc := Option.isSome_iff_exists.mpr (h.exists_ref? (h.sources_perm.mem_iff.mp hc))

/-- Every generated class has its function exactly when all of them are called for. -/
theorem FunctionsOfCalled.oneFunctionEach_iff (ht : g.table = some t) (h : g.FunctionsOfCalled p n t) :
    g.OneFunctionEach ↔ ∀ c, (t.ref? c).isSome = true → ReflTransGen (p.CallsFor t) n.root c := by
  constructor
  · rintro ⟨t', ht', -, hmem⟩ c hc
    cases ht.symm.trans ht'
    exact (h.called c).mp ((hmem c).mpr hc)
  · intro hall
    exact ⟨t, ht, h.nodup, fun c => ⟨h.generated c, fun hc => (h.called c).mpr (hall c hc)⟩⟩

end Generation

namespace Hooks

variable {σ : Type} {h : Hooks σ} {p : Project} {o : Options} {s s' : σ} {g : Generation}

/-- **The functions of a run that succeeds** are those of the classes that the selected one calls for, one for each. So
every generated class has one exactly when every generated class is called for. -/
theorem functions_iff (hrun : h.run [] p o s = (s', .ok g)) :
    ∃ n t, g.naming = some n ∧ g.table = some t ∧ g.FunctionsOfCalled p n t ∧
      (g.OneFunctionEach ↔ ∀ c, (t.ref? c).isSome = true → ReflTransGen (p.CallsFor t) n.root c) := by
  obtain ⟨n, plan, t, cs, hmade⟩ := h.made_of_run hrun
  exact ⟨n, t, hmade.naming, hmade.table, hmade.functionsOfCalled,
    hmade.functionsOfCalled.oneFunctionEach_iff hmade.table⟩

/-- When generated classes name others only where conversions meet them, each has its function. -/
theorem one_function_each (hrun : h.run [] p o s = (s', .ok g))
    (henum : ∀ t a b, g.table = some t → (t.ref? a).isSome = true → (p.decl a).isEnum = true → b ∈ p.mentions a →
      t.ref? b = .none)
    (hconcealed : ∀ t a b f, g.table = some t → (t.ref? a).isSome = true → f ∈ (p.decl a).visibleFields →
      b ∈ p.concealed (p.resolve a f.ty) → t.ref? b = .none) : g.OneFunctionEach := by
  obtain ⟨n, plan, t, cs, hmade⟩ := h.made_of_run hrun
  refine (hmade.functionsOfCalled.oneFunctionEach_iff hmade.table).mpr fun c hc => ?_
  -- every class on the way to a generated one is generated, so each step is a call
  have hled := hmade.led c hc
  induction hled with
  | refl => exact .refl
  | @tail a b _ hab ih =>
    rw [Entity.Generator.leads] at hab
    split at hab
    next ha =>
      refine (ih ha).tail ⟨?_, ?_, hc⟩
      · refine Bool.eq_false_iff.mpr fun he => ?_
        rw [henum t a b hmade.table ha he hab] at hc
        cases hc
      · obtain ⟨f, hf, hb⟩ := List.mem_flatMap.mp hab
        refine List.mem_flatMap.mpr ⟨f, hf, (Project.mem_mentioned.mp hb).resolve_right fun hb => ?_⟩
        rw [hconcealed t a b f hmade.table ha hf hb] at hc
        cases hc
    next => cases hab

end Hooks

/-- A pair whose second half is a star: the class `Leaf` of the first half is generated, but not called for. -/
def pairStarProject : Project :=
  .ofSource "package demo\ndata class Top(val p: Pair<Leaf, *>)\ndata class Leaf(val x: Int)"

/-- What is generated for the pair: counterparts of both classes, and the function of the first. -/
theorem pairStar_generated :
    ∃ g, (Hooks.none fun _ => false).run [] pairStarProject (.ofClass "Top") () = ((), .ok g) ∧
      g.workspace.functions.map (·.source) = [0] ∧ g.table.map (fun t => (t.ref? 1).isSome) = some true := by
  have hrun : (((Hooks.none fun _ => false).run [] pairStarProject (.ofClass "Top") ()).2.toOption.map fun g =>
      (g.workspace.functions.map (·.source), g.table.map fun t => (t.ref? 1).isSome)) = some ([0], some true) := by
    decide +kernel
  obtain ⟨g, hg, hresult⟩ := Option.map_eq_some_iff.mp hrun
  exact ⟨g, eq_ok_of_toOption hg, congrArg Prod.fst hresult, congrArg Prod.snd hresult⟩

theorem functions_iff_pairStarProject :
    ∃ g, (Hooks.none fun _ => false).run [] pairStarProject (.ofClass "Top") () = ((), .ok g) ∧
      ∃ n t, g.naming = some n ∧ g.table = some t ∧ g.FunctionsOfCalled pairStarProject n t ∧
        (g.OneFunctionEach ↔
          ∀ c, (t.ref? c).isSome = true → ReflTransGen (pairStarProject.CallsFor t) n.root c) := by
  obtain ⟨g, hg, -⟩ := pairStar_generated
  exact ⟨g, hg, Hooks.functions_iff hg⟩

/-- There is a generated class without a function. -/
theorem pairStar_not_oneFunctionEach :
    ∃ g, (Hooks.none fun _ => false).run [] pairStarProject (.ofClass "Top") () = ((), .ok g) ∧ ¬ g.OneFunctionEach := by
  obtain ⟨g, hg, hsources, htable⟩ := pairStar_generated
  refine ⟨g, hg, fun ⟨t, ht, _, hmem⟩ => ?_⟩
  rw [ht, Option.map_some, Option.some.injEq] at htable
  have hleaf := (hmem 1).mpr htable
  rw [hsources] at hleaf
  exact absurd hleaf (by decide)

end Counterpart
