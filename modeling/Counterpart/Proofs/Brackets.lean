/-
The brackets of a source that is read. They are matched, save that closing braces may be left over
(`SourceUnit.brackets_nested_iff`): in a list of type parameters and in a default value tokens are skipped one by one, and of
the closing brackets that turn up there only parentheses and square brackets are refused.
-/
import Counterpart.Proofs.RespacedSources

namespace Counterpart.Kotlin

/-- Every token beside itself. -/
def twinsOf (ts : List Token) : List (Twin Eq) := ts.map fun t => ⟨t, t, rfl, fun _ => rfl, fun _ => rfl⟩

theorem lefts_twinsOf (ts : List Token) : lefts (twinsOf ts) = ts := by
  simp [lefts, twinsOf, Function.comp_def]

theorem rights_twinsOf (ts : List Token) : rights (twinsOf ts) = ts := by
  simp [rights, twinsOf, Function.comp_def]

theorem respaced_twinsOf (ts : List Token) : Aligned (twinsOf ts) where
  adjacent z hz := by
    obtain ⟨t, -, rfl⟩ := List.mem_map.mp (List.mem_of_mem_tail hz)
    rfl
  modifier z _ _ _ _ _ := z.text_eq.symm

/-- **Brackets** of a source that is read are nested, save for closing braces; these are nested too when there are as many of
them as of opening ones. -/
theorem SourceUnit.brackets_nested_iff {source : String} {s : TokenStream} {u : SourceUnit}
    (hs : TokenStream.ofSource source = .ok s) (hu : SourceUnit.ofSource source = .ok u) :
    Closes true [] s.tokens ∧ (Nested s.tokens ↔ marks '\x7b' s.tokens = marks '\x7d' s.tokens) := by
  have hrun := ofTokens_alongside (respaced_twinsOf s.tokens)
  rw [lefts_twinsOf, rights_twinsOf] at hrun
  rw [SourceUnit.ofSource, hs] at hu
  change (SourceUnit.ofTokens s.tokens).mapError (Fault.toError s.size) = .ok u at hu
  generalize SourceUnit.ofTokens s.tokens = x at hrun hu
  cases x with
  | error e => cases hu
  | ok v =>
    cases hrun with
    | ok h => exact ⟨h.2, h.2.nested_iff⟩

/-- A class with groups of every kind. -/
def groupedSource : String :=
  "class Page<T>(val first: T, val rest: List<T> = listOf(first).filter \x7b it != old[0] \x7d) \x7b fun f() \x7b \x7d \x7d"

theorem brackets_nested_iff_groupedSource : ∃ s u, TokenStream.ofSource groupedSource = .ok s ∧
    SourceUnit.ofSource groupedSource = .ok u ∧ marks '\x7b' s.tokens = 3 ∧ Closes true [] s.tokens ∧
    (Nested s.tokens ↔ marks '\x7b' s.tokens = marks '\x7d' s.tokens) := by
  have hread : ((TokenStream.ofSource groupedSource).toOption.map fun s => marks '\x7b' s.tokens) = some 3 ∧
      (SourceUnit.ofSource groupedSource).toOption.isSome = true := by
    decide +kernel
  obtain ⟨s, hs, hmarks⟩ := Option.map_eq_some_iff.mp hread.1
  obtain ⟨u, hu⟩ := Option.isSome_iff_exists.mp hread.2
  have hs := ok_of_toOption hs
  have hu := ok_of_toOption hu
  exact ⟨s, u, hs, hu, hmarks, SourceUnit.brackets_nested_iff hs hu⟩

/-- A closing brace among the type parameters closes nothing, and the class is read. -/
theorem strayBrace_not_nested : ∃ s u, TokenStream.ofSource "class A<\x7d>" = .ok s ∧
    SourceUnit.ofSource "class A<\x7d>" = .ok u ∧ u.classes.map ClassTree.name = ["A"] ∧ ¬Nested s.tokens := by
  have hread : ((TokenStream.ofSource "class A<\x7d>").toOption.map fun s =>
        (marks '\x7b' s.tokens, marks '\x7d' s.tokens)) = some (0, 1) ∧
      ((SourceUnit.ofSource "class A<\x7d>").toOption.map fun u => u.classes.map ClassTree.name) = some ["A"] := by
    decide +kernel
  obtain ⟨s, hs, hmarks⟩ := Option.map_eq_some_iff.mp hread.1
  obtain ⟨u, hu, hnames⟩ := Option.map_eq_some_iff.mp hread.2
  obtain ⟨hopen, hclose⟩ := Prod.mk.inj hmarks
  refine ⟨s, u, ok_of_toOption hs, ok_of_toOption hu, hnames, fun hnested => ?_⟩
  have heq := hnested.marks_eq
  omega

end Counterpart.Kotlin
