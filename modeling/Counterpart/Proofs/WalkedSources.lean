/-
Reading sources with a trail. Whatever the tokens are, as long as their end is one token and the last, reading them comes to an end:
the reader is never beyond the end, each round of a loop starts further on than the one before, and the number of steps is bounded
by the square of the number of tokens (`TokenSpans.file_terminates`).
-/
import Counterpart.Proofs.WalkedClasses

namespace Counterpart.Kotlin

def WalkedSpans.file {source : String} (toks : WalkedSpans) : Walk source SourceUnit := do
  toks.annotations
  let package ← toks.package
  let imports ← toks.imports
  let classes ← toks.members
  let t ← Walk.step (toks.tokenAt 0)
  if t.isEnd then return ⟨package, imports, classes⟩ else Walk.step (Reader.refuse (.unexpected '\x7d') t.start t.stop)

theorem Retraces.file {n limit : Nat} {source : String} {toks : TokenSpans} {t : Trail} (h : toks.EndsAt n)
    (ht : t.Within n limit) (hroom : t.toll n + t.ahead n + 18 ≤ limit) :
    Retraces n limit (toks.file : Reader source SourceUnit) (WalkedSpans.file toks) t fun _ _ => True := by
  refine .bind (annotations h t ht (by omega)) fun _ u hu hannotations => ?_
  refine .bind (package h hu (by omega)) fun package v hv hpackage => ?_
  refine .bind (imports h v hv (by omega)) fun imports w hw himports => ?_
  have hahead := Trail.ahead_le (n := n) (show t.place ≤ w.place by omega)
  refine .bind (members h w hw (by omega)) fun classes x hx hmembers => ?_
  refine .bind (.look (h.tokenAt 0) hx (by omega)) fun token y hy hlook => ?_
  split
  · exact .pure hy trivial
  · exact .refuse _ _ _ hy (by omega)

namespace TokenSpans

variable {front : TokenSpans} {last : TokenSpan}

theorem endsAt_concat (hfront : ∀ t ∈ front, t.isEnd = false) (hlast : last.isEnd = true) :
    EndsAt (front ++ [last]) front.length := by
  refine ⟨List.length_append, fun i t ht => ?_⟩
  obtain hlt | rfl | hgt := Nat.lt_trichotomy i front.length
  · rw [List.getElem?_append_left hlt] at ht
    rw [hfront t (List.mem_of_getElem? ht)]
    exact ⟨fun heq => absurd heq Bool.false_ne_true, fun heq => absurd heq (Nat.ne_of_lt hlt)⟩
  · rw [List.getElem?_concat_length] at ht
    cases ht
    exact ⟨fun _ => rfl, fun _ => hlast⟩
  · rw [List.getElem?_eq_none (by rw [List.length_append]; exact hgt)] at ht
    cases ht

/-- **Reading comes to an end**, whatever the tokens are in front of the end of the source, and whatever the texts are where they
stand. A reader that keeps its trail comes to what the reader comes to that keeps none. It is never beyond the end; each round of
a loop that another one follows, be it a class that is looked for in vain and skipped as a member, leaves it further on than it
started; and the number of steps is bounded. For the tokens of a source this is what the readers of lists come to. -/
theorem file_terminates (source : String) (hfront : ∀ t ∈ front, t.isEnd = false) (hlast : last.isEnd = true) :
    (∃ r trail, (WalkedSpans.file (front ++ [last]) : Walk source SourceUnit).run.run .start = some (r, trail) ∧
      ((file (front ++ [last]) : Reader source SourceUnit).run 0).run = some (r.map (·, trail.place)) ∧
      (∀ place ∈ trail.place :: trail.steps, place ≤ front.length) ∧
      (∀ round ∈ trail.rounds, round.start < round.stop ∧ round.stop ≤ front.length) ∧
      trail.steps.length ≤ 32 * ((front ++ [last]).length * (front ++ [last]).length)) ∧
    ∀ s, TokenStream.ofSource source = .ok s → s.spans source = front ++ [last] →
      (file (front ++ [last]) : Reader source SourceUnit).Ends 0
        ((·, front.length) <$> (SourceUnit.ofTokens s.tokens).mapError (Fault.toError s.size)) := by
  refine ⟨?_, fun s hs hspans => ?_⟩
  · have hroom : Trail.start.toll front.length + Trail.start.ahead front.length + 18 ≤
        32 * ((front ++ [last]).length * (front ++ [last]).length) := by
      rw [Trail.toll, Trail.ahead, List.length_append, List.length_singleton]
      simp only [Trail.start, List.length_nil, Nat.sub_zero, Nat.add_mul, Nat.mul_add]
      omega
    have hfile : Retraces _ _ (file (front ++ [last]) : Reader source SourceUnit) _ .start _ :=
      .file (endsAt_concat hfront hlast) (.start _ _) hroom
    obtain ⟨r, trail, hwalk, hread, htrail, -⟩ := hfile
    exact ⟨r, trail, hwalk, hread, List.forall_mem_cons.mpr ⟨htrail.place_le, htrail.steps_le⟩, htrail.rounds_lt, htrail.length_le⟩
  · have hlength : s.tokens.length = front.length := by
      have := congrArg List.length hspans
      rw [TokenStream.length_spans, List.length_append, List.length_singleton] at this
      omega
    have hindex : s.index s.tokens = 0 := Nat.sub_self _
    have hends := Tracks.ends_file (TokenStream.lossless hs) (List.suffix_refl s.tokens)
    rwa [hspans, hindex, hlength] at hends

/-- The tokens of `public val x`, a member that is read up to `val` before it turns out to be no class. -/
def publicValue : TokenSpans := [⟨some .name, 0, 6⟩, ⟨some .name, 7, 10⟩, ⟨some .name, 11, 12⟩]

theorem file_terminates_publicValue :
    (∀ t ∈ publicValue, t.isEnd = false) ∧ (Reader.endBounds "public val x").isEnd = true ∧
    ∃ r trail, (WalkedSpans.file (publicValue ++ [Reader.endBounds "public val x"]) : Walk "public val x" SourceUnit).run.run .start =
        some (r, trail) ∧
      (∀ place ∈ trail.place :: trail.steps, place ≤ 3) ∧ (∀ round ∈ trail.rounds, round.start < round.stop ∧ round.stop ≤ 3) ∧
      trail.steps.length ≤ 512 := by
  have hfront : ∀ t ∈ publicValue, t.isEnd = false := by decide
  obtain ⟨r, trail, hwalk, -, hplaces, hrounds, hsteps⟩ :=
    (file_terminates "public val x" hfront (isEnd_endBounds "public val x")).1
  exact ⟨hfront, rfl, r, trail, hwalk, hplaces, hrounds, hsteps⟩

end TokenSpans

end Counterpart.Kotlin
