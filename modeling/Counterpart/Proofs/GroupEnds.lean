/-
Where a group ends. A group is skipped exactly when some tokens from its opening bracket on are properly nested and close it, and
then up to its closing bracket; otherwise the fault is at the first closing bracket that does not close the innermost open one,
or, without such a bracket, at the innermost one that is open at the end (`skipGroup_iff_isGroup`).
-/
import Counterpart.Proofs.NestedGroups

namespace Counterpart.Kotlin

variable {opener t top : Token} {c d : Char} {cs ds : List Char} {ts us front body rest opened up : List Token}

/-- A group from its opening bracket to the one that closes it. -/
inductive IsGroup : List Token → Prop
  | mk {opener closer : Token} {c : Char} {body : List Token} (hopener : opener.closer? = some c) (hbody : Nested body)
    (hcloser : closer.closing? = some c) : IsGroup (opener :: (body ++ [closer]))

/-- The last bracket of the tokens that is not closed in them. -/
def Innermost (top : Token) (ts : List Token) : Prop :=
  ∃ before body, ts = before ++ top :: body ∧ top.closer?.isSome ∧ Nested body

/-- The closing bracket `c` comes after tokens whose innermost open bracket calls for `d`. -/
structure Mismatch (front : List Token) (top t : Token) (c d : Char) : Prop where
  innermost : Innermost top front
  expected : top.closer? = some d
  found : t.closing? = some c
  ne : c ≠ d

/-- No bracket of the tokens closes another one than the innermost that is open before it. -/
def WellMatched (ts : List Token) : Prop :=
  ∀ front t rest, ts = front ++ t :: rest → ∀ top c d, ¬ Mismatch front top t c d

/-! ## The innermost open bracket -/

theorem Closes.of_append (h : Closes false cs (ts ++ us)) : ∃ ds, Closes false ds us := by
  induction ts generalizing cs with
  | nil => exact ⟨cs, h⟩
  | cons t ts ih =>
    cases h with
    | plain _ h => exact ih h
    | opens _ h => exact ih h
    | closes _ h => exact ih h
    | surplus hsurplus => cases hsurplus

/-- Tokens close the same brackets, however one counts. -/
theorem Closes.unique (h : Closes false cs ts) (h' : Closes false ds ts) : cs = ds := by
  induction h generalizing ds with
  | nil =>
    cases h'
    rfl
  | plain ht _ ih =>
    obtain ⟨hcloser, hclosing⟩ := Token.not_isBracket_iff.mp ht
    cases h' with
    | plain _ h' => exact ih h'
    | opens ht' => simp [hcloser] at ht'
    | closes ht' => simp [hclosing] at ht'
    | surplus hsurplus => cases hsurplus
  | opens ht _ ih =>
    cases h' with
    | plain ht' => simp [(Token.not_isBracket_iff.mp ht').1] at ht
    | opens ht' h' =>
      obtain rfl := Option.some.inj (ht.symm.trans ht')
      exact (List.cons.inj (ih h')).2
    | closes ht' => simp [closer?_of_closing? ht'] at ht
    | surplus hsurplus => cases hsurplus
  | closes ht _ ih =>
    cases h' with
    | plain ht' => simp [(Token.not_isBracket_iff.mp ht').2] at ht
    | opens ht' => simp [closer?_of_closing? ht] at ht'
    | closes ht' h' =>
      obtain rfl := Option.some.inj (ht.symm.trans ht')
      rw [ih h']
    | surplus hsurplus => cases hsurplus
  | surplus hsurplus => cases hsurplus

/-- An open bracket that nothing behind it closes is not part of nested brackets. -/
theorem not_nested_of_open (htop : top.closer?.isSome) (hbody : Nested body) : ¬ Nested (front ++ top :: body) := by
  intro h
  obtain ⟨cs, hcs⟩ := h.closes.of_append
  obtain ⟨c, hc⟩ := Option.isSome_iff_exists.mp htop
  cases hcs with
  | plain ht => simp [(Token.not_isBracket_iff.mp ht).1] at hc
  | opens _ hcs => cases hcs.unique hbody.closes
  | closes ht => simp [closer?_of_closing? ht] at hc
  | surplus hsurplus => cases hsurplus

theorem eq_of_open {top' : Token} {body' : List Token} (hbody : Nested body) (htop' : top'.closer?.isSome) (hbody' : Nested body')
    (h : top :: body = front ++ top' :: body') : top = top' := by
  cases front with
  | nil => exact (List.cons.inj h).1
  | cons u front =>
    obtain ⟨-, rfl⟩ := List.cons.inj h
    exact absurd hbody (not_nested_of_open htop' hbody')

theorem Innermost.unique {top' : Token} (h : Innermost top ts) (h' : Innermost top' ts) : top = top' := by
  obtain ⟨before, body, rfl, htop, hbody⟩ := h
  obtain ⟨before', body', heq, htop', hbody'⟩ := h'
  obtain ⟨more, -, hmore⟩ | ⟨more, -, hmore⟩ := List.append_eq_append_iff.mp heq
  · exact eq_of_open hbody htop' hbody' hmore
  · exact (eq_of_open hbody' htop hbody hmore).symm

/-! ## Open brackets -/

/-- The tokens, from `opener` on, leave the brackets open, innermost first; one closed bracket more and their group ends. -/
inductive Leaves (opener : Token) : List Token → List Token → Prop
  | outer {body : List Token} (hopener : opener.closer?.isSome) (hbody : Nested body) : Leaves opener [opener] (opener :: body)
  | inner {top : Token} {up front body : List Token} (h : Leaves opener up front) (htop : top.closer?.isSome) (hbody : Nested body) :
    Leaves opener (top :: up) (front ++ top :: body)

namespace Leaves

theorem append_nested (h : Leaves opener up front) (hus : Nested us) : Leaves opener up (front ++ us) := by
  cases h with
  | outer hopener hbody => exact .outer hopener (hbody.append hus)
  | inner h htop hbody =>
    rw [List.append_assoc, List.cons_append]
    exact .inner h htop (hbody.append hus)

theorem innermost (h : Leaves opener (top :: up) front) : Innermost top front := by
  cases h with
  | outer hopener hbody => exact ⟨[], _, rfl, hopener, hbody⟩
  | inner _ htop hbody => exact ⟨_, _, rfl, htop, hbody⟩

theorem isSome (h : Leaves opener (top :: up) front) : top.closer?.isSome := by
  cases h with
  | outer hopener => exact hopener
  | inner _ htop => exact htop

theorem opens (h : Leaves opener up front) (ht : t.closer?.isSome) : Leaves opener (t :: up) (front ++ [t]) :=
  .inner h ht .nil

theorem plain (h : Leaves opener up front) (ht : t.isBracket = false) : Leaves opener up (front ++ [t]) :=
  h.append_nested (.plain ht .nil)

/-- The innermost bracket is closed: the group ends with it, or the others stay open. -/
theorem closes (h : Leaves opener (top :: up) front) (htop : top.closer? = some c) (ht : t.closing? = some c) :
    up = [] ∧ IsGroup (front ++ [t]) ∨ Leaves opener up (front ++ [t]) := by
  cases h with
  | outer _ hbody => exact .inl ⟨rfl, .mk htop hbody ht⟩
  | inner h _ hbody =>
    rw [List.append_assoc, List.cons_append]
    exact .inr (h.append_nested (.group htop hbody ht .nil))

end Leaves

/-! ## WellMatched brackets -/

theorem WellMatched.concat (h : WellMatched ts) (ht : ∀ top c d, ¬ Mismatch ts top t c d) : WellMatched (ts ++ [t]) := by
  intro front u rest hsplit top c d hmismatch
  obtain rfl | ⟨rest, v, rfl⟩ := List.eq_nil_or_concat' rest
  · obtain ⟨rfl, hu⟩ := List.append_inj' hsplit rfl
    cases hu
    exact ht top c d hmismatch
  · rw [← List.cons_append, ← List.append_assoc] at hsplit
    exact h front u rest (List.append_inj_left' hsplit rfl) top c d hmismatch

theorem not_mismatch_of_innermost (h : Innermost top ts) (ht : ∀ c, t.closing? = some c → top.closer? = some c) :
    ∀ top c d, ¬ Mismatch ts top t c d := by
  intro top' c d hmismatch
  obtain rfl := h.unique hmismatch.innermost
  exact hmismatch.ne (Option.some.inj ((ht c hmismatch.found).symm.trans hmismatch.expected))

namespace Mismatch

variable {front' rest' : List Token} {t' top' : Token} {c' d' : Char}

theorem eq_of_matched (h : Mismatch front top t c d) (hfirst : WellMatched (front ++ ts)) (h' : Mismatch (front ++ ts) top' t' c' d')
    (hsplit : t :: rest = ts ++ t' :: rest') : t = t' ∧ c = c' ∧ d = d' := by
  cases ts with
  | nil =>
    obtain ⟨rfl, -⟩ := List.cons.inj hsplit
    rw [List.append_nil] at h'
    obtain rfl := h.innermost.unique h'.innermost
    exact ⟨rfl, Option.some.inj (h.found.symm.trans h'.found), Option.some.inj (h.expected.symm.trans h'.expected)⟩
  | cons u ts =>
    obtain ⟨rfl, -⟩ := List.cons.inj hsplit
    exact absurd h (hfirst front t ts rfl top c d)

/-- There is only one first bracket that closes another one than the innermost. -/
theorem unique (h : Mismatch front top t c d) (hfirst : WellMatched front) (h' : Mismatch front' top' t' c' d')
    (hfirst' : WellMatched front') (hsplit : front ++ t :: rest = front' ++ t' :: rest') : t = t' ∧ c = c' ∧ d = d' := by
  obtain ⟨more, rfl, hmore⟩ | ⟨more, rfl, hmore⟩ := List.append_eq_append_iff.mp hsplit
  · exact h.eq_of_matched hfirst' h' hmore
  · obtain ⟨ht, hc, hd⟩ := h'.eq_of_matched hfirst h hmore
    exact ⟨ht.symm, hc.symm, hd.symm⟩

end Mismatch

/-! ## Following a group -/

/-- What may become of a group of which `front` is read and `ts` is left: it ends, or a bracket closes another one than the innermost,
or the innermost bracket is open at the end. -/
inductive GroupOutcome (front ts : List Token) : Except Fault (List Token) → Prop
  | ends (taken : List Token) {rest : List Token} (hsplit : ts = taken ++ rest) (h : IsGroup (front ++ taken)) :
    GroupOutcome front ts (.ok rest)
  | mismatched (more : List Token) {rest : List Token} {top t : Token} {c d : Char} (hsplit : ts = more ++ t :: rest)
    (hfirst : WellMatched (front ++ more)) (h : Mismatch (front ++ more) top t c d) :
    GroupOutcome front ts (.error ⟨.mismatched c d, some t⟩)
  | unclosed {top : Token} (hmatched : WellMatched (front ++ ts)) (h : Innermost top (front ++ ts)) :
    GroupOutcome front ts (.error ⟨.unclosed top.text, some top⟩)

theorem GroupOutcome.cons {x : Except Fault (List Token)} (h : GroupOutcome (front ++ [t]) ts x) : GroupOutcome front (t :: ts) x := by
  cases h with
  | ends taken hsplit h => exact .ends (t :: taken) (congrArg (t :: ·) hsplit) (by simpa using h)
  | mismatched more hsplit hfirst h =>
    exact .mismatched (t :: more) (congrArg (t :: ·) hsplit) (by simpa using hfirst) (by simpa using h)
  | unclosed hmatched h => exact .unclosed (by simpa using hmatched) (by simpa using h)

/-- Reading on, the open brackets stay those that the stack holds. -/
theorem closeGroup_outcome (h : Leaves opener up front) (hmatched : WellMatched front) : GroupOutcome front ts (closeGroup up ts) := by
  induction ts generalizing up front with
  | nil =>
    cases up with
    | nil => cases h
    | cons top up =>
      rw [closeGroup]
      exact .unclosed (by rwa [List.append_nil]) (by rw [List.append_nil]; exact h.innermost)
  | cons t ts ih =>
    cases up with
    | nil => cases h
    | cons top up =>
      have hconcat := fun hclosing => hmatched.concat (not_mismatch_of_innermost h.innermost (t := t) hclosing)
      rw [closeGroup]
      split
      next hopens =>
        obtain ⟨d, hd⟩ := Option.isSome_iff_exists.mp hopens
        have hclosing : ∀ c, t.closing? = some c → top.closer? = some c := fun c hc => by
          simp [closer?_of_closing? hc] at hd
        exact .cons (ih (h.opens hopens) (hconcat hclosing))
      next hopens =>
        rw [Option.not_isSome_iff_eq_none] at hopens
        split
        next hclosing => exact .cons (ih (h.plain (Token.not_isBracket_iff.mpr ⟨hopens, hclosing⟩)) (hconcat (by simp [hclosing])))
        next c hclosing =>
          obtain ⟨d, hd⟩ := Option.isSome_iff_exists.mp h.isSome
          rw [hd, Option.getD_some]
          dsimp only
          split
          next hcd =>
            subst hcd
            obtain ⟨rfl, hgroup⟩ | hleaves := h.closes hd hclosing
            · rw [closeGroup]
              exact .ends [t] rfl hgroup
            · exact .cons (ih hleaves (hconcat fun e he => hd.trans (hclosing.symm.trans he)))
          next hne =>
            exact .mismatched [] rfl (by rwa [List.append_nil])
              (by rw [List.append_nil]; exact ⟨h.innermost, hd, hclosing, hne⟩)

theorem skipGroup_outcome (hopener : opener.closer?.isSome) (ts : List Token) : GroupOutcome [opener] ts (closeGroup [opener] ts) := by
  have hmatched : WellMatched [opener] := by
    intro front t rest hsplit top c d hmismatch
    obtain ⟨⟨before, body, rfl, -⟩, -⟩ := hmismatch
    simp at hsplit
    have := congrArg List.length hsplit
    simp at this
    omega
  exact closeGroup_outcome (.outer hopener .nil) hmatched

/-! ## Skipped groups -/

theorem skipGroup_error {f : Fault} (h : closeGroup [opener] ts = .error f) : skipGroup opener ts = .error f := by
  rw [skipGroup]
  split
  next hok => cases h.symm.trans hok
  next herror => rw [← Except.error.inj (h.symm.trans herror)]

theorem skipGroup_isGroup {g : List Token} (hsplit : opener :: ts = g ++ rest) (h : IsGroup g) :
    ∃ p, skipGroup opener ts = .ok p ∧ p.rest = rest := by
  obtain ⟨hopener, hbody, hcloser⟩ := h
  rw [List.cons_append, List.append_assoc, List.singleton_append] at hsplit
  obtain ⟨rfl, rfl⟩ := List.cons.inj hsplit
  obtain ⟨hlt, hskip⟩ := skipGroup_nested hopener hbody hcloser rest
  exact ⟨_, hskip, rfl⟩

/-- **A group** that starts the tokens is skipped, and nothing behind it. When none does, the fault is at the first bracket that closes
another one than the innermost, or without such a bracket at the innermost one that is open at the end. -/
theorem skipGroup_iff_isGroup {opener : Token} (hopener : opener.closer?.isSome) (ts : List Token) :
    ((∃ p, skipGroup opener ts = .ok p) ↔ ∃ g, g <+: opener :: ts ∧ IsGroup g) ∧
    (∀ p, skipGroup opener ts = .ok p → ∃ g, opener :: ts = g ++ p.rest ∧ IsGroup g ∧
      ∀ g', g' <+: opener :: ts → IsGroup g' → g.length ≤ g'.length) ∧
    ((¬∃ g, g <+: opener :: ts ∧ IsGroup g) →
      (∀ front top t rest c d, opener :: ts = front ++ t :: rest → WellMatched front → Mismatch front top t c d →
        skipGroup opener ts = .error ⟨.mismatched c d, some t⟩) ∧
      (WellMatched (opener :: ts) → ∃ top, Innermost top (opener :: ts) ∧
        skipGroup opener ts = .error ⟨.unclosed top.text, some top⟩)) := by
  have hend : ∀ p, skipGroup opener ts = .ok p → ∃ g, opener :: ts = g ++ p.rest ∧ IsGroup g := by
    intro p hp
    have houtcome := skipGroup_outcome hopener ts
    rw [closeGroup_of_skipGroup hp] at houtcome
    cases houtcome with
    | ends taken hsplit h => exact ⟨_, congrArg (opener :: ·) hsplit, h⟩
  refine ⟨⟨?_, ?_⟩, ?_, fun hnone => ?_⟩
  · rintro ⟨p, hp⟩
    obtain ⟨g, hsplit, hg⟩ := hend p hp
    exact ⟨g, ⟨p.rest, hsplit.symm⟩, hg⟩
  · rintro ⟨g, ⟨rest, hsplit⟩, hg⟩
    obtain ⟨p, hp, -⟩ := skipGroup_isGroup hsplit.symm hg
    exact ⟨p, hp⟩
  · intro p hp
    obtain ⟨g, hsplit, hg⟩ := hend p hp
    refine ⟨g, hsplit, hg, fun g' hprefix hg' => ?_⟩
    obtain ⟨rest, hsplit'⟩ := hprefix
    obtain ⟨p', hp', rfl⟩ := skipGroup_isGroup hsplit'.symm hg'
    obtain rfl := Except.ok.inj (hp.symm.trans hp')
    exact Nat.le_of_eq (congrArg List.length (List.append_cancel_right (hsplit.symm.trans hsplit'.symm)))
  · have houtcome := skipGroup_outcome hopener ts
    generalize hclose : closeGroup [opener] ts = x at houtcome
    cases houtcome with
    | ends taken hsplit h => exact absurd ⟨_, ⟨_, congrArg (opener :: ·) hsplit.symm⟩, h⟩ hnone
    | @mismatched more rest top t c d hsplit hfirst h =>
      have hwhole : opener :: ts = ([opener] ++ more) ++ t :: rest := congrArg (opener :: ·) hsplit
      refine ⟨fun front' top' t' rest' c' d' hsplit' hfirst' h' => ?_, fun hmatched => ?_⟩
      · obtain ⟨rfl, rfl, rfl⟩ := h.unique hfirst h' hfirst' (hwhole.symm.trans hsplit')
        exact skipGroup_error hclose
      · exact absurd h (hmatched _ _ _ hwhole top c d)
    | @unclosed top hmatched h =>
      refine ⟨fun front' top' t' rest' c' d' hsplit' _ h' => ?_, fun _ => ⟨top, h, skipGroup_error hclose⟩⟩
      exact absurd h' (hmatched _ _ _ hsplit' top' c' d')

/-- A bracket on its own. -/
def bracketAt (place : Nat) (c : Char) : Token := ⟨.mark c, String.singleton c, "", place⟩

/-- A square bracket that a parenthesis closes. -/
def crossedBrackets : List Token := [bracketAt 1 '[', bracketAt 2 ')', bracketAt 3 ']']

/-- The fault is at the parenthesis, although the brackets behind it close as many groups as are open. -/
theorem skipGroup_iff_isGroup_crossedBrackets :
    (bracketAt 0 '(').closer?.isSome ∧ (¬∃ g, g <+: bracketAt 0 '(' :: crossedBrackets ∧ IsGroup g) ∧
      skipGroup (bracketAt 0 '(') crossedBrackets = .error ⟨.mismatched ')' ']', some (bracketAt 2 ')')⟩ := by
  have hopener : (bracketAt 0 '(').closer?.isSome := rfl
  obtain ⟨hiff, -, hfault⟩ := skipGroup_iff_isGroup hopener crossedBrackets
  have hnone : ¬∃ g, g <+: bracketAt 0 '(' :: crossedBrackets ∧ IsGroup g := by
    rw [← hiff]
    rintro ⟨p, hp⟩
    have hfail : (skipGroup (bracketAt 0 '(') crossedBrackets).toOption.isSome = false := by decide
    rw [hp] at hfail
    cases hfail
  have hmatched : WellMatched [bracketAt 0 '(', bracketAt 1 '['] := by
    intro front t rest hsplit top c d hmismatch
    have ht : t ∈ [bracketAt 0 '(', bracketAt 1 '['] := by
      rw [hsplit]
      simp
    have hfound := hmismatch.found
    simp only [List.mem_cons, List.not_mem_nil, or_false] at ht
    rcases ht with rfl | rfl <;> cases hfound
  refine ⟨hopener, hnone, (hfault hnone).1 _ (bracketAt 1 '[') _ [bracketAt 3 ']'] ')' ']' rfl hmatched ?_⟩
  exact ⟨⟨[bracketAt 0 '('], [], rfl, rfl, .nil⟩, rfl, rfl, by decide⟩

end Counterpart.Kotlin
