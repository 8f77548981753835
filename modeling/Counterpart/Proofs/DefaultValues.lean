/-
Default values. One ends at a comma or at the parenthesis behind it, unless type arguments are open there, and a comparison may open
some that are none. Nothing is lost as long as the lookahead that takes a comparison for type arguments is right about where they
close (`Pending`): then the parameters around a value are read as without it (`classTree_defaults`).
-/
import Counterpart.Proofs.SkippedMembers

namespace Counterpart.Kotlin

variable {t name opener closer : Token} {ts us body rest : List Token} {angles parens n depth : Nat} {afterName : Bool}

/-! ## Angle brackets -/

/-- A token of types that is no bracket. -/
def Token.isTypePart (t : Token) : Bool :=
  match t.kind with
  | .name | .arrow => true
  | .mark c => [',', '.', '?', '*', '@', ':'].contains c
  | _ => false

/-- Whether no angle bracket closes before one has opened; `depth` are open in front of the tokens. -/
def opensAngles : (depth : Nat) → List Token → Bool
  | _, [] => true
  | depth, t :: ts =>
    if t.isMark '<' then opensAngles (depth + 1) ts
    else if t.isMark '>' then 0 < depth && opensAngles (depth - 1) ts
    else opensAngles depth ts

theorem opensAngles_of_isMark {c : Char} (ht : t.isMark c = true) (hless : '<' ≠ c) (hgreater : '>' ≠ c) :
    opensAngles depth (t :: ts) = opensAngles depth ts := by
  rw [opensAngles, if_neg (by simp [isMark_eq_false ht hless]), if_neg (by simp [isMark_eq_false ht hgreater])]

section Lookahead

theorem closesTypeArgs_part (ht : t.isTypePart = true) :
    closesTypeArgs angles parens (t :: ts) = closesTypeArgs angles parens ts := by
  unfold Token.isTypePart at ht
  rw [closesTypeArgs]
  split at ht
  next hkind => simp [hkind]
  next hkind => simp [hkind]
  next c hkind =>
    have hc : c ∈ [',', '.', '?', '*', '@', ':'] := List.contains_iff_mem.mp ht
    simp only [List.mem_cons, List.not_mem_nil, or_false] at hc
    obtain rfl | rfl | rfl | rfl | rfl | rfl := hc <;> simp [hkind]
  next => cases ht

theorem closesTypeArgs_less (ht : t.isMark '<' = true) :
    closesTypeArgs angles parens (t :: ts) = closesTypeArgs (angles + 1) parens ts := by
  simp only [closesTypeArgs, kind_of_isMark ht]

theorem closesTypeArgs_greater (ht : t.isMark '>' = true) :
    closesTypeArgs angles parens (t :: ts) = (decide (angles ≤ 1) || closesTypeArgs (angles - 1) parens ts) := by
  simp only [closesTypeArgs, kind_of_isMark ht]

theorem closesTypeArgs_opener (ht : t.isMark '(' = true) :
    closesTypeArgs angles parens (t :: ts) = closesTypeArgs angles (parens + 1) ts := by
  simp only [closesTypeArgs, kind_of_isMark ht]

theorem closesTypeArgs_closer (ht : t.isMark ')' = true) :
    closesTypeArgs angles parens (t :: ts) = (decide (0 < parens) && closesTypeArgs angles (parens - 1) ts) := by
  simp only [closesTypeArgs, kind_of_isMark ht]

/-- The lookahead goes on behind a token that is no bracket, if it gets that far. -/
theorem closesTypeArgs_of_cons (ht : t.isBracket = false) (hless : t.isMark '<' = false) (hgreater : t.isMark '>' = false)
    (h : closesTypeArgs angles parens (t :: ts) = true) : closesTypeArgs angles parens ts = true := by
  have hopener : t.isMark '(' = false := isMark_of_not_isBracket ht (by decide)
  have hcloser : t.isMark ')' = false := isMark_of_not_isBracket ht (by decide)
  rw [closesTypeArgs] at h
  split at h
  next hkind => simp [Token.isMark, hkind] at hless
  next hkind => simp [Token.isMark, hkind] at hgreater
  next hkind => simp [Token.isMark, hkind] at hopener
  next hkind => simp [Token.isMark, hkind] at hcloser
  next => exact h
  next => exact h
  next => exact (Bool.and_eq_true_iff.mp h).2
  next => cases h

/-- Of the groups in brackets the lookahead enters those in parentheses only. -/
theorem isMark_of_closesTypeArgs {c : Char} (ht : t.closer? = some c) (h : closesTypeArgs angles parens (t :: ts) = true) :
    t.isMark '(' = true := by
  obtain ⟨hkind, -⟩ | ⟨hkind, -⟩ | ⟨hkind, -⟩ := Token.kind_of_closer? ht
  · simp [Token.isMark, hkind]
  · simp [closesTypeArgs, hkind] at h
  · simp [closesTypeArgs, hkind] at h

/-- Across tokens whose brackets are nested and whose angle brackets open first, the lookahead keeps as many open as it has. -/
theorem closesTypeArgs_nested (h : Nested ts) (hn : 1 ≤ n) (hangles : opensAngles depth (ts ++ us) = true)
    (hcloses : closesTypeArgs (n + depth) parens (ts ++ rest) = true) :
    ∃ depth', opensAngles depth' us = true ∧ closesTypeArgs (n + depth') parens rest = true := by
  induction h generalizing depth parens us rest with
  | nil => exact ⟨depth, hangles, hcloses⟩
  | @plain t ts ht _ ih =>
    rw [List.cons_append, opensAngles] at hangles
    rw [List.cons_append] at hcloses
    split at hangles
    next hless =>
      rw [closesTypeArgs_less hless, Nat.add_assoc] at hcloses
      exact ih hangles hcloses
    next hless =>
      split at hangles
      next hgreater =>
        obtain ⟨hdepth, hangles⟩ := Bool.and_eq_true_iff.mp hangles
        have hdepth : 0 < depth := of_decide_eq_true hdepth
        rw [closesTypeArgs_greater hgreater, decide_eq_false (by omega), Bool.false_or, Nat.add_sub_assoc hdepth] at hcloses
        exact ih hangles hcloses
      next hgreater => exact ih hangles (closesTypeArgs_of_cons ht (by simpa using hless) (by simpa using hgreater) hcloses)
  | @group opener closer c body ts hopener hbody hcloser _ ihbody ih =>
    -- the parentheses are counted up and down again, while the angle brackets are counted through the group
    rw [List.cons_append, List.append_assoc, List.cons_append] at hangles hcloses
    have hparen := isMark_of_closesTypeArgs hopener hcloses
    cases hopener.symm.trans (closer?_paren hparen)
    have hclose := isMark_of_closing? hcloser
    rw [opensAngles_of_isMark hparen (by decide) (by decide)] at hangles
    rw [closesTypeArgs_opener hparen] at hcloses
    obtain ⟨depth', hangles, hcloses⟩ := ihbody hangles hcloses
    rw [opensAngles_of_isMark hclose (by decide) (by decide)] at hangles
    rw [closesTypeArgs_closer hclose, decide_eq_true (Nat.succ_pos parens), Bool.true_and, Nat.add_sub_cancel] at hcloses
    exact ih hangles hcloses

/-- The same where no angle bracket of the tokens before is open. -/
theorem closesTypeArgs_opensAngles (h : Nested ts) (hangles : opensAngles 0 ts = true) (hn : 1 ≤ n)
    (hcloses : closesTypeArgs n parens (ts ++ rest) = true) : ∃ n', n ≤ n' ∧ closesTypeArgs n' parens rest = true := by
  rw [← List.append_nil ts] at hangles
  obtain ⟨depth, -, hcloses⟩ := closesTypeArgs_nested h hn hangles hcloses
  exact ⟨n + depth, Nat.le_add_right n depth, hcloses⟩

end Lookahead

/-! ## Types -/

/-- Tokens of types, group by group. Angle brackets stand behind a name. -/
inductive TypeTokens : List Token → Prop
  | nil : TypeTokens []
  | part {t : Token} {ts : List Token} (ht : t.isTypePart = true) (h : TypeTokens ts) : TypeTokens (t :: ts)
  | group {opener closer : Token} {body ts : List Token} (hopener : opener.isMark '(' = true) (hbody : TypeTokens body)
    (hcloser : closer.isMark ')' = true) (h : TypeTokens ts) : TypeTokens (opener :: (body ++ closer :: ts))
  | args {name opener closer : Token} {body ts : List Token} (hname : name.isName = true) (hopener : opener.isMark '<' = true)
    (hbody : TypeTokens body) (hcloser : closer.isMark '>' = true) (h : TypeTokens ts) :
    TypeTokens (name :: opener :: (body ++ closer :: ts))

theorem isTypePart_of_isName (h : t.isName = true) : t.isTypePart = true := by
  rw [Token.isName, beq_iff_eq] at h
  rw [Token.isTypePart, h]

theorem isBracket_of_isTypePart (h : t.isTypePart = true) : t.isBracket = false := by
  refine isBracket_of_kind rfl fun c hc => ?_
  rw [Token.isTypePart, hc] at h
  intro hmem
  simp only [List.mem_cons, List.not_mem_nil, or_false] at hmem
  obtain rfl | rfl | rfl | rfl | rfl | rfl := hmem <;> cases h

namespace TypeTokens

theorem nested (h : TypeTokens ts) : Nested ts := by
  have hangle {t : Token} {c : Char} (ht : t.isMark c = true) (hc : c ∈ ['<', '>']) : t.isBracket = false :=
    isBracket_of_isMark ht (by simp only [List.mem_cons, List.not_mem_nil, or_false] at hc; rcases hc with rfl | rfl <;> decide)
  induction h with
  | nil => exact .nil
  | part ht _ ih => exact .plain (isBracket_of_isTypePart ht) ih
  | group hopener _ hcloser _ ihbody ih => exact .group (closer?_paren hopener) ihbody (closing?_paren hcloser) ih
  | args hname hopener _ hcloser _ ihbody ih =>
    exact .plain (isBracket_of_isName hname) (.plain (hangle hopener (by decide))
      (ihbody.append (.plain (hangle hcloser (by decide)) ih)))

/-- The lookahead passes types. -/
theorem closesTypeArgs (h : TypeTokens ts) (hn : 1 ≤ n) (rest : List Token) :
    closesTypeArgs n parens (ts ++ rest) = Kotlin.closesTypeArgs n parens rest := by
  induction h generalizing n parens rest with
  | nil => rfl
  | part ht _ ih => rw [List.cons_append, closesTypeArgs_part ht, ih hn]
  | group hopener _ hcloser _ ihbody ih =>
    rw [List.cons_append, List.append_assoc, closesTypeArgs_opener hopener, ihbody hn, List.cons_append,
      closesTypeArgs_closer hcloser, decide_eq_true (Nat.succ_pos parens), Bool.true_and, Nat.add_sub_cancel, ih hn]
  | args hname hopener _ hcloser _ ihbody ih =>
    rw [List.cons_append, List.cons_append, List.append_assoc, closesTypeArgs_part (isTypePart_of_isName hname),
      closesTypeArgs_less hopener, ihbody (Nat.le_add_left 1 n), List.cons_append, closesTypeArgs_greater hcloser,
      decide_eq_false (by omega), Bool.false_or, Nat.add_sub_cancel, ih hn]

/-- A list of type arguments is one to the lookahead. -/
theorem closesTypeArgs_list (h : TypeTokens body) (hopener : opener.isMark '<' = true) (hcloser : closer.isMark '>' = true)
    (rest : List Token) : Kotlin.closesTypeArgs 0 0 (opener :: (body ++ closer :: rest)) = true := by
  rw [closesTypeArgs_less hopener, h.closesTypeArgs (Nat.le_refl 1), closesTypeArgs_greater hcloser]
  rfl

end TypeTokens

/-! ## Steps of a value -/

theorem reading_skipDefault_stop (ht : t.isMark ',' = true ∨ t.isMark ')' = true) :
    reading (skipDefault afterName 0 (t :: ts)) = .ok ((), t :: ts) := by
  rw [skipDefault, if_pos (by simpa using ht)]
  rfl

theorem reading_skipDefault_opens (ht : t.isMark '<' = true) (hcloses : closesTypeArgs 0 0 (t :: ts) = true) :
    reading (skipDefault true angles (t :: ts)) = reading (skipDefault false (angles + 1) ts) := by
  rw [skipDefault, if_neg (by simp [Token.isMark, kind_of_isMark ht]), if_pos (by simp [ht, hcloses])]
  cases skipDefault false (angles + 1) ts <;> rfl

theorem reading_skipDefault_closes (ht : t.isMark '>' = true) :
    reading (skipDefault afterName (angles + 1) (t :: ts)) = reading (skipDefault false angles ts) := by
  rw [skipDefault, if_neg (by simp), if_neg (by simp [Token.isMark, kind_of_isMark ht]), if_pos (by simp [ht])]
  rw [Nat.add_sub_cancel]
  cases skipDefault false angles ts <;> rfl

/-- Whatever ends nothing, opens and closes no type arguments is skipped on its own, a group at once. -/
theorem reading_skipDefault_one (hstop : angles = 0 → t.isMark ',' = false ∧ t.isMark ')' = false)
    (hless : t.isMark '<' = true → afterName = true → closesTypeArgs 0 0 (t :: ts) = false)
    (hgreater : t.isMark '>' = true → angles = 0) (hone : reading (skipOne t ts) = .ok ((), us)) :
    reading (skipDefault afterName angles (t :: ts)) = reading (skipDefault t.isName angles us) := by
  obtain ⟨_, hone⟩ := reading_ok_iff.mp hone
  have hstop' : ¬(decide (angles = 0) && (t.isMark ',' || t.isMark ')')) = true := by
    intro h
    obtain ⟨h0, h⟩ := Bool.and_eq_true_iff.mp h
    obtain ⟨hcomma, hparen⟩ := hstop (of_decide_eq_true h0)
    simp [hcomma, hparen] at h
  have hless' : ¬(t.isMark '<' && afterName && closesTypeArgs 0 0 (t :: ts)) = true := by
    intro h
    simp only [Bool.and_eq_true] at h
    rw [hless h.1.1 h.1.2] at h
    cases h.2
  have hgreater' : ¬(t.isMark '>' && decide (0 < angles)) = true := by
    intro h
    obtain ⟨h, h0⟩ := Bool.and_eq_true_iff.mp h
    have := of_decide_eq_true h0
    have := hgreater h
    omega
  rw [skipDefault, if_neg hstop', if_neg hless', if_neg hgreater', hone]
  simp only [bind, Except.bind]
  cases skipDefault t.isName angles us <;> rfl

/-- Within type arguments, types are skipped whatever marks they have. -/
theorem TypeTokens.reading_skipDefault (h : TypeTokens ts) (rest : List Token) (angles : Nat) (afterName : Bool) :
    ∃ afterName', reading (skipDefault afterName (angles + 1) (ts ++ rest)) =
      reading (skipDefault afterName' (angles + 1) rest) := by
  induction h generalizing rest angles afterName with
  | nil => exact ⟨afterName, rfl⟩
  | @part t ts ht _ ih =>
    obtain ⟨afterName', ih⟩ := ih rest angles t.isName
    have hangle {c : Char} (hc : c ∈ ['<', '>']) : t.isMark c = false := by
      rw [← Bool.not_eq_true]
      intro hmark
      rw [Token.isTypePart, kind_of_isMark hmark] at ht
      simp only [List.mem_cons, List.not_mem_nil, or_false] at hc
      obtain rfl | rfl := hc <;> cases ht
    refine ⟨afterName', ?_⟩
    rw [List.cons_append, reading_skipDefault_one (by simp) (by simp [hangle]) (by simp [hangle])
      (reading_skipOne_plain (isBracket_of_isTypePart ht) _), ih]
  | @group opener closer body ts hopener hbody hcloser _ _ ih =>
    obtain ⟨afterName', ih⟩ := ih rest angles opener.isName
    have hother {c : Char} (hc : c ≠ '(') : opener.isMark c = false := isMark_eq_false hopener hc
    have hone := reading_skipOne_nested (closer?_paren hopener) hbody.nested (closing?_paren hcloser) (ts ++ rest)
    refine ⟨afterName', ?_⟩
    rw [List.cons_append, List.append_assoc, List.cons_append,
      reading_skipDefault_one (by simp) (by simp [hother]) (by simp [hother]) hone, ih]
  | @args name opener closer body ts hname hopener hbody hcloser _ ihbody ih =>
    have hmarks := isMark_of_isName hname
    obtain ⟨_, ihbody⟩ := ihbody (closer :: (ts ++ rest)) (angles + 1) false
    obtain ⟨afterName', ih⟩ := ih rest angles false
    have hcloses := hbody.closesTypeArgs_list hopener hcloser (ts ++ rest)
    refine ⟨afterName', ?_⟩
    rw [List.cons_append, List.cons_append, List.append_assoc, List.cons_append,
      reading_skipDefault_one (by simp) (by simp [hmarks]) (by simp [hmarks]) (reading_skipOne_plain (isBracket_of_isName hname) _),
      hname, reading_skipDefault_opens hopener hcloses, ihbody, reading_skipDefault_closes hcloser, ih]

/-! ## Values -/

/-- The tokens of a value, group by group. With `less` a comparison has come before them, with `less'` one has come when they end. -/
inductive ValueTokens : (less : Bool) → List Token → (less' : Bool) → Prop
  | nil {less : Bool} : ValueTokens less [] less
  | plain {less less' : Bool} {t : Token} {ts : List Token} (ht : t.isBracket = false) (hcomma : t.isMark ',' = false)
    (hless : t.isMark '<' = false) (hgreater : t.isMark '>' = false) (h : ValueTokens less ts less') :
    ValueTokens less (t :: ts) less'
  | less {less less' : Bool} {t : Token} {ts : List Token} (ht : t.isMark '<' = true) (h : ValueTokens true ts less') :
    ValueTokens less (t :: ts) less'
  | greater {less less' : Bool} {t : Token} {ts : List Token} (ht : t.isMark '>' = true) (h : ValueTokens less ts less') :
    ValueTokens less (t :: ts) less'
  /-- Behind a comparison, angle brackets in parentheses open before they close. -/
  | group {less less' : Bool} {opener closer : Token} {c : Char} {body ts : List Token} (hopener : opener.closer? = some c)
    (hbody : Nested body) (hcloser : closer.closing? = some c)
    (hangles : less = true → opener.isMark '(' = true → opensAngles 0 body = true) (h : ValueTokens less ts less') :
    ValueTokens less (opener :: (body ++ closer :: ts)) less'
  | typeArgs {less less' : Bool} {name opener closer : Token} {body ts : List Token} (hname : name.isName = true)
    (hopener : opener.isMark '<' = true) (hbody : TypeTokens body) (hcloser : closer.isMark '>' = true)
    (h : ValueTokens less ts less') : ValueTokens less (name :: opener :: (body ++ closer :: ts)) less'

/-- As many lists of type arguments are open as the lookahead can close in front of the tokens, or none. -/
def Pending (angles : Nat) (ts : List Token) : Prop := angles = 0 ∨ ∃ n, angles ≤ n ∧ closesTypeArgs n 0 ts = true

namespace Pending

theorem plain (h : Pending angles (t :: ts)) (ht : t.isBracket = false) (hless : t.isMark '<' = false)
    (hgreater : t.isMark '>' = false) : Pending angles ts :=
  h.imp_right fun ⟨n, hn, hcloses⟩ => ⟨n, hn, closesTypeArgs_of_cons ht hless hgreater hcloses⟩

theorem less (h : Pending angles (t :: ts)) (ht : t.isMark '<' = true) : Pending angles ts := by
  refine h.imp_right fun ⟨n, hn, hcloses⟩ => ⟨n + 1, by omega, ?_⟩
  rwa [closesTypeArgs_less ht] at hcloses

theorem opens (h : Pending angles (t :: ts)) (ht : t.isMark '<' = true) (hcloses : closesTypeArgs 0 0 (t :: ts) = true) :
    Pending (angles + 1) ts := by
  obtain rfl | ⟨n, hn, hcloses'⟩ := h
  · exact .inr ⟨1, Nat.le_refl 1, by rwa [closesTypeArgs_less ht] at hcloses⟩
  · exact .inr ⟨n + 1, by omega, by rwa [closesTypeArgs_less ht] at hcloses'⟩

theorem closes (h : Pending (angles + 1) (t :: ts)) (ht : t.isMark '>' = true) : Pending angles ts := by
  obtain h0 | ⟨n, hn, hcloses⟩ := h
  · cases h0
  · rw [closesTypeArgs_greater ht, Bool.or_eq_true, decide_eq_true_eq] at hcloses
    obtain h1 | hcloses := hcloses
    · exact .inl (by omega)
    · exact .inr ⟨n - 1, by omega, hcloses⟩

theorem group {c : Char} (h : Pending angles (opener :: (body ++ closer :: ts))) (hopener : opener.closer? = some c)
    (hbody : Nested body) (hcloser : closer.closing? = some c)
    (hangles : angles ≠ 0 → opener.isMark '(' = true → opensAngles 0 body = true) : Pending angles ts := by
  by_cases h0 : angles = 0
  · exact .inl h0
  · obtain ⟨n, hn, hcloses⟩ := h.resolve_left h0
    have hparen := isMark_of_closesTypeArgs hopener hcloses
    cases hopener.symm.trans (closer?_paren hparen)
    rw [closesTypeArgs_opener hparen] at hcloses
    obtain ⟨n', hn', hcloses⟩ := closesTypeArgs_opensAngles hbody (hangles h0 hparen) (by omega) hcloses
    rw [closesTypeArgs_closer (isMark_of_closing? hcloser), Bool.and_eq_true] at hcloses
    exact .inr ⟨n', by omega, hcloses.2⟩

theorem typeArgs (h : Pending angles (name :: opener :: (body ++ closer :: ts))) (hname : name.isName = true)
    (hopener : opener.isMark '<' = true) (hbody : TypeTokens body) (hcloser : closer.isMark '>' = true) : Pending angles ts := by
  obtain h0 | ⟨n, hn, hcloses⟩ := h
  · exact .inl h0
  · rw [closesTypeArgs_part (isTypePart_of_isName hname), closesTypeArgs_less hopener, hbody.closesTypeArgs (Nat.le_add_left 1 n),
      closesTypeArgs_greater hcloser, Nat.add_sub_cancel, Bool.or_eq_true, decide_eq_true_eq] at hcloses
    obtain h1 | hcloses := hcloses
    · exact .inl (by omega)
    · exact .inr ⟨n, hn, hcloses⟩

end Pending

/-- **A value** is skipped up to its end, when the lookahead closes nothing behind it that a comparison in it has opened. -/
theorem ValueTokens.reading_skipDefault {less less' : Bool} (h : ValueTokens less ts less') (hless : less = false → angles = 0)
    (hpending : Pending angles (ts ++ rest)) (hrest : less' = true → ∀ n, 1 ≤ n → closesTypeArgs n 0 rest = false)
    (hstop : ∀ t ∈ rest.head?, t.isMark ',' = true ∨ t.isMark ')' = true) (afterName : Bool) :
    reading (skipDefault afterName angles (ts ++ rest)) = .ok ((), rest) := by
  induction h generalizing angles afterName with
  | @nil less =>
    -- a list still open would be closed behind the value
    have h0 : angles = 0 := by
      cases less with
      | false => exact hless rfl
      | true =>
        obtain h0 | ⟨n, hn, hcloses⟩ := hpending
        · exact h0
        · by_contra h0
          rw [List.nil_append, hrest rfl n (by omega)] at hcloses
          cases hcloses
    subst h0
    cases rest with
    | nil =>
      rw [List.nil_append, skipDefault]
      rfl
    | cons t rest => exact reading_skipDefault_stop (hstop t rfl)
  | @plain less less' t ts ht hcomma hnotLess hnotGreater _ ih =>
    have hparen : t.isMark ')' = false := isMark_of_not_isBracket ht (by decide)
    rw [List.cons_append] at hpending ⊢
    rw [reading_skipDefault_one (fun _ => ⟨hcomma, hparen⟩) (by simp [hnotLess]) (by simp [hnotGreater])
      (reading_skipOne_plain ht _)]
    exact ih hless (hpending.plain ht hnotLess hnotGreater) hrest _
  | @less less less' t ts ht _ ih =>
    have hother {c : Char} (hc : c ≠ '<') : t.isMark c = false := isMark_eq_false ht hc
    rw [List.cons_append] at hpending ⊢
    -- taken for type arguments or not, the lookahead has one more bracket to close
    by_cases hopens : afterName = true ∧ closesTypeArgs 0 0 (t :: (ts ++ rest)) = true
    · rw [hopens.1, reading_skipDefault_opens ht hopens.2]
      exact ih (by simp) (hpending.opens ht hopens.2) hrest _
    · rw [reading_skipDefault_one (fun _ => ⟨hother (by decide), hother (by decide)⟩)
        (fun _ hname => by simpa [hname] using hopens) (by simp [hother]) (reading_skipOne_plain (isBracket_of_isMark ht (by decide)) _)]
      exact ih (by simp) (hpending.less ht) hrest _
  | @greater less less' t ts ht _ ih =>
    have hother {c : Char} (hc : c ≠ '>') : t.isMark c = false := isMark_eq_false ht hc
    rw [List.cons_append] at hpending ⊢
    cases angles with
    | zero =>
      rw [reading_skipDefault_one (fun _ => ⟨hother (by decide), hother (by decide)⟩) (by simp [hother]) (fun _ => rfl)
        (reading_skipOne_plain (isBracket_of_isMark ht (by decide)) _)]
      exact ih hless (.inl rfl) hrest _
    | succ angles =>
      rw [reading_skipDefault_closes ht]
      exact ih (fun h => by cases hless h) (hpending.closes ht) hrest _
  | @group less less' opener closer c body ts hopener hbody hcloser hangles _ ih =>
    have hother {d : Char} (hd : d ∉ ['(', '[', '\x7b']) := isMark_of_closer? hopener hd
    rw [List.cons_append, List.append_assoc, List.cons_append] at hpending ⊢
    rw [reading_skipDefault_one (fun _ => ⟨hother (by decide), hother (by decide)⟩) (by simp [hother (d := '<') (by decide)])
      (by simp [hother (d := '>') (by decide)]) (reading_skipOne_nested hopener hbody hcloser _)]
    refine ih hless (hpending.group hopener hbody hcloser fun h0 => hangles ?_) hrest _
    rw [← Bool.not_eq_false]
    exact fun h => h0 (hless h)
  | @typeArgs less less' name opener closer body ts hname hopener hbody hcloser _ ih =>
    have hmarks := isMark_of_isName hname
    have hcloses := hbody.closesTypeArgs_list hopener hcloser (ts ++ rest)
    obtain ⟨_, hskip⟩ := hbody.reading_skipDefault (closer :: (ts ++ rest)) angles false
    rw [List.cons_append, List.cons_append, List.append_assoc, List.cons_append] at hpending ⊢
    rw [reading_skipDefault_one (by simp [hmarks]) (by simp [hmarks]) (by simp [hmarks])
      (reading_skipOne_plain (isBracket_of_isName hname) _), hname, reading_skipDefault_opens hopener hcloses, hskip,
      reading_skipDefault_closes hcloser]
    exact ih hless (hpending.typeArgs hname hopener hbody hcloser) hrest _

/-! ## Parameters -/

theorem behind_head {ts ts₁ ts₂ ts₃ ts₄ rest : List Token} (h₁ : ts₁.length < ts.length + 1) (h₂ : ts₂.length < ts₁.length + 1)
    (h₃ : ts₃.length < ts₂.length) (h₄ : ts₄.length < ts₃.length) (h : rest.length < ts₄.length) : rest.length < ts.length := by
  omega

theorem behind_default {ts us vs rest : List Token} (h : us.length < ts.length) (h₁ : vs.length < us.length + 1)
    (h₂ : rest.length < vs.length + 1) : rest.length < ts.length := by
  omega

/-- A parameter up to its default value. -/
def parameterHead (ts : List Token) : Except Fault (Parsed Field ts.length) := do
  let ⟨marks, ts₁, h₁⟩ ← parameterMarks ⟨[], .pub⟩ ts
  let ⟨property, ts₂, h₂⟩ := takePropertyKeyword ts₁
  let ⟨name, ts₃, h₃⟩ ← simpleName .parameter ts₂
  let ⟨_, ts₄, h₄⟩ ← expectMark .parameterType ts₃
  let ⟨ty, rest, h⟩ ← typeRef ts₄
  return ⟨⟨Name.unquote name, ty, marks.visibility, false, property.getD false, property.isSome, marks.annotations⟩, rest,
    behind_head h₁ h₂ h₃ h₄ h⟩

/-- A parameter is its head, with a default value behind an equals sign. -/
theorem parameter_eq (ts : List Token) : parameter ts = do
    let ⟨f, us, h⟩ ← parameterHead ts
    let ⟨hasDefault, vs, h₁⟩ := takeMark '=' us
    if hasDefault then
      let ⟨_, rest, h₂⟩ ← skipDefault false 0 vs
      return ⟨{ f with hasDefault := true }, rest, behind_default h h₁ h₂⟩
    else return ⟨f, us, h⟩ := by
  rw [parameter, parameterHead]
  simp only [bind_assoc, pure_bind]

theorem parameterHead_placed {k : Nat} {behind : List Token} (hstop : Stops behind) (ts : List Token) :
    Repeats k behind id (parameterHead ts) (parameterHead (placed k behind ts)) := by
  rw [parameterHead, parameterHead]
  refine (parameterMarks_placed hstop _ ts).bind fun marks ts₁ _ _ => ?_
  have hproperty := takePropertyKeyword_placed (k := k) hstop ts₁
  dsimp only
  generalize takePropertyKeyword ts₁ = p, takePropertyKeyword (placed k behind ts₁) = q at hproperty
  obtain ⟨property, ts₂⟩ := hproperty
  refine (simpleName_placed .parameter ts₂).bind fun name ts₃ _ _ => ?_
  refine (expectMark_placed .parameterType ts₃).bind fun _ ts₄ _ _ => ?_
  exact (typeRef_placed hstop ts₄).bind fun ty ts₅ _ _ => .done rfl

theorem placed_zero (behind ts : List Token) : placed 0 behind ts = ts ++ behind := by
  rw [placed]
  exact congrArg (· ++ behind) (List.map_id ts)

section Parameters

variable {f : Field} {head behind : List Token}

theorem takeMark_of_isMark {c : Char} (ht : t.isMark c = true) : takeMark c (t :: ts) = .taken true t ts := by
  rw [takeMark, if_pos ht]

theorem takeMark_of_atMark {c : Char} (hts : atMark c ts = false) : takeMark c ts = .keep false ts := by
  cases ts with
  | nil => rfl
  | cons t ts =>
    have ht : t.isMark c = false := hts
    rw [takeMark, if_neg (by simp [ht])]

theorem reading_parameter_plain (h : reading (parameterHead ts) = .ok (f, us)) (hus : atMark '=' us = false) :
    reading (parameter ts) = .ok (f, us) := by
  obtain ⟨_, h⟩ := reading_ok_iff.mp h
  rw [parameter_eq, h]
  simp only [bind, Except.bind]
  rw [takeMark_of_atMark hus]
  rfl

theorem reading_parameter_default (h : reading (parameterHead ts) = .ok (f, t :: us)) (ht : t.isMark '=' = true)
    (hskip : reading (skipDefault false 0 us) = .ok ((), rest)) :
    reading (parameter ts) = .ok ({ f with hasDefault := true }, rest) := by
  obtain ⟨_, h⟩ := reading_ok_iff.mp h
  obtain ⟨_, hskip⟩ := reading_ok_iff.mp hskip
  rw [parameter_eq, h]
  simp only [bind, Except.bind]
  rw [takeMark_of_isMark ht]
  simp only [Parsed.taken, if_true, hskip]
  rfl

/-- A parameter that ends where its tokens do, and has no default value, is its head. -/
theorem reading_parameterHead (h : reading (parameter ts) = .ok (f, [])) (hf : f.hasDefault = false) :
    reading (parameterHead ts) = .ok (f, []) := by
  obtain ⟨_, h⟩ := reading_ok_iff.mp h
  rw [parameter_eq] at h
  obtain ⟨⟨g, us, hlt⟩, hhead, h⟩ := exists_of_bind_ok h
  dsimp only at h
  generalize takeMark '=' us = p at h
  obtain ⟨hasDefault, vs, _⟩ := p
  cases hasDefault with
  | false =>
    cases h
    rw [hhead]
    rfl
  | true =>
    obtain ⟨⟨_, ws, _⟩, -, h⟩ := exists_of_bind_ok h
    cases h
    cases hf

/-- The tokens of a parameter without a default value. Behind a comparison its angle brackets open before they close. -/
structure ParameterTokens (less : Bool) (head : List Token) (f : Field) : Prop where
  reads : reading (parameter head) = .ok ({ f with hasDefault := false }, [])
  nested : less = true → Nested head
  angles : less = true → opensAngles 0 head = true

/-- What stands behind a parameter: nothing, or an equals sign and a value. -/
inductive DefaultTokens : (less less' hasDefault : Bool) → List Token → Prop
  | none {less : Bool} : DefaultTokens less less false []
  | some {less less' : Bool} {t : Token} {ts : List Token} (ht : t.isMark '=' = true) (h : ValueTokens false ts less') :
    DefaultTokens less less' true (t :: ts)

/-- Parameters up to the parenthesis behind them, the same without the default values, and the fields that they declare. With
`less` a comparison may have come before them. -/
inductive ParameterList : (less : Bool) → (ts bare : List Token) → List Field → Prop
  | nil {less : Bool} {t : Token} (ht : t.isMark ')' = true) : ParameterList less [t] [t] []
  | last {less less' : Bool} {head value : List Token} {t : Token} {f : Field} (hhead : ParameterTokens less head f)
    (hvalue : DefaultTokens less less' f.hasDefault value) (ht : t.isMark ')' = true) :
    ParameterList less (head ++ (value ++ [t])) (head ++ [t]) [f]
  | cons {less less' : Bool} {head value ts bare : List Token} {t : Token} {f : Field} {fs : List Field}
    (hhead : ParameterTokens less head f) (hvalue : DefaultTokens less less' f.hasDefault value) (ht : t.isMark ',' = true)
    (h : ParameterList less' ts bare fs) : ParameterList less (head ++ (value ++ t :: ts)) (head ++ t :: bare) (f :: fs)

theorem stops_of_isMark {c : Char} (ht : t.isMark c = true) (hc : c ∈ [',', ')', '=']) (ts : List Token) : Stops (t :: ts) := by
  rintro _ ⟨⟩
  exact ⟨c, hc, kind_of_isMark ht⟩

theorem ParameterTokens.reading_parameterHead {less : Bool} (h : ParameterTokens less head f) (hstop : Stops behind) :
    reading (parameterHead (head ++ behind)) = .ok ({ f with hasDefault := false }, behind) := by
  have := (parameterHead_placed (k := 0) hstop head).reading (Kotlin.reading_parameterHead h.reads rfl)
  rwa [placed_zero, placed_nil] at this

/-- Behind a parameter without default value the lookahead has as much to close as before. -/
theorem ParameterTokens.closesTypeArgs (h : ParameterTokens true head f) (hn : 1 ≤ n)
    (hcloses : closesTypeArgs n 0 (head ++ rest) = true) : ∃ n', 1 ≤ n' ∧ Kotlin.closesTypeArgs n' 0 rest = true := by
  obtain ⟨n', hn', hcloses⟩ := closesTypeArgs_opensAngles (h.nested rfl) (h.angles rfl) hn hcloses
  exact ⟨n', by omega, hcloses⟩

/-- The lookahead closes nothing in parameters that was open before them: it stops at the first default value, or at the
parenthesis behind all of them. -/
theorem ParameterList.closesTypeArgs {bare : List Token} {fs : List Field} (h : ParameterList true ts bare fs) (hn : 1 ≤ n) :
    closesTypeArgs n 0 (ts ++ rest) = false := by
  have hclose {t : Token} (ht : t.isMark ')' = true) (n : Nat) (us : List Token) : Kotlin.closesTypeArgs n 0 (t :: us) = false := by
    rw [closesTypeArgs_closer ht]
    rfl
  have hequal {t : Token} (ht : t.isMark '=' = true) (n : Nat) (us : List Token) : Kotlin.closesTypeArgs n 0 (t :: us) = false := by
    simp [Kotlin.closesTypeArgs, kind_of_isMark ht]
  generalize hless : true = less at h
  rw [← Bool.not_eq_true]
  intro hcloses
  induction h generalizing n with
  | nil ht => simp [hclose ht] at hcloses
  | @last less less' head value t f hhead hvalue ht =>
    subst hless
    rw [List.append_assoc] at hcloses
    obtain ⟨_, -, hcloses⟩ := hhead.closesTypeArgs hn hcloses
    generalize f.hasDefault = hasDefault at hvalue
    cases hvalue with
    | none => simp [hclose ht] at hcloses
    | some hequals _ => simp [hequal hequals] at hcloses
  | @cons less less' head value ts bare t f fs hhead hvalue ht _ ih =>
    subst hless
    rw [List.append_assoc, List.append_assoc, List.cons_append] at hcloses
    obtain ⟨n', hn', hcloses⟩ := hhead.closesTypeArgs hn hcloses
    generalize f.hasDefault = hasDefault at hvalue
    cases hvalue with
    | none =>
      rw [List.nil_append, closesTypeArgs_part (by simp [Token.isTypePart, kind_of_isMark ht])] at hcloses
      exact ih hn' rfl hcloses
    | some hequals _ => simp [hequal hequals] at hcloses

/-- No parameter begins with a closing parenthesis. -/
theorem takeMark_of_parameter (h : reading (parameter ts) = .ok (f, us)) : takeMark ')' ts = .keep false ts := by
  refine takeMark_of_atMark ?_
  cases ts with
  | nil => rfl
  | cons t ts =>
    rw [← Bool.not_eq_true]
    intro ht
    have hmark : t.isMark ')' = true := ht
    have hname : t.isName = false := by simp [Token.isName, kind_of_isMark hmark]
    have hproperty : takePropertyKeyword (t :: ts) = .keep none (t :: ts) := by simp [takePropertyKeyword, Token.isWord, hname]
    obtain ⟨_, h⟩ := reading_ok_iff.mp h
    rw [parameter, parameterMarks, if_neg (by simp [Token.isMark, kind_of_isMark hmark]), if_neg (by simp [isModifier, hname])] at h
    simp only [bind, Except.bind, pure, Except.pure, Parsed.keep] at h
    rw [hproperty] at h
    simp [Parsed.keep, simpleName, hname] at h

theorem reading_parameters_last (h : reading (parameter ts) = .ok (f, t :: us)) (ht : t.isMark ')' = true) :
    reading (parameters ts) = .ok ([f], us) := by
  have hparen := takeMark_of_parameter h
  obtain ⟨_, h⟩ := reading_ok_iff.mp h
  rw [parameters, hparen]
  simp only [Parsed.keep, h, bind, Except.bind]
  rw [takeMark_of_atMark (show atMark ',' (t :: us) = false by simp [atMark, Token.isMark, kind_of_isMark ht])]
  simp only [Parsed.keep, expectMark, MarkRole.mark, ht]
  rfl

theorem reading_parameters_cons {fs : List Field} (h : reading (parameter ts) = .ok (f, t :: us)) (ht : t.isMark ',' = true)
    (hmore : reading (parameters us) = .ok (fs, rest)) : reading (parameters ts) = .ok (f :: fs, rest) := by
  have hparen := takeMark_of_parameter h
  obtain ⟨_, h⟩ := reading_ok_iff.mp h
  obtain ⟨_, hmore⟩ := reading_ok_iff.mp hmore
  rw [parameters, hparen]
  simp only [Parsed.keep, h, bind, Except.bind]
  rw [takeMark_of_isMark ht]
  simp only [Parsed.taken, hmore]
  rfl

/-- A parameter ends in front of the mark behind its default value. -/
theorem ParameterTokens.reading_parameter {less less' : Bool} {value : List Token} (h : ParameterTokens less head f)
    (hvalue : DefaultTokens less less' f.hasDefault value) (ht : t.isMark ',' = true ∨ t.isMark ')' = true)
    (hrest : less' = true → ∀ n, 1 ≤ n → Kotlin.closesTypeArgs n 0 (t :: us) = false) :
    reading (parameter (head ++ (value ++ t :: us))) = .ok (f, t :: us) := by
  obtain ⟨name, ty, visibility, hasDefault, mutable, isProperty, annotations⟩ := f
  dsimp only at hvalue
  cases hvalue with
  | none =>
    have hstop : Stops (t :: us) := by
      obtain ht | ht := ht <;> exact stops_of_isMark ht (by decide) us
    refine reading_parameter_plain (h.reading_parameterHead hstop) ?_
    obtain ht | ht := ht <;> simp [atMark, Token.isMark, kind_of_isMark ht]
  | some hequals hvalue =>
    have hend : ∀ u ∈ (t :: us).head?, u.isMark ',' = true ∨ u.isMark ')' = true := by simpa using ht
    have hskip := hvalue.reading_skipDefault (fun _ => rfl) (.inl rfl) hrest hend false
    exact reading_parameter_default (h.reading_parameterHead (stops_of_isMark hequals (by decide) _)) hequals hskip

theorem ParameterTokens.reading_bare {less : Bool} (h : ParameterTokens less head f)
    (ht : t.isMark ',' = true ∨ t.isMark ')' = true) :
    reading (parameter (head ++ t :: us)) = .ok ({ f with hasDefault := false }, t :: us) := by
  have hhead : ParameterTokens false head { f with hasDefault := false } := ⟨h.reads, by simp, by simp⟩
  exact hhead.reading_parameter .none ht (by simp)

/-- **Parameters** are read as without their default values, which only show in the fields. -/
theorem ParameterList.reading_parameters {less : Bool} {bare : List Token} {fs : List Field} (h : ParameterList less ts bare fs)
    (rest : List Token) : reading (parameters (ts ++ rest)) = .ok (fs, rest) ∧
      reading (parameters (bare ++ rest)) = .ok (fs.map fun f => { f with hasDefault := false }, rest) := by
  induction h with
  | nil ht =>
    rw [List.singleton_append, parameters, takeMark_of_isMark ht]
    exact ⟨rfl, rfl⟩
  | last hhead hvalue ht =>
    rw [List.append_assoc, List.append_assoc, List.append_assoc, List.singleton_append]
    refine ⟨reading_parameters_last (hhead.reading_parameter hvalue (.inr ht) fun _ n _ => ?_) ht,
      reading_parameters_last (hhead.reading_bare (.inr ht)) ht⟩
    rw [closesTypeArgs_closer ht]
    rfl
  | cons hhead hvalue ht h ih =>
    rw [List.append_assoc, List.append_assoc, List.append_assoc, List.cons_append, List.cons_append]
    refine ⟨reading_parameters_cons (hhead.reading_parameter hvalue (.inl ht) fun hless n hn => ?_) ht ih.1,
      reading_parameters_cons (hhead.reading_bare (.inl ht)) ht ih.2⟩
    subst hless
    rw [closesTypeArgs_part (by simp [Token.isTypePart, kind_of_isMark ht]), h.closesTypeArgs hn]

end Parameters

/-! ## Classes -/

/-- What is read, if anything is, and the tokens that are left. -/
def readingIfAny {α : Type} {n : Nat} (x : Except Fault (Option (Parsed α n))) : Except Fault (Option (α × List Token)) :=
  Option.map (fun p => (p.value, p.rest)) <$> x

/-- A class up to the parenthesis of its primary constructor, whatever comes behind that. -/
structure ClassHead where
  /-- The modifiers and the annotations. -/
  front : List Token
  modifiers : List String
  keyword : Token
  kind : ClassKind
  name : Token
  typeParams : List Token
  typeParamsText : Option String
  /-- The modifiers, the annotations and the keyword of the constructor. -/
  words : List Token
  opener : Token
  reads_front : ∀ rest, reading (Kotlin.modifiers (front ++ keyword :: rest)) = .ok (modifiers, keyword :: rest)
  kind_eq : ClassKind.ofKeyword? modifiers keyword = some kind
  isName : name.isName = true
  not_keyword : name.text ∉ declarationWords
  reads_typeParams : reading (typeParameters typeParams) = .ok (typeParamsText, [])
  reads_words : ∀ rest, reading (skipConstructorWords (words ++ opener :: rest)) = .ok ((), opener :: rest)
  opens : opener.isMark '(' = true

namespace ClassHead

variable (h : ClassHead)

def tokens : List Token := h.front ++ h.keyword :: h.name :: (h.typeParams ++ (h.words ++ [h.opener]))

/-- The class with these fields, from the tokens behind its parameters. -/
def finish (fields : List Field) (ts : List Token) : Except Fault (ClassTree × List Token) := do
  let ⟨_, us, _⟩ ← skipSupertypes ts
  let ⟨(entries, nested), rest, _⟩ ← classBody h.kind (Name.unquote h.name.text) us
  return (⟨Name.unquote h.name.text, h.kind, h.typeParamsText, fields, entries, nested, h.name.start⟩, rest)

theorem reading_typeParameters (rest : List Token) :
    reading (typeParameters (h.typeParams ++ (h.words ++ h.opener :: rest))) =
      .ok (h.typeParamsText, h.words ++ h.opener :: rest) := by
  have hless : atMark '<' (h.words ++ h.opener :: rest) = false := by
    have hwords := h.reads_words rest
    cases hts : h.words with
    | nil => simp [atMark, Token.isMark, kind_of_isMark h.opens]
    | cons t ts =>
      rw [← Bool.not_eq_true]
      intro ht
      have hmark : t.isMark '<' = true := ht
      rw [hts, List.cons_append, skipConstructorWords, if_neg (by simp [Token.isMark, kind_of_isMark hmark]),
        if_neg (by simp [Token.isName, kind_of_isMark hmark])] at hwords
      have heq : ts ++ h.opener :: rest = rest := (List.cons.inj (congrArg Prod.snd (Except.ok.inj hwords))).2
      have hlength := congrArg List.length heq
      rw [List.length_append, List.length_cons] at hlength
      omega
  have := (typeParameters_placed (k := 0) hless h.typeParams).reading h.reads_typeParams
  rwa [placed_zero, placed_nil] at this

theorem reading_primaryConstructor {fields : List Field} {ts us : List Token} (hfields : reading (parameters ts) = .ok (fields, us)) :
    reading (primaryConstructor (h.words ++ h.opener :: ts)) = .ok (fields, us) := by
  obtain ⟨_, hwords⟩ := reading_ok_iff.mp (h.reads_words ts)
  obtain ⟨_, hfields⟩ := reading_ok_iff.mp hfields
  rw [primaryConstructor, hwords]
  simp only [bind, Except.bind]
  rw [takeMark_of_isMark h.opens]
  simp only [Parsed.taken, hfields]
  rfl

theorem readingIfAny_classTree {fields : List Field} {ts us : List Token} (hfields : reading (parameters ts) = .ok (fields, us)) :
    readingIfAny (classTree (h.tokens ++ ts)) = some <$> h.finish fields us := by
  obtain ⟨_, hfront⟩ := reading_ok_iff.mp (h.reads_front (h.name :: (h.typeParams ++ (h.words ++ h.opener :: ts))))
  obtain ⟨_, htypeParams⟩ := reading_ok_iff.mp (h.reading_typeParameters ts)
  obtain ⟨_, hconstructor⟩ := reading_ok_iff.mp (h.reading_primaryConstructor hfields)
  have htokens : h.tokens ++ ts = h.front ++ h.keyword :: h.name :: (h.typeParams ++ (h.words ++ h.opener :: ts)) := by
    simp [tokens]
  rw [htokens, classTree_of_modifiers hfront h.kind_eq, classAfter, className, if_pos (by simp [h.isName, h.not_keyword])]
  simp only [Parsed.keep, pure_bind, htypeParams]
  simp only [bind, Except.bind, hconstructor]
  rw [finish]
  cases skipSupertypes us with
  | error e => rfl
  | ok p =>
    simp only [bind, Except.bind]
    cases classBody h.kind (Name.unquote h.name.text) p.rest <;> rfl

theorem finish_fields (fields fields' : List Field) (ts : List Token) :
    h.finish fields ts = Prod.map (fun c => { c with fields := fields }) id <$> h.finish fields' ts := by
  simp only [finish, bind, Except.bind]
  cases skipSupertypes ts with
  | error e => rfl
  | ok p =>
    dsimp only
    cases classBody h.kind (Name.unquote h.name.text) p.rest <;> rfl

theorem fields_of_finish {fields : List Field} {ts us : List Token} {c : ClassTree} (hc : h.finish fields ts = .ok (c, us)) :
    c.fields = fields := by
  obtain ⟨_, -, hc⟩ := exists_of_bind_ok hc
  obtain ⟨_, -, hc⟩ := exists_of_bind_ok hc
  cases hc
  rfl

end ClassHead

/-- **A class** is read as without the default values of its parameters: it is read with them exactly when it is read without, up to
the same token, and its fields differ in nothing but whether they have a default value. -/
theorem classTree_defaults (head : ClassHead) {bare : List Token} {fs : List Field} (h : ParameterList false ts bare fs)
    (rest : List Token) :
    (∀ c us, readingIfAny (classTree (head.tokens ++ (bare ++ rest))) = .ok (some (c, us)) →
      c.fields = fs.map fun f => { f with hasDefault := false }) ∧
    readingIfAny (classTree (head.tokens ++ (ts ++ rest))) =
      Option.map (Prod.map (fun c => { c with fields := fs }) id) <$> readingIfAny (classTree (head.tokens ++ (bare ++ rest))) := by
  obtain ⟨hfull, hbare⟩ := h.reading_parameters rest
  rw [head.readingIfAny_classTree hfull, head.readingIfAny_classTree hbare]
  constructor
  · intro c us hc
    cases hread : head.finish (fs.map fun f => { f with hasDefault := false }) rest with
    | error e =>
      rw [hread] at hc
      cases hc
    | ok q =>
      rw [hread] at hc
      cases hc
      exact head.fields_of_finish hread
  · rw [head.finish_fields fs (fs.map fun f => { f with hasDefault := false })]
    cases head.finish (fs.map fun f => { f with hasDefault := false }) rest <;> rfl

/-! ### A class with a comparison and type arguments -/

namespace Comparing

def source : String := "class R(val a: Boolean = x < y, val b: List<Int> = listOf<Int>(1), val c: Int)"

def head : ClassHead where
  front := []
  modifiers := []
  keyword := ⟨.name, "class", "", 0⟩
  kind := .plain
  name := ⟨.name, "R", " ", 6⟩
  typeParams := []
  typeParamsText := none
  words := []
  opener := ⟨.mark '(', "(", "", 7⟩
  reads_front := ClassStart.reading_modifiers ⟨by simp, by decide⟩
  kind_eq := by decide
  isName := rfl
  not_keyword := by decide
  reads_typeParams := rfl
  reads_words rest := by
    rw [List.nil_append, skipConstructorWords, if_neg (by decide), if_neg (by decide)]
    rfl
  opens := rfl

def a : List Token :=
  [⟨.name, "val", "", 8⟩, ⟨.name, "a", " ", 12⟩, ⟨.mark ':', ":", "", 13⟩, ⟨.name, "Boolean", " ", 15⟩]

def aValue : List Token :=
  [⟨.mark '=', "=", " ", 23⟩, ⟨.name, "x", " ", 25⟩, ⟨.mark '<', "<", " ", 27⟩, ⟨.name, "y", " ", 29⟩]

def b : List Token :=
  [⟨.name, "val", " ", 32⟩, ⟨.name, "b", " ", 36⟩, ⟨.mark ':', ":", "", 37⟩, ⟨.name, "List", " ", 39⟩,
    ⟨.mark '<', "<", "", 43⟩, ⟨.name, "Int", "", 44⟩, ⟨.mark '>', ">", "", 47⟩]

def bValue : List Token :=
  [⟨.mark '=', "=", " ", 49⟩, ⟨.name, "listOf", " ", 51⟩, ⟨.mark '<', "<", "", 57⟩, ⟨.name, "Int", "", 58⟩,
    ⟨.mark '>', ">", "", 61⟩, ⟨.mark '(', "(", "", 62⟩, ⟨.number, "1", "", 63⟩, ⟨.mark ')', ")", "", 64⟩]

def c : List Token :=
  [⟨.name, "val", " ", 67⟩, ⟨.name, "c", " ", 71⟩, ⟨.mark ':', ":", "", 72⟩, ⟨.name, "Int", " ", 74⟩]

def full : List Token :=
  a ++ (aValue ++ ⟨.mark ',', ",", "", 30⟩ :: (b ++ (bValue ++ ⟨.mark ',', ",", "", 65⟩ :: (c ++ [⟨.mark ')', ")", "", 77⟩]))))

def bare : List Token :=
  a ++ ⟨.mark ',', ",", "", 30⟩ :: (b ++ ⟨.mark ',', ",", "", 65⟩ :: (c ++ [⟨.mark ')', ")", "", 77⟩]))

theorem ofSource_source : (TokenStream.ofSource source).toOption.map (·.tokens) = some (head.tokens ++ full) := by
  decide +kernel

theorem nested_of_forall (hts : ∀ t ∈ ts, t.isBracket = false) : Nested ts := by
  induction ts with
  | nil => exact .nil
  | cons t ts ih => exact .plain (hts t List.mem_cons_self) (ih fun u hu => hts u (List.mem_cons_of_mem t hu))

/-- A parameter that reads alone, where it has a default value or none. -/
theorem exists_parameterTokens (head : List Token)
    (hread : ((reading (parameter head)).toOption.map fun x => (x.1.hasDefault, x.2.isEmpty)) = some (false, true))
    (hnested : ∀ t ∈ head, t.isBracket = false) (hangles : opensAngles 0 head = true) (less hasDefault : Bool) :
    ∃ f, ParameterTokens less head f ∧ f.hasDefault = hasDefault := by
  obtain ⟨⟨g, us⟩, hread, hg⟩ := Option.map_eq_some_iff.mp hread
  obtain ⟨hdefault, hus⟩ := Prod.mk.inj hg
  obtain rfl := List.isEmpty_iff.mp hus
  obtain ⟨name, ty, visibility, _, mutable, isProperty, annotations⟩ := g
  cases hdefault
  exact ⟨⟨name, ty, visibility, hasDefault, mutable, isProperty, annotations⟩,
    ⟨ok_of_toOption hread, fun _ => nested_of_forall hnested, fun _ => hangles⟩, rfl⟩

theorem exists_parameterList : ∃ fs, ParameterList false full bare fs ∧
    fs.map (·.hasDefault) = [true, true, false] := by
  obtain ⟨f, hf, hfdefault⟩ := exists_parameterTokens a (by decide +kernel) (by decide) (by decide) false true
  obtain ⟨g, hg, hgdefault⟩ := exists_parameterTokens b (by decide +kernel) (by decide) (by decide) true true
  obtain ⟨k, hk, hkdefault⟩ := exists_parameterTokens c (by decide +kernel) (by decide) (by decide) false false
  have haValue : DefaultTokens false true f.hasDefault aValue := by
    rw [hfdefault]
    exact .some rfl (.plain rfl rfl rfl rfl (.less rfl (.plain rfl rfl rfl rfl .nil)))
  have hbValue : DefaultTokens true false g.hasDefault bValue := by
    rw [hgdefault]
    exact .some rfl (.typeArgs rfl rfl (.part rfl .nil) rfl
      (.group (c := ')') rfl (.plain rfl Nested.nil) rfl (by simp) .nil))
  have hcValue : DefaultTokens false false k.hasDefault [] := by
    rw [hkdefault]
    exact .none
  exact ⟨[f, g, k], .cons hf haValue rfl (.cons hg hbValue rfl (.last hk hcValue rfl)), by simp [hfdefault, hgdefault, hkdefault]⟩

end Comparing

theorem classTree_defaults_comparing : ∃ s fs, TokenStream.ofSource Comparing.source = .ok s ∧
    s.tokens = Comparing.head.tokens ++ (Comparing.full ++ []) ∧
    ParameterList false Comparing.full Comparing.bare fs ∧ fs.map (·.hasDefault) = [true, true, false] ∧
    (∀ c us, readingIfAny (classTree (Comparing.head.tokens ++ (Comparing.bare ++ []))) = .ok (some (c, us)) →
      c.fields = fs.map fun f => { f with hasDefault := false }) ∧
    readingIfAny (classTree (Comparing.head.tokens ++ (Comparing.full ++ []))) =
      Option.map (Prod.map (fun c => { c with fields := fs }) id) <$>
        readingIfAny (classTree (Comparing.head.tokens ++ (Comparing.bare ++ []))) := by
  obtain ⟨s, hs, htokens⟩ := Option.map_eq_some_iff.mp Comparing.ofSource_source
  obtain ⟨fs, hlist, hdefaults⟩ := Comparing.exists_parameterList
  exact ⟨s, fs, ok_of_toOption hs, by rw [htokens, List.append_nil], hlist, hdefaults, classTree_defaults Comparing.head hlist []⟩

/-- A comparison in parentheses behind another one ends type arguments to the lookahead, but not where the value is skipped, which
goes on into the next parameter. -/
theorem swallowed_parameter :
    (∃ u, SourceUnit.ofSource
      "class R(val a: Boolean = if (f) x < y else (p > q), val b: Boolean = z > w, val c: Int)" = .ok u ∧
      u.classes.map (fun c => c.fields.map Field.name) = [["a", "c"]]) ∧
    ∃ u, SourceUnit.ofSource "class R(val a: Boolean, val b: Boolean, val c: Int)" = .ok u ∧
      u.classes.map (fun c => c.fields.map Field.name) = [["a", "b", "c"]] := by
  have hread :
      ((SourceUnit.ofSource
        "class R(val a: Boolean = if (f) x < y else (p > q), val b: Boolean = z > w, val c: Int)").toOption.map
          fun u => u.classes.map fun c => c.fields.map Field.name) = some [["a", "c"]] ∧
      ((SourceUnit.ofSource "class R(val a: Boolean, val b: Boolean, val c: Int)").toOption.map
          fun u => u.classes.map fun c => c.fields.map Field.name) = some [["a", "b", "c"]] := by
    decide +kernel
  obtain ⟨u, hu, hnames⟩ := Option.map_eq_some_iff.mp hread.1
  obtain ⟨v, hv, hnames'⟩ := Option.map_eq_some_iff.mp hread.2
  exact ⟨⟨u, ok_of_toOption hu, hnames⟩, v, ok_of_toOption hv, hnames'⟩

end Counterpart.Kotlin
