/-
Tokens that stand elsewhere. A reader does not ask where its tokens stand. One that has read tokens on their own does the same where
they stand further on (`Repeats`), and in front of other tokens too, as long as these begin with a mark that no type and no
annotation goes on with (`Stops`).
-/
import Counterpart.Proofs.ReadingGroups
import Counterpart.Proofs.TypeSyntax

namespace Counterpart.Kotlin

/-- The token, `k` bytes further on. -/
def Token.moved (k : Nat) (t : Token) : Token := { t with start := t.start + k }

section Moved

variable (k : Nat) (t : Token)

@[simp] theorem Token.kind_moved : (t.moved k).kind = t.kind := rfl

@[simp] theorem Token.text_moved : (t.moved k).text = t.text := rfl

@[simp] theorem Token.isMark_moved (c : Char) : (t.moved k).isMark c = t.isMark c := isMark_of_kind (t.kind_moved k) c

@[simp] theorem Token.isName_moved : (t.moved k).isName = t.isName := by rw [isName, kind_moved, isName]

@[simp] theorem Token.isWord_moved (word : String) : (t.moved k).isWord word = t.isWord word := by
  rw [isWord, isName_moved, text_moved, isWord]

@[simp] theorem Token.isAdjacent_moved : (t.moved k).isAdjacent = t.isAdjacent := by rw [isAdjacent, moved, isAdjacent]

@[simp] theorem Token.closer?_moved : (t.moved k).closer? = t.closer? := closer?_of_kind (t.kind_moved k)

@[simp] theorem Token.closing?_moved : (t.moved k).closing? = t.closing? := closing?_of_kind (t.kind_moved k)

end Moved

/-- Tokens further on, with others behind them. -/
def placed (k : Nat) (behind ts : List Token) : List Token := ts.map (Token.moved k) ++ behind

/-- Whether a type ends in front of the tokens: they are none, or they begin with a comma, a closing parenthesis or an equals sign. -/
def Stops (behind : List Token) : Prop := ∀ t ∈ behind.head?, ∃ c ∈ [',', ')', '='], t.kind = .mark c

variable {k : Nat} {behind : List Token}

section Placed

variable (k behind) (t : Token) (ts : List Token)

@[simp] theorem placed_nil : placed k behind [] = behind := rfl

@[simp] theorem placed_cons : placed k behind (t :: ts) = t.moved k :: placed k behind ts := rfl

theorem length_placed : (placed k behind ts).length = ts.length + behind.length := by
  rw [placed, List.length_append, List.length_map]

theorem verbatim_moved : Token.verbatim (ts.map (Token.moved k)) = Token.verbatim ts := by
  cases ts with
  | nil => rfl
  | cons t ts =>
    rw [List.map_cons, Token.verbatim, Token.verbatim, List.map_map]
    rfl

/-- The tokens that were taken, where they stand now. -/
theorem take_placed (start rest : List Token) :
    (placed k behind start).take ((placed k behind start).length - (placed k behind rest).length) =
      (start.take (start.length - rest.length)).map (Token.moved k) := by
  rw [length_placed, length_placed, Nat.add_sub_add_right, placed, List.take_append_of_le_length (by simp), List.map_take]

@[simp] theorem textBetween_placed (start rest : List Token) :
    textBetween (placed k behind start) (placed k behind rest) = textBetween start rest := by
  rw [textBetween, take_placed, verbatim_moved, textBetween]

@[simp] theorem verbatimBetween_placed (start rest : List Token) :
    verbatimBetween (placed k behind start) (placed k behind rest) = verbatimBetween start rest := by
  rw [verbatimBetween, take_placed, verbatim_moved, verbatimBetween]

theorem atMark_placed {c : Char} (hc : atMark c behind = false) : atMark c (placed k behind ts) = atMark c ts := by
  cases ts with
  | nil => exact hc
  | cons t ts => exact t.isMark_moved k c

end Placed

/-! ## What comes next -/

section Stops

variable {t : Token} {ts : List Token}

theorem Stops.nil : Stops [] := by simp [Stops]

theorem Stops.isMark_eq_false (h : Stops (t :: ts)) {c : Char} (hc : c ∉ [',', ')', '=']) : t.isMark c = false := by
  obtain ⟨d, hd, hkind⟩ := h t rfl
  rw [Token.isMark, hkind, beq_eq_false_iff_ne]
  rintro ⟨⟩
  exact hc hd

theorem Stops.isName_eq_false (h : Stops (t :: ts)) : t.isName = false := by
  obtain ⟨d, -, hkind⟩ := h t rfl
  rw [Token.isName, hkind]
  rfl

theorem Stops.not_arrow (h : Stops (t :: ts)) : (t.kind == .arrow) = false := by
  obtain ⟨d, -, hkind⟩ := h t rfl
  rw [hkind]
  rfl

theorem Stops.isWord_eq_false (h : Stops (t :: ts)) (word : String) : t.isWord word = false := by
  rw [Token.isWord, h.isName_eq_false, Bool.false_and]

variable (hstop : Stops behind)
include hstop

theorem Stops.atMark_eq_false {c : Char} (hc : c ∉ [',', ')', '=']) : atMark c behind = false := by
  cases behind with
  | nil => rfl
  | cons t behind => exact hstop.isMark_eq_false hc

theorem isModifier_placed (t : Token) (ts : List Token) : isModifier (t.moved k) (placed k behind ts) = isModifier t ts := by
  cases ts with
  | cons u ts => rfl
  | nil =>
    cases behind with
    | nil => rfl
    | cons u behind =>
      simp [isModifier, hstop.isName_eq_false, hstop.isMark_eq_false (show '@' ∉ [',', ')', '='] by decide)]

end Stops

/-! ## Two runs -/

/-- What is read and the tokens that are left, or why nothing is. -/
def reading {α : Type} {n : Nat} (x : Except Fault (Parsed α n)) : Except Fault (α × List Token) :=
  (fun p => (p.value, p.rest)) <$> x

theorem reading_ok_iff {α : Type} {n : Nat} {x : Except Fault (Parsed α n)} {a : α} {us : List Token} :
    reading x = .ok (a, us) ↔ ∃ h, x = .ok ⟨a, us, h⟩ := by
  cases x with
  | error e => simp [reading]
  | ok p =>
    obtain ⟨b, ts, hlt⟩ := p
    constructor
    · intro h
      cases h
      exact ⟨hlt, rfl⟩
    · rintro ⟨_, h⟩
      cases h
      rfl

/-- When the first run succeeds, so does the second, and what they come to is related by `Q`. -/
def Simulates {α β : Type} (Q : α → β → Prop) (x : Except Fault α) (y : Except Fault β) : Prop :=
  ∀ a, x = .ok a → ∃ b, y = .ok b ∧ Q a b

/-- `f` of what was read, and the tokens that are left where they stand in the second run. -/
inductive Carried (k : Nat) (behind : List Token) {α β : Type} {m n : Nat} (f : α → β) : Parsed α m → Parsed β n → Prop
  | mk (a : α) (ts : List Token) {h : ts.length < m} {h' : (placed k behind ts).length < n} :
    Carried k behind f ⟨a, ts, h⟩ ⟨f a, placed k behind ts, h'⟩

/-- The second run reads what the first one reads, `f` of it. -/
abbrev Repeats (k : Nat) (behind : List Token) {α β : Type} {m n : Nat} (f : α → β) (x : Except Fault (Parsed α m))
    (y : Except Fault (Parsed β n)) : Prop := Simulates (Carried k behind f) x y

section TwoRuns

variable {α β γ δ : Type} {m n m' n' : Nat} {f : α → β}

theorem Simulates.error {Q : α → β → Prop} (e : Fault) {y : Except Fault β} : Simulates Q (.error e) y := by
  rintro _ ⟨⟩

theorem Simulates.ok {Q : α → β → Prop} {a : α} {b : β} (h : Q a b) : Simulates Q (.ok a) (.ok b) := by
  rintro _ ⟨⟩
  exact ⟨b, rfl, h⟩

theorem Simulates.bind {Q : α → β → Prop} {P : γ → δ → Prop} {x : Except Fault α} {y : Except Fault β} {F : α → Except Fault γ}
    {G : β → Except Fault δ} (h : Simulates Q x y) (hFG : ∀ a b, Q a b → Simulates P (F a) (G b)) :
    Simulates P (x >>= F) (y >>= G) := by
  intro c hc
  obtain ⟨a, rfl, hF⟩ := exists_of_bind_ok hc
  obtain ⟨b, rfl, hab⟩ := h a rfl
  exact hFG a b hab c hF

theorem Carried.past {ts ts' : List Token} {p : Parsed α (ts.length + 1)} {q : Parsed β (ts'.length + 1)} (t t' : Token)
    (h : Carried k behind f p q) : Carried k behind f (p.past t) (q.past t') := by
  obtain ⟨a, us⟩ := h
  exact .mk a us

theorem Simulates.done {l : List Token} {a : α} {b : β} {h : l.length < m} {h' : (placed k behind l).length < n}
    (hb : b = f a) : Repeats k behind f (.ok ⟨a, l, h⟩) (.ok ⟨b, placed k behind l, h'⟩) := by
  subst hb
  exact .ok (.mk a l)

/-- At the end of the tokens, a reader that takes nothing of those behind reads the same in both runs. -/
theorem Repeats.nothing {x : Except Fault (Parsed α m)} {y : Except Fault (Parsed α n)} {a : α} {h : [].length < m}
    {h' : behind.length < n} (hx : x = .ok ⟨a, [], h⟩) (hy : y = .ok ⟨a, behind, h'⟩) : Repeats k behind id x y := by
  rw [hx, hy]
  exact .done (l := []) rfl

/-- What a reader leaves is read on in both runs. -/
theorem Repeats.bind {x : Except Fault (Parsed α m)} {y : Except Fault (Parsed β n)} {P : γ → δ → Prop}
    {F : Parsed α m → Except Fault γ} {G : Parsed β n → Except Fault δ} (h : Repeats k behind f x y)
    (hFG : ∀ a ts hm hn, Simulates P (F ⟨a, ts, hm⟩) (G ⟨f a, placed k behind ts, hn⟩)) : Simulates P (x >>= F) (y >>= G) := by
  refine Simulates.bind h fun p q hpq => ?_
  obtain ⟨a, ts⟩ := hpq
  exact hFG a ts _ _

/-- What the first run reads and leaves, and what the second one does. -/
theorem Repeats.reading {x : Except Fault (Parsed α m)} {y : Except Fault (Parsed β n)} (h : Repeats k behind f x y) {a : α}
    {us : List Token} (hx : reading x = .ok (a, us)) : reading y = .ok (f a, placed k behind us) := by
  obtain ⟨_, hx⟩ := reading_ok_iff.mp hx
  obtain ⟨_, rfl, hq⟩ := h _ hx
  cases hq
  rfl

end TwoRuns

/-! ## Groups -/

theorem closeGroup_placed {opened ts rest : List Token} (h : closeGroup opened ts = .ok rest) :
    closeGroup (opened.map (Token.moved k)) (placed k behind ts) = .ok (placed k behind rest) := by
  fun_induction closeGroup opened ts with
  | case1 ts =>
    cases h
    rw [List.map_nil, closeGroup]
  | case2 => cases h
  | case3 top up t ts hopener ih =>
    rw [List.map_cons, placed_cons, closeGroup, if_pos (by simpa using hopener)]
    exact ih h
  | case4 top up t ts hopener hclosing ih =>
    rw [List.map_cons, placed_cons, closeGroup, if_neg (by simpa using hopener), Token.closing?_moved, hclosing]
    exact ih h
  | case5 top up t ts hopener expected hclosing ih =>
    rw [List.map_cons, placed_cons, closeGroup, if_neg (by simpa using hopener), Token.closing?_moved, hclosing]
    simp only [Token.closer?_moved]
    rw [if_pos (show expected = _ from rfl)]
    exact ih h
  | case6 => cases h

theorem skipGroup_placed (opener : Token) (ts : List Token) :
    Repeats k behind id (skipGroup opener ts) (skipGroup (opener.moved k) (placed k behind ts)) := by
  intro p hp
  have hclose : closeGroup [opener.moved k] (placed k behind ts) = .ok (placed k behind p.rest) :=
    closeGroup_placed (closeGroup_of_skipGroup hp)
  obtain ⟨q, hq, hrest⟩ := exists_skipGroup hclose
  obtain ⟨_, us, _⟩ := q
  obtain rfl : us = placed k behind p.rest := hrest
  exact ⟨_, hq, .mk () p.rest⟩

theorem skipOne_placed (t : Token) (ts : List Token) :
    Repeats k behind id (skipOne t ts) (skipOne (t.moved k) (placed k behind ts)) := by
  rw [skipOne, skipOne]
  simp only [Token.closer?_moved, Token.isMark_moved]
  split
  next => exact skipGroup_placed t ts
  next =>
    split
    next => exact .error _
    next =>
      split
      next => exact .error _
      next => exact .done rfl

/-! ## Marks, words and names -/

theorem takeMark_placed {c : Char} (hc : atMark c behind = false) (ts : List Token) :
    Carried k behind id (takeMark c ts) (takeMark c (placed k behind ts)) := by
  cases ts with
  | nil =>
    cases behind with
    | nil => exact .mk false []
    | cons t behind =>
      rw [placed_nil, takeMark, takeMark, if_neg (show ¬t.isMark c from Bool.eq_false_iff.mp hc)]
      exact .mk false []
  | cons t ts =>
    simp only [placed_cons, takeMark, Token.isMark_moved]
    split
    next => exact .mk true ts
    next => exact .mk false (t :: ts)

theorem takeWord_placed (hstop : Stops behind) (word : String) (ts : List Token) :
    Carried k behind id (takeWord word ts) (takeWord word (placed k behind ts)) := by
  cases ts with
  | nil =>
    cases behind with
    | nil => exact .mk false []
    | cons t behind =>
      rw [placed_nil, takeWord, takeWord, if_neg (by simp [hstop.isWord_eq_false])]
      exact .mk false []
  | cons t ts =>
    simp only [placed_cons, takeWord, Token.isWord_moved]
    split
    next => exact .mk true ts
    next => exact .mk false (t :: ts)

theorem moreSegments_placed (hstop : Stops behind) (name : String) : ∀ ts : List Token,
    Carried k behind id (moreSegments name ts) (moreSegments name (placed k behind ts))
  | [] => by
    cases behind with
    | nil => exact .mk name []
    | cons t behind =>
      cases behind with
      | nil => exact .mk name []
      | cons u behind =>
        simp only [placed_nil, moreSegments, hstop.isMark_eq_false (show '.' ∉ [',', ')', '='] by decide)]
        exact .mk name []
  | [t] => by
    cases behind with
    | nil => exact .mk name [t]
    | cons u behind =>
      simp only [placed_cons, placed_nil, moreSegments, hstop.isName_eq_false, Bool.and_false]
      exact .mk name [t]
  | dot :: t :: ts => by
    simp only [placed_cons, moreSegments, Token.isMark_moved, Token.isName_moved, Token.text_moved]
    split
    next => exact ((moreSegments_placed hstop _ ts).past _ _).past _ _
    next => exact .mk name (dot :: t :: ts)

theorem dottedName_placed (hstop : Stops behind) (role : NameRole) (ts : List Token) :
    Repeats k behind id (dottedName role ts) (dottedName role (placed k behind ts)) := by
  cases ts with
  | nil => exact .error _
  | cons t ts =>
    simp only [placed_cons, dottedName, Token.isName_moved, Token.text_moved]
    split
    next => exact .ok (moreSegments_placed hstop t.text ts)
    next => exact .error _

theorem simpleName_placed (role : NameRole) (ts : List Token) :
    Repeats k behind id (simpleName role ts) (simpleName role (placed k behind ts)) := by
  cases ts with
  | nil => exact .error _
  | cons t ts =>
    simp only [placed_cons, simpleName, Token.isName_moved]
    split
    next => exact .done rfl
    next => exact .error _

/-! ## Annotations -/

theorem dropUseSite_placed (hstop : Stops behind) : ∀ ts : List Token,
    Carried k behind id (dropUseSite ts) (dropUseSite (placed k behind ts))
  | [] => by
    cases behind with
    | nil => exact .mk () []
    | cons t behind =>
      cases behind with
      | nil => exact .mk () []
      | cons u behind =>
        simp only [placed_nil, dropUseSite, hstop.isName_eq_false, Bool.false_and]
        exact .mk () []
  | [t] => by
    cases behind with
    | nil => exact .mk () [t]
    | cons u behind =>
      simp only [placed_cons, placed_nil, dropUseSite, hstop.isMark_eq_false (show ':' ∉ [',', ')', '='] by decide),
        Bool.and_false, Bool.false_and]
      exact .mk () [t]
  | t :: colon :: ts => by
    have hcolon := hstop.atMark_eq_false (show ':' ∉ [',', ')', '='] by decide)
    simp only [placed_cons, dropUseSite, Token.isMark_moved, Token.isName_moved, atMark_placed k behind ts hcolon]
    split
    next => exact .mk () ts
    next => exact .mk () (t :: colon :: ts)

theorem annotationUse_placed (hstop : Stops behind) (ts : List Token) :
    Repeats k behind id (annotationUse ts) (annotationUse (placed k behind ts)) := by
  have husesite := dropUseSite_placed (k := k) hstop ts
  rw [annotationUse, annotationUse]
  generalize dropUseSite ts = p, dropUseSite (placed k behind ts) = q at husesite
  obtain ⟨_, us⟩ := husesite
  cases us with
  | nil => exact .error _
  | cons bracket us =>
    simp only [placed_cons, Token.isMark_moved]
    split
    next => exact (skipGroup_placed bracket us).bind fun _ _ _ _ => .done rfl
    next =>
      refine (dottedName_placed hstop .annotationName (bracket :: us)).bind fun name vs _ _ => ?_
      cases vs with
      | nil =>
        cases behind with
        | nil => exact .done (l := []) rfl
        | cons t behind =>
          simp only [placed_nil, hstop.isMark_eq_false (show '(' ∉ [',', ')', '='] by decide)]
          exact .done (l := []) rfl
      | cons paren vs =>
        simp only [placed_cons, Token.isMark_moved, Token.isAdjacent_moved]
        split
        next => exact (skipGroup_placed paren vs).bind fun _ _ _ _ => .done rfl
        next => exact .done (l := paren :: vs) rfl

theorem skipAnnotations_of_stops {ts : List Token} (hstop : Stops ts) : skipAnnotations ts = .ok (.keep () ts) := by
  cases ts with
  | nil => rw [skipAnnotations]
  | cons t ts => rw [skipAnnotations, if_neg (by simp [hstop.isMark_eq_false])]

theorem skipAnnotations_placed (hstop : Stops behind) (ts : List Token) :
    Repeats k behind id (skipAnnotations ts) (skipAnnotations (placed k behind ts)) := by
  cases ts with
  | nil => exact .nothing (skipAnnotations_of_stops .nil) (skipAnnotations_of_stops hstop)
  | cons t ts =>
    rw [placed_cons, skipAnnotations, skipAnnotations, Token.isMark_moved]
    split
    next =>
      refine (annotationUse_placed hstop ts).bind fun _ us hlt _ => ?_
      exact (skipAnnotations_placed hstop us).bind fun _ _ _ _ => .done rfl
    next => exact .done (l := t :: ts) rfl
termination_by ts.length

/-! ## Types -/

theorem takeVariance_placed (hstop : Stops behind) : ∀ ts : List Token,
    Carried k behind id (takeVariance ts) (takeVariance (placed k behind ts))
  | [] => by
    cases behind with
    | nil => exact .mk Variance.invariant []
    | cons t behind =>
      cases behind with
      | nil => exact .mk Variance.invariant []
      | cons u behind =>
        simp only [placed_nil, takeVariance, hstop.isWord_eq_false, Bool.false_and]
        exact .mk Variance.invariant []
  | [t] => by
    cases behind with
    | nil => exact .mk Variance.invariant [t]
    | cons u behind =>
      simp only [placed_cons, placed_nil, takeVariance, hstop.isName_eq_false, Bool.and_false]
      exact .mk Variance.invariant [t]
  | t :: u :: ts => by
    simp only [placed_cons, takeVariance, Token.isWord_moved, Token.isName_moved]
    split
    next => exact .mk Variance.outward (u :: ts)
    next =>
      split
      next => exact .mk Variance.inward (u :: ts)
      next => exact .mk Variance.invariant (t :: u :: ts)

/-- A dot and a parenthesis come next in both runs, or in none. -/
theorem receiverEnd_placed (hstop : Stops behind) (ts : List Token) :
    (∃ paren us h h', receiverEnd ts = some ⟨paren, us, h⟩ ∧
      receiverEnd (placed k behind ts) = some ⟨paren.moved k, placed k behind us, h'⟩) ∨
    receiverEnd ts = none ∧ receiverEnd (placed k behind ts) = none := by
  match ts with
  | [] =>
    right
    cases behind with
    | nil => exact ⟨rfl, rfl⟩
    | cons t behind =>
      cases behind with
      | nil => exact ⟨rfl, rfl⟩
      | cons u behind => simp [receiverEnd, hstop.isMark_eq_false]
  | [t] =>
    right
    cases behind with
    | nil => exact ⟨rfl, rfl⟩
    | cons u behind => simp [receiverEnd, hstop.isMark_eq_false]
  | dot :: paren :: us =>
    simp only [placed_cons, receiverEnd, Token.isMark_moved]
    split
    next =>
      exact .inl ⟨paren, us, (Parsed.taken paren paren us).rest_lt, (Parsed.taken paren paren (placed k behind us)).rest_lt,
        rfl, rfl⟩
    next => exact .inr ⟨rfl, rfl⟩

theorem resultType_of_stops {ts : List Token} (hstop : Stops ts) : resultType ts = .ok (.keep () ts) := by
  cases ts with
  | nil =>
    rw [resultType]
    rfl
  | cons t ts =>
    rw [resultType, if_neg (by simp [hstop.not_arrow])]
    rfl

theorem otherBound_of_stops {ts : List Token} (hstop : Stops ts) : otherBound ts = .ok (.keep () ts) := by
  cases ts with
  | nil =>
    rw [otherBound]
    rfl
  | cons t ts =>
    rw [otherBound, if_neg (by simp [hstop.isMark_eq_false])]
    rfl

theorem typeArgs_of_stops {ts : List Token} (hstop : Stops ts) : typeArgs ts = .ok (.keep [] ts) := by
  cases ts with
  | nil =>
    rw [typeArgs]
    rfl
  | cons t ts =>
    rw [typeArgs, if_neg (by simp [hstop.isMark_eq_false])]
    rfl

mutual

theorem typeRef_placed (hstop : Stops behind) (ts : List Token) :
    Repeats k behind id (typeRef ts) (typeRef (placed k behind ts)) := by
  rw [typeRef, typeRef]
  refine (skipAnnotations_placed hstop ts).bind fun _ start h₀ _ => ?_
  have hsuspend := takeWord_placed (k := k) hstop "suspend" start
  dsimp only
  generalize takeWord "suspend" start = p, takeWord "suspend" (placed k behind start) = q at hsuspend
  obtain @⟨_, us, h₁, _⟩ := hsuspend
  cases us with
  | nil => exact .error _
  | cons t us =>
    simp only [placed_cons, Token.isMark_moved]
    split
    next =>
      refine (skipGroup_placed t us).bind fun _ ts₂ h₂ _ => ?_
      refine (resultType_placed hstop ts₂).bind fun _ ts₃ h₃ _ => ?_
      have hnullable := takeMark_placed (k := k) (hstop.atMark_eq_false (show '?' ∉ _ by decide)) ts₃
      dsimp only
      generalize takeMark '?' ts₃ = p, takeMark '?' (placed k behind ts₃) = q at hnullable
      obtain ⟨nullable, rest⟩ := hnullable
      exact .done (by rw [textBetween_placed]; rfl)
    next =>
      refine (dottedName_placed hstop .type (t :: us)).bind fun name ts₂ h₂ _ => ?_
      refine (typeArgs_placed hstop ts₂).bind fun args ts₃ h₃ _ => ?_
      obtain ⟨paren, ts₄, h₄, _, hleft, hright⟩ | ⟨hleft, hright⟩ := receiverEnd_placed (k := k) hstop ts₃
      all_goals simp only [hleft, hright]
      · refine (skipGroup_placed paren ts₄).bind fun _ ts₅ h₅ _ => ?_
        refine (resultType_placed hstop ts₅).bind fun _ rest _ _ => ?_
        exact .done (by rw [textBetween_placed]; rfl)
      · have hnullable := takeMark_placed (k := k) (hstop.atMark_eq_false (show '?' ∉ _ by decide)) ts₃
        generalize takeMark '?' ts₃ = p, takeMark '?' (placed k behind ts₃) = q at hnullable
        obtain @⟨nullable, ts₄, h₄, _⟩ := hnullable
        refine (otherBound_placed hstop ts₄).bind fun _ rest _ _ => ?_
        exact .done (by rw [textBetween_placed]; rfl)
termination_by 3 * ts.length
decreasing_by all_goals (try simp only [List.length_cons] at *); omega

theorem resultType_placed (hstop : Stops behind) (ts : List Token) :
    Repeats k behind id (resultType ts) (resultType (placed k behind ts)) := by
  cases ts with
  | nil => exact .nothing (resultType_of_stops .nil) (resultType_of_stops hstop)
  | cons t ts =>
    rw [placed_cons, resultType, resultType, Token.kind_moved]
    split
    next => exact (typeRef_placed hstop ts).bind fun _ _ _ _ => .done rfl
    next => exact .done (l := t :: ts) rfl
termination_by 3 * ts.length

theorem otherBound_placed (hstop : Stops behind) (ts : List Token) :
    Repeats k behind id (otherBound ts) (otherBound (placed k behind ts)) := by
  cases ts with
  | nil => exact .nothing (otherBound_of_stops .nil) (otherBound_of_stops hstop)
  | cons t ts =>
    rw [placed_cons, otherBound, otherBound, Token.isMark_moved]
    split
    next => exact (typeRef_placed hstop ts).bind fun _ _ _ _ => .done rfl
    next => exact .done (l := t :: ts) rfl
termination_by 3 * ts.length

theorem typeArgs_placed (hstop : Stops behind) (ts : List Token) :
    Repeats k behind id (typeArgs ts) (typeArgs (placed k behind ts)) := by
  cases ts with
  | nil => exact .nothing (typeArgs_of_stops .nil) (typeArgs_of_stops hstop)
  | cons t ts =>
    rw [placed_cons, typeArgs, typeArgs, Token.isMark_moved]
    split
    next => exact (typeArgList_placed hstop ts).bind fun _ _ _ _ => .done rfl
    next => exact .done (l := t :: ts) rfl
termination_by 3 * ts.length

theorem typeArgList_placed (hstop : Stops behind) (ts : List Token) :
    Repeats k behind id (typeArgList ts) (typeArgList (placed k behind ts)) := by
  rw [typeArgList, typeArgList]
  refine (typeArg_placed hstop ts).bind fun arg us h₁ _ => ?_
  cases us with
  | nil => exact .error _
  | cons t us =>
    simp only [placed_cons, Token.isMark_moved]
    split
    next => exact (typeArgList_placed hstop us).bind fun _ _ _ _ => .done rfl
    next =>
      split
      next => exact .done rfl
      next => exact .error _
termination_by 3 * ts.length + 2
decreasing_by all_goals (try simp only [List.length_cons] at *); omega

theorem typeArg_placed (hstop : Stops behind) (ts : List Token) :
    Repeats k behind id (typeArg ts) (typeArg (placed k behind ts)) := by
  cases ts with
  | nil =>
    rw [typeArg]
    exact .error _
  | cons t ts =>
    rw [placed_cons, typeArg, typeArg, Token.isMark_moved]
    split
    next => exact .done rfl
    next =>
      have hvariance := takeVariance_placed (k := k) hstop (t :: ts)
      rw [placed_cons] at hvariance
      generalize takeVariance (t :: ts) = p, takeVariance (t.moved k :: placed k behind ts) = q at hvariance
      obtain @⟨_, us, hlt, _⟩ := hvariance
      exact (typeRef_placed hstop us).bind fun _ _ _ _ => .done rfl
termination_by 3 * ts.length + 1
decreasing_by all_goals grind

end

end Counterpart.Kotlin
