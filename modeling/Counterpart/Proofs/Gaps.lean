/-
What stands between two tokens. `IsGap` says what a gap is made of: blanks, comments up to the end of their line, and block
comments, which nest. The lexer takes such a text and stops where a token starts (`gapFrom_take`, `gapLength_stops`).
-/
import Counterpart.Proofs.Lexing

namespace Counterpart.Kotlin.Lexer

open Text

/-- A block comment behind its opening mark, with its closing mark. -/
inductive BlockComment : List Char → Prop
  | close : BlockComment ['*', '/']
  | nested {inner cs : List Char} (hinner : BlockComment inner) (h : BlockComment cs) :
    BlockComment ('/' :: '*' :: (inner ++ cs))
  | char {c : Char} {cs : List Char} (hopen : c = '/' → cs.head? ≠ some '*') (hclose : c = '*' → cs.head? ≠ some '/')
    (h : BlockComment cs) : BlockComment (c :: cs)

/-- Blanks and comments. Only a `last` gap, behind all tokens, may end within a line comment. -/
inductive IsGap (last : Bool) : List Char → Prop
  | nil : IsGap last []
  | blank {c : Char} {cs : List Char} (hc : isBlank c) (h : IsGap last cs) : IsGap last (c :: cs)
  | line {text cs : List Char} (htext : '\n' ∉ text) (h : IsGap last cs) : IsGap last ('/' :: '/' :: (text ++ '\n' :: cs))
  | lastLine {text : List Char} (hlast : last = true) (htext : '\n' ∉ text) : IsGap last ('/' :: '/' :: text)
  | block {comment cs : List Char} (hcomment : BlockComment comment) (h : IsGap last cs) :
    IsGap last ('/' :: '*' :: (comment ++ cs))

/-- The rest of a line and the gap on the lines below. -/
def LineRest (last : Bool) (cs : List Char) : Prop :=
  last = true ∧ '\n' ∉ cs ∨ ∃ text gap, cs = text ++ '\n' :: gap ∧ '\n' ∉ text ∧ IsGap last gap

/-- The gap at the start of a source, whose first line may be one for the shell. -/
def IsFirstGap (last : Bool) (cs : List Char) : Prop :=
  IsGap last cs ∨ ∃ line, cs = '#' :: '!' :: line ∧ LineRest last line

/-- So many block comments that are still open, each with its closing mark, and the gap behind them. -/
def CommentRests (last : Bool) : Nat → List Char → Prop
  | 0, cs => IsGap last cs
  | inner + 1, cs => ∃ comment rest, cs = comment ++ rest ∧ BlockComment comment ∧ CommentRests last inner rest

/-- What the gap may be from where the reader is. -/
def GapFrom (last : Bool) : GapState → List Char → Prop
  | .between, cs => IsGap last cs
  | .lineComment, cs => LineRest last cs
  | .blockComment _ inner, cs => CommentRests last (inner + 1) cs

variable {last : Bool} {c : Char} {cs : List Char}

theorem BlockComment.ne_nil (h : BlockComment cs) : cs ≠ [] := by cases h <;> simp

theorem LineRest.cons (hc : c ≠ '\n') (h : LineRest last cs) : LineRest last (c :: cs) := by
  obtain ⟨hlast, hcs⟩ | ⟨text, gap, rfl, htext, hgap⟩ := h
  · exact .inl ⟨hlast, by simp [hcs, Ne.symm hc]⟩
  · exact .inr ⟨c :: text, gap, rfl, by simp [htext, Ne.symm hc], hgap⟩

theorem LineRest.isGap (h : LineRest last cs) : IsGap last ('/' :: '/' :: cs) := by
  obtain ⟨hlast, hcs⟩ | ⟨text, gap, rfl, htext, hgap⟩ := h
  · exact .lastLine hlast hcs
  · exact .line htext hgap

/-- A character that goes on with a comment. -/
theorem CommentRests.cons {inner : Nat} (hopen : c = '/' → cs.head? ≠ some '*') (hclose : c = '*' → cs.head? ≠ some '/')
    (h : CommentRests last (inner + 1) cs) : CommentRests last (inner + 1) (c :: cs) := by
  obtain ⟨comment, rest, rfl, hcomment, hrest⟩ := h
  obtain ⟨d, ds, rfl⟩ := List.exists_cons_of_ne_nil hcomment.ne_nil
  exact ⟨c :: d :: ds, rest, rfl, .char hopen hclose hcomment, hrest⟩

/-- A comment nested in one that is open. -/
theorem CommentRests.nested {inner : Nat} (h : CommentRests last (inner + 2) cs) :
    CommentRests last (inner + 1) ('/' :: '*' :: cs) := by
  obtain ⟨first, _, rfl, hfirst, second, rest, rfl, hsecond, hrest⟩ := h
  exact ⟨_, rest, by simp, .nested hfirst hsecond, hrest⟩

theorem gapFrom_take {state : GapState} {pos n : Nat} (h : gapLength state pos cs = .ok n)
    (hlast : n = cs.length → last = true) : GapFrom last state (cs.take n) := by
  fun_induction gapLength state pos cs generalizing n
  case case1 => cases h
  case case2 state pos hblock =>
    cases h
    cases state with
    | between => exact IsGap.nil
    | lineComment => exact Or.inl ⟨hlast rfl, by simp⟩
    | blockComment opened inner => exact absurd rfl (hblock opened inner)
  case case6 =>
    cases h
    exact IsGap.nil
  all_goals
    obtain ⟨m, hm, rfl⟩ := exists_of_map_ok h
    simp only [List.length_cons, Nat.add_right_cancel_iff] at hlast
    simp only [List.take_succ_cons]
  case case3 ih => exact LineRest.isGap (ih hm hlast)
  case case4 ih =>
    obtain ⟨comment, rest, hcs, hcomment, hrest⟩ := ih hm hlast
    rw [hcs]
    exact IsGap.block hcomment hrest
  case case5 hblank ih => exact IsGap.blank hblank (ih hm hlast)
  case case7 ih => exact Or.inr ⟨[], _, rfl, by simp, ih hm hlast⟩
  case case8 c cs hline ih => exact LineRest.cons hline (ih hm hlast)
  case case9 ih => exact CommentRests.nested (ih hm hlast)
  case case10 ih => exact ⟨['*', '/'], _, rfl, .close, ih hm hlast⟩
  case case11 ih => exact ⟨['*', '/'], _, rfl, .close, ih hm hlast⟩
  case case12 c cs hopen hclose hinner ih =>
    have hrests := ih hm hlast
    have hhead : ∀ d, (cs.take m).head? = some d → cs.head? = some d := by
      intro d hd
      cases cs <;> cases m <;> simp_all
    refine CommentRests.cons ?_ ?_ hrests
    · intro hc hd
      obtain ⟨ds, rfl⟩ := List.head?_eq_some_iff.mp (hhead _ hd)
      exact hopen ds hc rfl
    · intro hc hd
      obtain ⟨ds, rfl⟩ := List.head?_eq_some_iff.mp (hhead _ hd)
      rename_i inner _
      cases inner with
      | zero => exact hclose ds rfl hc rfl
      | succ inner => exact hinner inner ds rfl hc rfl

theorem LineRest.of_cons (hc : c ≠ '\n') (h : LineRest last (c :: cs)) : LineRest last cs := by
  obtain ⟨hlast, hcs⟩ | ⟨text, gap, htext, hline, hgap⟩ := h
  · exact .inl ⟨hlast, fun hmem => hcs (List.mem_cons_of_mem c hmem)⟩
  · cases text with
    | nil => exact absurd (List.cons.inj htext).1 hc
    | cons d text => exact .inr ⟨text, gap, (List.cons.inj htext).2, fun h => hline (List.mem_cons_of_mem d h), hgap⟩

/-- The gap at the start of a source. -/
theorem isFirstGap_take {pos n : Nat}
    (h : gapLength (if ['#', '!'].isPrefixOf cs then .lineComment else .between) pos cs = .ok n)
    (hlast : n = cs.length → last = true) : IsFirstGap last (cs.take n) := by
  split at h
  next hshell =>
    obtain ⟨line, rfl⟩ := List.isPrefixOf_iff_prefix.mp hshell
    have htwo : 2 ≤ n := by
      obtain ⟨m, hm, rfl⟩ := exists_of_map_ok h
      obtain ⟨k, -, rfl⟩ := exists_of_map_ok hm
      omega
    obtain ⟨k, rfl⟩ : ∃ k, n = k + 2 := ⟨n - 2, by omega⟩
    have hrest : LineRest last ('#' :: '!' :: line.take k) := gapFrom_take h hlast
    exact .inr ⟨line.take k, rfl, (hrest.of_cons (by decide)).of_cons (by decide)⟩
  next => exact .inl (gapFrom_take h hlast)

theorem gapLength_stops {state : GapState} {pos n : Nat} {rest : List Char} (h : gapLength state pos cs = .ok n)
    (hdrop : cs.drop n = c :: rest) : isBlank c = false ∧ (c = '/' → ∀ d ∈ rest.head?, d ≠ '/' ∧ d ≠ '*') := by
  fun_induction gapLength state pos cs generalizing n
  case case1 => cases h
  case case2 => simp at hdrop
  case case6 c' cs hslash hstar hblank =>
    cases h
    obtain ⟨rfl, rfl⟩ := List.cons.inj hdrop
    refine ⟨by simpa using hblank, ?_⟩
    intro hc d hd
    obtain ⟨ds, rfl⟩ := List.head?_eq_some_iff.mp hd
    refine ⟨?_, ?_⟩
    · intro hd
      exact hslash ds hc (by rw [hd])
    · intro hd
      exact hstar ds hc (by rw [hd])
  all_goals
    obtain ⟨m, hm, rfl⟩ := exists_of_map_ok h
    rename_i ih
    exact ih hm hdrop

/-! ## The ends of gaps -/

theorem forall_getLast?_append {P : Char → Prop} {front : List Char} {e : Char} (hfront : front.getLast? = some e) (he : P e)
    (h : ∀ c ∈ cs.getLast?, P c) : ∀ c ∈ (front ++ cs).getLast?, P c := by
  rw [List.getLast?_append, hfront]
  cases hlast : cs.getLast? with
  | none =>
    rintro _ ⟨⟩
    exact he
  | some d =>
    rintro _ ⟨⟩
    exact h d hlast

theorem BlockComment.getLast?_eq (h : BlockComment cs) : cs.getLast? = some '/' := by
  induction h with
  | close => rfl
  | nested _ _ _ ih =>
    rw [List.getLast?_cons, List.getLast?_cons, List.getLast?_append, ih]
    rfl
  | char _ _ _ ih =>
    rw [List.getLast?_cons, ih]
    rfl

theorem IsGap.mem_head? (h : IsGap last cs) : ∀ c ∈ cs.head?, isBlank c ∨ c = '/' := by
  cases h with
  | nil => simp
  | blank hc =>
    rintro _ ⟨⟩
    exact .inl hc
  | line | lastLine | block =>
    rintro _ ⟨⟩
    exact .inr rfl

theorem IsGap.mem_getLast? (h : IsGap false cs) : ∀ c ∈ cs.getLast?, isBlank c ∨ c = '/' := by
  induction h with
  | nil => simp
  | blank hc _ ih => exact forall_getLast?_append List.getLast?_singleton (.inl hc) ih
  | line _ _ ih =>
    rw [List.append_cons, ← List.cons_append, ← List.cons_append, ← List.cons_append, ← List.cons_append]
    exact forall_getLast?_append List.getLast?_concat (.inl (by decide)) ih
  | lastLine hlast => cases hlast
  | block hcomment _ ih =>
    rw [← List.cons_append, ← List.cons_append]
    refine forall_getLast?_append ?_ (.inr rfl) ih
    rw [List.getLast?_cons, List.getLast?_cons, hcomment.getLast?_eq]
    rfl

theorem IsFirstGap.mem_head? (h : IsFirstGap last cs) : ∀ c ∈ cs.head?, isBlank c ∨ c = '/' ∨ c = '#' := by
  obtain h | ⟨line, rfl, -⟩ := h
  · exact fun c hc => (h.mem_head? c hc).imp_right .inl
  · rintro _ ⟨⟩
    exact .inr (.inr rfl)

theorem IsFirstGap.mem_getLast? (h : IsFirstGap false cs) : ∀ c ∈ cs.getLast?, isBlank c ∨ c = '/' := by
  obtain h | ⟨line, rfl, ⟨hlast, -⟩ | ⟨text, gap, rfl, -, hgap⟩⟩ := h
  · exact h.mem_getLast?
  · cases hlast
  · rw [List.append_cons, ← List.cons_append, ← List.cons_append, ← List.cons_append, ← List.cons_append]
    exact forall_getLast?_append List.getLast?_concat (.inl (by decide)) hgap.mem_getLast?

/-! ## Gaps without line comments -/

/-- Blanks and block comments. -/
inductive InlineGap : List Char → Prop
  | nil : InlineGap []
  | blank {c : Char} {cs : List Char} (hc : isBlank c) (h : InlineGap cs) : InlineGap (c :: cs)
  | block {comment cs : List Char} (hcomment : BlockComment comment) (h : InlineGap cs) :
    InlineGap ('/' :: '*' :: (comment ++ cs))

/-- A gap up to its first line comment, and whatever stands behind the mark of that comment. -/
def Commented (cs : List Char) : Prop :=
  ∃ front rest, cs = front ++ '/' :: '/' :: rest ∧ InlineGap front

theorem InlineGap.append_isGap {front rest : List Char} (h : InlineGap front) (hrest : IsGap last rest) :
    IsGap last (front ++ rest) := by
  induction h with
  | nil => exact hrest
  | blank hc _ ih => exact .blank hc ih
  | block hcomment _ ih =>
    rw [List.cons_append, List.cons_append, List.append_assoc]
    exact .block hcomment ih

theorem InlineGap.isGap (h : InlineGap cs) : IsGap last cs := by
  have : IsGap last (cs ++ []) := h.append_isGap .nil
  rwa [List.append_nil] at this

theorem IsGap.inline_or_commented (h : IsGap last cs) : InlineGap cs ∨ Commented cs := by
  induction h with
  | nil => exact .inl .nil
  | blank hc _ ih =>
    obtain h | ⟨front, rest, rfl, hfront⟩ := ih
    · exact .inl (.blank hc h)
    · exact .inr ⟨_, rest, rfl, .blank hc hfront⟩
  | line => exact .inr ⟨[], _, rfl, .nil⟩
  | lastLine => exact .inr ⟨[], _, rfl, .nil⟩
  | block hcomment _ ih =>
    obtain h | ⟨front, rest, rfl, hfront⟩ := ih
    · exact .inl (.block hcomment h)
    · exact .inr ⟨_, rest, by simp, .block hcomment hfront⟩

/-- Without the end of a line, all that stands behind the mark of a line comment belongs to it. -/
theorem Commented.isGap_append {rest : List Char} (h : Commented cs) (hline : '\n' ∉ cs ++ rest) : IsGap true (cs ++ rest) := by
  obtain ⟨front, line, rfl, hfront⟩ := h
  rw [List.append_assoc, List.cons_append, List.cons_append] at hline ⊢
  refine hfront.append_isGap (.lastLine rfl ?_)
  simp only [List.mem_append, List.mem_cons, not_or] at hline ⊢
  exact hline.2.2.2

/-! ## Gaps are read -/

/-- Whether a text is over or starts a token, so that no gap goes on into it. -/
def StartsToken (cs : List Char) : Prop :=
  ∀ c ∈ cs.head?, isBlank c = false ∧ (c = '/' → ∀ d ∈ cs.tail.head?, d ≠ '/' ∧ d ≠ '*')

theorem gapLength_startsToken (h : StartsToken cs) (pos : Nat) : gapLength .between pos cs = .ok 0 := by
  cases cs with
  | nil => rfl
  | cons c cs =>
    obtain ⟨hblank, hcomment⟩ := h c rfl
    rw [gapLength.eq_5, if_neg (by simp [hblank])]
    · intro ds hc hcs
      exact (hcomment hc '/' (by rw [hcs]; rfl)).1 rfl
    · intro ds hc hcs
      exact (hcomment hc '*' (by rw [hcs]; rfl)).2 rfl

theorem gapLength_line {text : List Char} {n : Nat} (htext : '\n' ∉ text) (h : ∀ pos, gapLength .between pos cs = .ok n)
    (pos : Nat) : gapLength .lineComment pos (text ++ '\n' :: cs) = .ok (n + 1 + text.length) := by
  induction text generalizing pos with
  | nil =>
    rw [List.nil_append, gapLength, h]
    rfl
  | cons d text ih =>
    rw [List.mem_cons, not_or] at htext
    rw [List.cons_append, gapLength, ih htext.2]
    · rfl
    · exact fun h => htext.1 h.symm

theorem gapLength_lastLine {text : List Char} (htext : '\n' ∉ text) (pos : Nat) :
    gapLength .lineComment pos text = .ok text.length := by
  induction text generalizing pos with
  | nil => rfl
  | cons d text ih =>
    rw [List.mem_cons, not_or] at htext
    rw [gapLength, ih htext.2]
    · rfl
    · exact fun h => htext.1 h.symm

/-- Where the reader is behind a comment that is closed. -/
def GapState.closed (opened : Nat) : Nat → GapState
  | 0 => .between
  | inner + 1 => .blockComment opened inner

theorem gapLength_comment {comment : List Char} (hcomment : BlockComment comment) {opened inner n : Nat}
    (h : ∀ pos, gapLength (.closed opened inner) pos cs = .ok n) (pos : Nat) :
    gapLength (.blockComment opened inner) pos (comment ++ cs) = .ok (n + comment.length) := by
  induction hcomment generalizing inner n pos cs with
  | close => cases inner <;> exact congrArg (Functor.map (· + 2)) (h (pos + 2))
  | @nested first second _ _ ih₁ ih₂ =>
    have hinner := ih₁ (show ∀ pos, gapLength (.closed opened (inner + 1)) pos (second ++ cs) = _ from ih₂ h)
    rw [List.cons_append, List.cons_append, List.append_assoc, gapLength, hinner]
    simp only [Functor.map, Except.map, List.length_cons, List.length_append]
    exact congrArg Except.ok (by omega)
  | @char c comment hopen hclose hcomment ih =>
    obtain ⟨d, ds, rfl⟩ := List.exists_cons_of_ne_nil hcomment.ne_nil
    rw [List.cons_append, gapLength, ih h]
    · rfl
    · intro es hc hes
      cases hes
      exact hopen hc rfl
    · intro es _ hc hes
      cases hes
      exact hclose hc rfl
    · intro i es _ hc hes
      cases hes
      exact hclose hc rfl

theorem gapLength_isGap {gap rest : List Char} (h : IsGap last gap) (hlast : last = true → rest = [])
    (hrest : StartsToken rest) (pos : Nat) : gapLength .between pos (gap ++ rest) = .ok gap.length := by
  induction h generalizing pos with
  | nil => exact gapLength_startsToken hrest pos
  | blank hc _ ih =>
    rw [List.cons_append, gapLength_between_blank hc, ih]
    rfl
  | line htext _ ih =>
    rw [List.cons_append, List.cons_append, List.append_assoc, List.cons_append, gapLength, gapLength_line htext ih]
    simp only [Functor.map, Except.map, List.length_cons, List.length_append]
    exact congrArg Except.ok (by omega)
  | lastLine h htext =>
    rw [hlast h, List.append_nil, gapLength, gapLength_lastLine htext]
    rfl
  | block hcomment _ ih =>
    have hclosed := gapLength_comment hcomment (show ∀ pos', gapLength (.closed pos 0) pos' (_ ++ rest) = _ from ih)
    rw [List.cons_append, List.cons_append, List.append_assoc, gapLength, hclosed]
    simp only [Functor.map, Except.map, List.length_cons, List.length_append]
    exact congrArg Except.ok (by omega)

end Counterpart.Kotlin.Lexer
