/-
Brackets among tokens. `Nested` says that they are properly nested, `Closes` says the same with a stack of brackets that are
still to be closed, as `closeGroup` counts them, and can let closing braces through that belong to no group. These are too many
exactly when there are more closing braces than opening ones (`Closes.nested_iff`).
-/
import Counterpart.Kotlin.Group

namespace Counterpart.Kotlin

/-- Whether the token opens or closes a group. -/
def Token.isBracket (t : Token) : Bool := t.closer?.isSome || t.closing?.isSome

/-- Tokens whose brackets are properly nested. -/
inductive Nested : List Token → Prop
  | nil : Nested []
  | plain {t : Token} {ts : List Token} (ht : t.isBracket = false) (h : Nested ts) : Nested (t :: ts)
  | group {opener closer : Token} {c : Char} {body ts : List Token} (hopener : opener.closer? = some c)
    (hbody : Nested body) (hcloser : closer.closing? = some c) (h : Nested ts) : Nested (opener :: (body ++ closer :: ts))

/-- The tokens close the groups that end with the brackets `cs`, innermost first, and every group opened on the way. With
`surplus`, closing braces may stand between them that close nothing. -/
inductive Closes (surplus : Bool) : List Char → List Token → Prop
  | nil : Closes surplus [] []
  | plain {t : Token} {cs : List Char} {ts : List Token} (ht : t.isBracket = false) (h : Closes surplus cs ts) :
    Closes surplus cs (t :: ts)
  | opens {t : Token} {c : Char} {cs : List Char} {ts : List Token} (ht : t.closer? = some c)
    (h : Closes surplus (c :: cs) ts) : Closes surplus cs (t :: ts)
  | closes {t : Token} {c : Char} {cs : List Char} {ts : List Token} (ht : t.closing? = some c)
    (h : Closes surplus cs ts) : Closes surplus (c :: cs) (t :: ts)
  | surplus {t : Token} {cs : List Char} {ts : List Token} (hsurplus : surplus = true) (ht : t.closing? = some '\x7d')
    (h : Closes surplus cs ts) : Closes surplus cs (t :: ts)

namespace Closes

variable {surplus : Bool} {c : Char} {cs ds : List Char} {t : Token} {ts us : List Token}

theorem append (h : Closes surplus cs ts) (h' : Closes surplus ds us) : Closes surplus (cs ++ ds) (ts ++ us) := by
  induction h with
  | nil => exact h'
  | plain ht _ ih => exact .plain ht ih
  | opens ht _ ih => exact .opens ht ih
  | closes ht _ ih => exact .closes ht ih
  | surplus hsurplus ht _ ih => exact .surplus hsurplus ht ih

/-- The bracket `c` is closed after those that come before it, and before those that come after it. -/
theorem split (h : Closes surplus (ds ++ c :: cs) ts) :
    ∃ body closer rest, ts = body ++ closer :: rest ∧ Closes surplus ds body ∧ closer.closing? = some c ∧
      Closes surplus cs rest := by
  generalize hes : ds ++ c :: cs = es at h
  induction h generalizing ds with
  | nil => simp at hes
  | @plain t es ts ht _ ih =>
    obtain ⟨body, closer, rest, rfl, hbody, hcloser, hrest⟩ := ih hes
    exact ⟨t :: body, closer, rest, rfl, .plain ht hbody, hcloser, hrest⟩
  | @opens t d es ts ht _ ih =>
    have hes : (d :: ds) ++ c :: cs = d :: es := congrArg (d :: ·) hes
    obtain ⟨body, closer, rest, rfl, hbody, hcloser, hrest⟩ := ih hes
    exact ⟨t :: body, closer, rest, rfl, .opens ht hbody, hcloser, hrest⟩
  | @closes t d es ts ht h ih =>
    cases ds with
    | nil =>
      obtain ⟨rfl, rfl⟩ := List.cons.inj hes
      exact ⟨[], t, ts, rfl, .nil, ht, h⟩
    | cons e ds =>
      rw [List.cons_append] at hes
      obtain ⟨rfl, htail⟩ := List.cons.inj hes
      obtain ⟨body, closer, rest, rfl, hbody, hcloser, hrest⟩ := ih htail
      exact ⟨t :: body, closer, rest, rfl, .closes ht hbody, hcloser, hrest⟩
  | @surplus t es ts hsurplus ht _ ih =>
    obtain ⟨body, closer, rest, rfl, hbody, hcloser, hrest⟩ := ih hes
    exact ⟨t :: body, closer, rest, rfl, .surplus hsurplus ht hbody, hcloser, hrest⟩

end Closes

/-! ## Nested brackets -/

theorem Nested.closes {ts : List Token} (h : Nested ts) : Closes false [] ts := by
  induction h with
  | nil => exact .nil
  | plain ht _ ih => exact .plain ht ih
  | group hopener _ hcloser _ ihbody ih => exact .opens hopener (ihbody.append (.closes hcloser ih))

theorem Closes.nested {ts : List Token} (h : Closes false [] ts) : Nested ts := by
  match h with
  | .nil => exact .nil
  | .plain ht h => exact .plain ht h.nested
  | .opens ht h =>
    have h : Closes false ([] ++ [_]) _ := h
    obtain ⟨body, closer, rest, rfl, hbody, hcloser, hrest⟩ := h.split
    exact .group ht hbody.nested hcloser hrest.nested
termination_by ts.length
decreasing_by all_goals simp_all; try omega

/-- Nested brackets are those that close what they open, and nothing else. -/
theorem nested_iff_closes {ts : List Token} : Nested ts ↔ Closes false [] ts := ⟨Nested.closes, Closes.nested⟩

theorem Nested.append {ts us : List Token} (h : Nested ts) (h' : Nested us) : Nested (ts ++ us) :=
  nested_iff_closes.mpr (h.closes.append h'.closes)

/-! ## Surplus braces -/

theorem Token.kind_of_closer? {t : Token} {c : Char} (h : t.closer? = some c) :
    t.kind = .mark '(' ∧ c = ')' ∨ t.kind = .mark '[' ∧ c = ']' ∨ t.kind = .mark '\x7b' ∧ c = '\x7d' := by
  unfold closer? at h
  split at h <;> cases h <;> simp [*]

theorem Token.kind_of_closing? {t : Token} {c : Char} (h : t.closing? = some c) : t.kind = .mark c := by
  unfold closing? at h
  split at h <;> cases h <;> assumption

/-- How many of the tokens are the mark `c`. -/
def marks (c : Char) (ts : List Token) : Nat := ts.countP (Token.isMark c)

theorem marks_cons (c : Char) (t : Token) (ts : List Token) :
    marks c (t :: ts) = marks c ts + if t.kind = .mark c then 1 else 0 := by
  simp [marks, List.countP_cons, Token.isMark]

theorem Token.not_mark_of_not_bracket {t : Token} (h : t.isBracket = false) :
    t.kind ≠ .mark '\x7b' ∧ t.kind ≠ .mark '\x7d' := by
  constructor <;> intro hk <;> simp [isBracket, closer?, closing?, hk] at h

/-- There are more closing braces than opened groups account for, or none of them is surplus. -/
theorem Closes.count {surplus : Bool} {cs : List Char} {ts : List Token} (h : Closes surplus cs ts) :
    surplus = true ∧ marks '\x7b' ts + cs.count '\x7d' < marks '\x7d' ts ∨
      Closes false cs ts ∧ marks '\x7b' ts + cs.count '\x7d' = marks '\x7d' ts := by
  induction h with
  | nil => exact .inr ⟨.nil, rfl⟩
  | plain ht _ ih =>
    obtain ⟨hopen, hclose⟩ := Token.not_mark_of_not_bracket ht
    simp only [marks_cons, hopen, hclose, if_false, Nat.add_zero]
    exact ih.imp_right fun ⟨h, hcount⟩ => ⟨.plain ht h, hcount⟩
  | @opens t c cs ts ht _ ih =>
    have hbraces : marks '\x7b' (t :: ts) + cs.count '\x7d' = marks '\x7b' ts + (c :: cs).count '\x7d' ∧
        marks '\x7d' (t :: ts) = marks '\x7d' ts := by
      obtain ⟨hk, rfl⟩ | ⟨hk, rfl⟩ | ⟨hk, rfl⟩ := Token.kind_of_closer? ht <;>
        simp [marks_cons, hk, Nat.add_assoc, Nat.add_comm]
    rw [hbraces.1, hbraces.2]
    exact ih.imp_right fun ⟨h, hcount⟩ => ⟨.opens ht h, hcount⟩
  | @closes t c cs ts ht _ ih =>
    have hk := Token.kind_of_closing? ht
    have hbraces : marks '\x7b' (t :: ts) = marks '\x7b' ts ∧
        marks '\x7d' (t :: ts) + cs.count '\x7d' = marks '\x7d' ts + (c :: cs).count '\x7d' := by
      have hc : c ≠ '\x7b' := by rintro rfl; simp [Token.closing?, hk] at ht
      simp [marks_cons, hk, List.count_cons, hc, Nat.add_assoc, Nat.add_comm]
    rw [hbraces.1]
    exact ih.imp (fun ⟨hsurplus, hcount⟩ => ⟨hsurplus, by omega⟩) fun ⟨h, hcount⟩ => ⟨.closes ht h, by omega⟩
  | @surplus t cs ts hsurplus ht _ ih =>
    have hle : marks '\x7b' ts + cs.count '\x7d' ≤ marks '\x7d' ts := ih.elim (Nat.le_of_lt ·.2) (Nat.le_of_eq ·.2)
    refine .inl ⟨hsurplus, ?_⟩
    simp [marks_cons, Token.kind_of_closing? ht]
    omega

theorem Nested.marks_eq {ts : List Token} (h : Nested ts) : marks '\x7b' ts = marks '\x7d' ts := by
  obtain ⟨hfalse, -⟩ | ⟨-, hcount⟩ := h.closes.count
  · cases hfalse
  · simpa using hcount

/-- When no closing brace is surplus, the brackets are nested. -/
theorem Closes.nested_iff {ts : List Token} (h : Closes true [] ts) :
    Nested ts ↔ marks '\x7b' ts = marks '\x7d' ts := by
  refine ⟨Nested.marks_eq, fun heq => ?_⟩
  obtain ⟨-, hlt⟩ | ⟨h, -⟩ := h.count
  · simp [heq] at hlt
  · exact h.nested

end Counterpart.Kotlin
