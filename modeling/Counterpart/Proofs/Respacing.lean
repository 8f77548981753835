/-
Reading two sources side by side whose tokens differ in their gaps, and in names that a reader does not ask for (`Spelling`).
`Alongside` relates what a reader makes of both: it takes as many tokens from one as from the other and finds what corresponds, or
it stops with the same fault at tokens of the same place. As the readers are gone through for that, it says too which brackets the
tokens taken have closed (`Closes`).
-/
import Counterpart.Proofs.Nesting
import Counterpart.Proofs.ReadingGroups

namespace Counterpart.Kotlin

/-- The words that a reader asks for whatever follows them. -/
def askedWords : List String :=
  declarationWords ++
    ["public", "private", "internal", "protected", "suspend", "package", "import", "as", "where", "out", "in"]

/-- How names in the same place of two sources are spelled: a word that a reader asks for is in both or in none, and what is
declared under the names is called the same. -/
class Spelling (T : String → String → Prop) : Prop where
  word {s s' w : String} (h : T s s') (hw : w ∈ askedWords) : s' = w ↔ s = w
  unquote {s s' : String} (h : T s s') : Name.unquote s' = Name.unquote s

instance : Spelling Eq where
  word h _ := by rw [h]
  unquote h := by rw [h]

/-- A token of one source and the token at the same place of the other. -/
structure Twin (T : String → String → Prop) where
  left : Token
  right : Token
  kind : right.kind = left.kind
  name : left.isName = true → T left.text right.text
  other : left.isName = false → right.text = left.text

namespace Twin

variable {T : String → String → Prop} (z : Twin T)

@[simp] theorem isMark_right (c : Char) : z.right.isMark c = z.left.isMark c := isMark_of_kind z.kind c

@[simp] theorem isName_right : z.right.isName = z.left.isName := by simp only [Token.isName, z.kind]

theorem isWord_right [Spelling T] (word : String) (hword : word ∈ askedWords) : z.right.isWord word = z.left.isWord word := by
  simp only [Token.isWord, isName_right]
  by_cases hname : z.left.isName = true
  · rw [Bool.eq_iff_iff]
    simp only [hname, Bool.true_and, beq_iff_eq]
    exact Spelling.word (z.name hname) hword
  · simp only [hname, Bool.false_and]

theorem contains_right [Spelling T] (words : List String) (hwords : words ⊆ askedWords) :
    words.contains z.right.text = words.contains z.left.text := by
  by_cases hname : z.left.isName = true
  · have hword {w : String} (hw : w ∈ words) := Spelling.word (z.name hname) (hwords hw)
    rw [Bool.eq_iff_iff, List.contains_iff_mem, List.contains_iff_mem]
    exact ⟨fun h => (hword h).mp rfl ▸ h, fun h => (hword h).mpr rfl ▸ h⟩
  · rw [z.other (Bool.eq_false_iff.mpr hname)]

theorem text_eq (z : Twin Eq) : z.left.text = z.right.text := by
  by_cases hname : z.left.isName = true
  · exact z.name hname
  · exact (z.other (Bool.eq_false_iff.mpr hname)).symm

theorem unquote_right [Spelling T] : Name.unquote z.right.text = Name.unquote z.left.text := by
  by_cases hname : z.left.isName = true
  · exact Spelling.unquote (z.name hname)
  · rw [z.other (Bool.eq_false_iff.mpr hname)]

@[simp] theorem closer?_right : z.right.closer? = z.left.closer? := closer?_of_kind z.kind

@[simp] theorem closing?_right : z.right.closing? = z.left.closing? := closing?_of_kind z.kind

theorem text_of_closer? {c : Char} (h : z.left.closer? = some c) : z.right.text = z.left.text := by
  refine z.other ?_
  obtain ⟨hkind, -⟩ | ⟨hkind, -⟩ | ⟨hkind, -⟩ := Token.kind_of_closer? h <;> simp [Token.isName, hkind]

end Twin

variable {T : String → String → Prop}

/-- The tokens of the one source. -/
def lefts (zs : List (Twin T)) : List Token := zs.map (·.left)

/-- The tokens of the other source. -/
def rights (zs : List (Twin T)) : List Token := zs.map (·.right)

section Sides

variable (z : Twin T) (zs ws : List (Twin T))

@[simp] theorem lefts_nil : lefts ([] : List (Twin T)) = [] := rfl

@[simp] theorem rights_nil : rights ([] : List (Twin T)) = [] := rfl

@[simp] theorem lefts_cons : lefts (z :: zs) = z.left :: lefts zs := rfl

@[simp] theorem rights_cons : rights (z :: zs) = z.right :: rights zs := rfl

@[simp] theorem lefts_append : lefts (ws ++ zs) = lefts ws ++ lefts zs := List.map_append

@[simp] theorem length_lefts : (lefts zs).length = zs.length := List.length_map _

@[simp] theorem atMark_rights (c : Char) : atMark c (rights zs) = atMark c (lefts zs) := by
  cases zs <;> simp [atMark]

end Sides

/-! ## Two runs -/

/-- What was made of one source and of the other is related by `Q`, or both were refused for the same cause at a token of `Z`,
or at the end. -/
inductive Together {α β : Type} (Z : List (Twin T)) (Q : α → β → Prop) : Except Fault α → Except Fault β → Prop
  | ok {a : α} {b : β} (h : Q a b) : Together Z Q (.ok a) (.ok b)
  | error (cause : Cause) (z : Option (Twin T)) (h : ∀ w ∈ z, w ∈ Z) :
    Together Z Q (.error ⟨cause, z.map (·.left)⟩) (.error ⟨cause, z.map (·.right)⟩)

/-- From `zs` the same tokens were taken in both sources, which close `cs`, and what they stand for is related by `R`. -/
inductive Took {α : Type} {m n : Nat} (R : α → α → Prop) (zs : List (Twin T)) (cs : List Char) :
    Parsed α m → Parsed α n → Prop
  | mk (ws vs : List (Twin T)) {a b : α} {h : (lefts vs).length < m} {h' : (rights vs).length < n} (hzs : zs = ws ++ vs)
    (hcloses : Closes true cs (lefts ws)) (hR : R a b) : Took R zs cs ⟨a, lefts vs, h⟩ ⟨b, rights vs, h'⟩

/-- A reader reads `zs` in both sources alike. -/
abbrev Alongside {α : Type} {m n : Nat} (Z : List (Twin T)) (R : α → α → Prop) (zs : List (Twin T)) (cs : List Char)
    (x : Except Fault (Parsed α m)) (y : Except Fault (Parsed α n)) : Prop := Together Z (Took R zs cs) x y

section TwoRuns

variable {α β γ δ : Type} {m n m' n' : Nat} {Z zs : List (Twin T)} {z : Twin T} {c : Char} {bs cs : List Char} {cause : Cause}

namespace Together

variable {Q : α → β → Prop} {P : γ → δ → Prop} {x : Except Fault α} {y : Except Fault β}

theorem errorAt (hz : z ∈ Z) : Together Z Q (.error ⟨cause, some z.left⟩) (.error ⟨cause, some z.right⟩) :=
  .error cause (some z) fun _ hw => Option.mem_some.mp hw ▸ hz

theorem errorAtEnd : Together Z Q (.error ⟨cause, none⟩) (.error ⟨cause, none⟩) :=
  .error cause none fun _ hw => by cases hw

theorem mono {Q' : α → β → Prop} (h : Together Z Q x y) (hQ : ∀ a b, Q a b → Q' a b) : Together Z Q' x y := by
  cases h with
  | ok h => exact .ok (hQ _ _ h)
  | error cause z h => exact .error cause z h

theorem bind {f : α → Except Fault γ} {g : β → Except Fault δ} (h : Together Z Q x y)
    (hfg : ∀ a b, Q a b → Together Z P (f a) (g b)) : Together Z P (x >>= f) (y >>= g) := by
  cases h with
  | ok h => exact hfg _ _ h
  | error cause z h => exact .error cause z h

end Together

namespace Took

variable {R : α → α → Prop} {p : Parsed α m} {q : Parsed α n}

theorem plain (hz : z.left.isBracket = false) (h : Took R zs cs p q) : Took R (z :: zs) cs p q := by
  obtain ⟨ws, vs, hzs, hcloses, hR⟩ := h
  exact ⟨z :: ws, vs, congrArg (z :: ·) hzs, .plain hz hcloses, hR⟩

theorem opens (hz : z.left.closer? = some c) (h : Took R zs (c :: cs) p q) : Took R (z :: zs) cs p q := by
  obtain ⟨ws, vs, hzs, hcloses, hR⟩ := h
  exact ⟨z :: ws, vs, congrArg (z :: ·) hzs, .opens hz hcloses, hR⟩

theorem closes (hz : z.left.closing? = some c) (h : Took R zs cs p q) : Took R (z :: zs) (c :: cs) p q := by
  obtain ⟨ws, vs, hzs, hcloses, hR⟩ := h
  exact ⟨z :: ws, vs, congrArg (z :: ·) hzs, .closes hz hcloses, hR⟩

theorem surplus (hz : z.left.closing? = some '\x7d') (h : Took R zs cs p q) : Took R (z :: zs) cs p q := by
  obtain ⟨ws, vs, hzs, hcloses, hR⟩ := h
  exact ⟨z :: ws, vs, congrArg (z :: ·) hzs, .surplus rfl hz hcloses, hR⟩

theorem after {ws vs : List (Twin T)} (hcloses : Closes true bs (lefts ws)) (hzs : zs = ws ++ vs) (h : Took R vs cs p q) :
    Took R zs (bs ++ cs) p q := by
  obtain ⟨us, vs, rfl, hus, hR⟩ := h
  refine ⟨ws ++ us, vs, by rw [hzs, List.append_assoc], ?_, hR⟩
  rw [lefts_append]
  exact hcloses.append hus

theorem past {ts ts' : List Token} {p : Parsed α (ts.length + 1)} {q : Parsed α (ts'.length + 1)} (t t' : Token)
    (h : Took R zs cs p q) : Took R zs cs (p.past t) (q.past t') := by
  obtain ⟨ws, vs, hzs, hcloses, hR⟩ := h
  exact ⟨ws, vs, hzs, hcloses, hR⟩

end Took

namespace Alongside

variable {R : α → α → Prop} {S : β → β → Prop} {x : Except Fault (Parsed α m)} {y : Except Fault (Parsed α n)}

/-- Nothing was taken. -/
theorem done {a b : α} {h : (lefts zs).length < m} {h' : (rights zs).length < n} (hR : R a b) :
    Alongside Z R zs [] (.ok ⟨a, lefts zs, h⟩) (.ok ⟨b, rights zs, h'⟩) := .ok ⟨[], zs, rfl, .nil, hR⟩

theorem plain (hz : z.left.isBracket = false) (h : Alongside Z R zs cs x y) : Alongside Z R (z :: zs) cs x y :=
  h.mono fun _ _ => .plain hz

theorem opens (hz : z.left.closer? = some c) (h : Alongside Z R zs (c :: cs) x y) : Alongside Z R (z :: zs) cs x y :=
  h.mono fun _ _ => .opens hz

theorem closes (hz : z.left.closing? = some c) (h : Alongside Z R zs cs x y) : Alongside Z R (z :: zs) (c :: cs) x y :=
  h.mono fun _ _ => .closes hz

theorem surplus (hz : z.left.closing? = some '\x7d') (h : Alongside Z R zs cs x y) : Alongside Z R (z :: zs) cs x y :=
  h.mono fun _ _ => .surplus hz

theorem after {ws vs : List (Twin T)} (hcloses : Closes true bs (lefts ws)) (hzs : zs = ws ++ vs)
    (h : Alongside Z R vs cs x y) : Alongside Z R zs (bs ++ cs) x y := h.mono fun _ _ => .after hcloses hzs

/-- The same behind tokens in which nothing is left to close. -/
theorem skip {ws vs : List (Twin T)} (hcloses : Closes true [] (lefts ws)) (hzs : zs = ws ++ vs)
    (h : Alongside Z R vs cs x y) : Alongside Z R zs cs x y := h.after hcloses hzs

/-- What a reader leaves is read on in both sources. -/
theorem bind {f : Parsed α m → Except Fault (Parsed β m')} {g : Parsed α n → Except Fault (Parsed β n')}
    (h : Alongside Z R zs bs x y) (hzs : zs <:+ Z)
    (hfg : ∀ vs a b hm hn, vs <:+ Z → R a b → Alongside Z S vs cs (f ⟨a, lefts vs, hm⟩) (g ⟨b, rights vs, hn⟩)) :
    Alongside Z S zs (bs ++ cs) (x >>= f) (y >>= g) := by
  refine Together.bind h fun p q hpq => ?_
  obtain ⟨ws, vs, hsplit, hcloses, hR⟩ := hpq
  have hvs : vs <:+ Z := (hsplit ▸ List.suffix_append ws vs).trans hzs
  exact (hfg vs _ _ _ _ hvs hR).after hcloses hsplit

end Alongside

/-- A reader that may find nothing reads `zs` in both sources alike. What it looked at before it found nothing does not count. -/
abbrev AlongsideIfAny (Z : List (Twin T)) (R : α → α → Prop) (zs : List (Twin T)) (cs : List Char)
    (x : Except Fault (Option (Parsed α m))) (y : Except Fault (Option (Parsed α n))) : Prop :=
  Together Z (Option.Rel (Took R zs cs)) x y

namespace AlongsideIfAny

variable {R : α → α → Prop} {S : β → β → Prop} {x : Except Fault (Option (Parsed α m))}
  {y : Except Fault (Option (Parsed α n))}

theorem after {ws vs : List (Twin T)} (hcloses : Closes true bs (lefts ws)) (hzs : zs = ws ++ vs)
    (h : AlongsideIfAny Z R vs cs x y) : AlongsideIfAny Z R zs (bs ++ cs) x y := by
  refine h.mono fun o o' ho => ?_
  cases ho with
  | none => exact .none
  | some h => exact .some (h.after hcloses hzs)

/-- The same behind tokens in which nothing is left to close. -/
theorem skip {ws vs : List (Twin T)} (hcloses : Closes true [] (lefts ws)) (hzs : zs = ws ++ vs)
    (h : AlongsideIfAny Z R vs cs x y) : AlongsideIfAny Z R zs cs x y := h.after hcloses hzs

/-- What a reader leaves is read on in both sources. -/
theorem bind {x : Except Fault (Parsed α m)} {y : Except Fault (Parsed α n)}
    {f : Parsed α m → Except Fault (Option (Parsed β m'))} {g : Parsed α n → Except Fault (Option (Parsed β n'))}
    (h : Alongside Z R zs bs x y) (hzs : zs <:+ Z)
    (hfg : ∀ vs a b hm hn, vs <:+ Z → R a b → AlongsideIfAny Z S vs cs (f ⟨a, lefts vs, hm⟩) (g ⟨b, rights vs, hn⟩)) :
    AlongsideIfAny Z S zs (bs ++ cs) (x >>= f) (y >>= g) := by
  refine Together.bind h fun p q hpq => ?_
  obtain ⟨ws, vs, hsplit, hcloses, hR⟩ := hpq
  have hvs : vs <:+ Z := (hsplit ▸ List.suffix_append ws vs).trans hzs
  exact (hfg vs _ _ _ _ hvs hR).after hcloses hsplit

end AlongsideIfAny

end TwoRuns

/-! ## Marks and words -/

section Readers

variable {Z zs : List (Twin T)} {z : Twin T} {c : Char}

theorem isBracket_of_kind {t : Token} {k : TokenKind} (h : t.kind = k) (hk : ∀ c, k = .mark c → c ∉ ['(', '[', '\x7b', ')', ']', '\x7d']) :
    t.isBracket = false := by
  unfold Token.isBracket Token.closer? Token.closing?
  rw [h]
  split <;> split <;> simp_all

theorem isBracket_of_isName {t : Token} (h : t.isName = true) : t.isBracket = false :=
  isBracket_of_kind (k := .name) (by simpa [Token.isName] using h) fun _ hk => by cases hk

theorem isBracket_of_isWord {t : Token} {word : String} (h : t.isWord word = true) : t.isBracket = false :=
  isBracket_of_isName (Bool.and_eq_true_iff.mp h).1

theorem isBracket_of_isMark {t : Token} (h : t.isMark c = true) (hc : c ∉ ['(', '[', '\x7b', ')', ']', '\x7d']) :
    t.isBracket = false := isBracket_of_kind (kind_of_isMark h) fun _ hk => by cases hk; exact hc

theorem Token.not_isBracket {t : Token} (hopener : ¬t.closer?.isSome = true) (hparen : ¬t.isMark ')' = true)
    (hbracket : ¬t.isMark ']' = true) (hbrace : ¬t.isMark '\x7d' = true) : t.isBracket = false := by
  simp only [Token.isMark, beq_iff_eq] at hparen hbracket hbrace
  rw [Token.isBracket, Bool.eq_false_iff.mpr hopener, Token.closing?]
  split <;> simp_all

/-- The mark `c` comes next in both sources, or in none. -/
theorem takeMark_cases (c : Char) (zs : List (Twin T)) :
    (∃ z vs, zs = z :: vs ∧ z.left.isMark c = true ∧ ∃ h h', takeMark c (lefts zs) = ⟨true, lefts vs, h⟩ ∧
      takeMark c (rights zs) = ⟨true, rights vs, h'⟩) ∨
    takeMark c (lefts zs) = .keep false (lefts zs) ∧ takeMark c (rights zs) = .keep false (rights zs) := by
  cases zs with
  | nil => exact .inr ⟨rfl, rfl⟩
  | cons z zs =>
    by_cases hz : z.left.isMark c
    · refine .inl ⟨z, zs, rfl, hz, (Parsed.taken true z.left (lefts zs)).rest_lt,
        (Parsed.taken true z.right (rights zs)).rest_lt, ?_, ?_⟩ <;> simp [takeMark, hz, Parsed.taken]
    · exact .inr ⟨by simp [takeMark, hz], by simp [takeMark, hz]⟩

/-- The word comes next in both sources, or in none. -/
theorem takeWord_cases [Spelling T] (word : String) (hword : word ∈ askedWords) (zs : List (Twin T)) :
    (∃ z vs, zs = z :: vs ∧ z.left.isWord word = true ∧ ∃ h h', takeWord word (lefts zs) = ⟨true, lefts vs, h⟩ ∧
      takeWord word (rights zs) = ⟨true, rights vs, h'⟩) ∨
    takeWord word (lefts zs) = .keep false (lefts zs) ∧ takeWord word (rights zs) = .keep false (rights zs) := by
  cases zs with
  | nil => exact .inr ⟨rfl, rfl⟩
  | cons z zs =>
    by_cases hz : z.left.isWord word
    · refine .inl ⟨z, zs, rfl, hz, (Parsed.taken true z.left (lefts zs)).rest_lt,
        (Parsed.taken true z.right (rights zs)).rest_lt, ?_, ?_⟩ <;> simp [takeWord, z.isWord_right word hword, hz, Parsed.taken]
    · exact .inr ⟨by simp [takeWord, hz], by simp [takeWord, z.isWord_right word hword, hz]⟩

theorem takeMark_took (hc : c ∉ ['(', '[', '\x7b', ')', ']', '\x7d']) (zs : List (Twin T)) :
    Took Eq zs [] (takeMark c (lefts zs)) (takeMark c (rights zs)) := by
  obtain ⟨z, vs, hsplit, hz, _, _, hleft, hright⟩ | ⟨hleft, hright⟩ := takeMark_cases c zs
  all_goals rw [hleft, hright]
  · exact ⟨[z], vs, hsplit, .plain (isBracket_of_isMark hz hc) .nil, rfl⟩
  · exact ⟨[], zs, rfl, .nil, rfl⟩

theorem takeWord_took [Spelling T] (word : String) (hword : word ∈ askedWords) (zs : List (Twin T)) :
    Took Eq zs [] (takeWord word (lefts zs)) (takeWord word (rights zs)) := by
  obtain ⟨z, vs, hsplit, hz, _, _, hleft, hright⟩ | ⟨hleft, hright⟩ := takeWord_cases word hword zs
  all_goals rw [hleft, hright]
  · exact ⟨[z], vs, hsplit, .plain (isBracket_of_isWord hz) .nil, rfl⟩
  · exact ⟨[], zs, rfl, .nil, rfl⟩

/-! ## Groups -/

theorem closeGroup_alongside {opened : List (Twin T)} {cs : List Char} (hcs : opened.map (·.left.closer?) = cs.map some)
    (hopened : opened ⊆ Z) (hzs : zs ⊆ Z) :
    Together Z (fun ts ts' => ∃ ws vs, zs = ws ++ vs ∧ Closes true cs (lefts ws) ∧ ts = lefts vs ∧ ts' = rights vs)
      (closeGroup (lefts opened) (lefts zs)) (closeGroup (rights opened) (rights zs)) := by
  induction zs generalizing opened cs with
  | nil =>
    cases opened with
    | nil =>
      cases cs with
      | nil => exact .ok ⟨[], [], rfl, .nil, rfl, rfl⟩
      | cons => cases hcs
    | cons top up =>
      cases cs with
      | nil => cases hcs
      | cons c cs =>
        simp only [lefts_nil, rights_nil, lefts_cons, rights_cons, closeGroup, top.text_of_closer? (List.cons.inj hcs).1]
        exact .errorAt (hopened List.mem_cons_self)
  | cons z zs ih =>
    have hz : z ∈ Z := hzs (by simp)
    have hzs : zs ⊆ Z := fun w hw => hzs (by simp [hw])
    cases opened with
    | nil =>
      cases cs with
      | nil => exact .ok ⟨[], z :: zs, rfl, .nil, by simp, by simp⟩
      | cons => cases hcs
    | cons top up =>
      have hup : up ⊆ Z := fun w hw => hopened (by simp [hw])
      cases cs with
      | nil => cases hcs
      | cons c cs =>
        obtain ⟨htop, hups⟩ := List.cons.inj hcs
        simp only [lefts_cons, rights_cons, closeGroup, Twin.closer?_right, Twin.closing?_right]
        split
        next hopener =>
          obtain ⟨d, hd⟩ := Option.isSome_iff_exists.mp hopener
          have hclosers : (z :: top :: up).map (·.left.closer?) = (d :: c :: cs).map some := by simp [hd, htop, hups]
          refine (ih hclosers (List.cons_subset.mpr ⟨hz, hopened⟩) hzs).mono ?_
          rintro _ _ ⟨ws, vs, rfl, hcloses, rfl, rfl⟩
          exact ⟨z :: ws, vs, rfl, .opens hd hcloses, rfl, rfl⟩
        next hopener =>
          split
          next hplain =>
            refine (ih hcs hopened hzs).mono ?_
            rintro _ _ ⟨ws, vs, rfl, hcloses, rfl, rfl⟩
            refine ⟨z :: ws, vs, rfl, .plain ?_ hcloses, rfl, rfl⟩
            simpa [Token.isBracket, hplain] using hopener
          next d hd =>
            simp only [htop, Option.getD_some]
            split
            next heq =>
              subst heq
              refine (ih hups hup hzs).mono ?_
              rintro _ _ ⟨ws, vs, rfl, hcloses, rfl, rfl⟩
              exact ⟨z :: ws, vs, rfl, .closes hd hcloses, rfl, rfl⟩
            next => exact .errorAt hz

theorem skipGroup_alongside (hz : z.left.closer? = some c) (hmem : z ∈ Z) (hzs : zs ⊆ Z) :
    Alongside Z Eq zs [c] (skipGroup z.left (lefts zs)) (skipGroup z.right (rights zs)) := by
  have hclosers : [z].map (·.left.closer?) = [c].map some := by simp [hz]
  have hclose := closeGroup_alongside hclosers (by simpa using hmem) hzs
  simp only [lefts_cons, rights_cons, lefts_nil, rights_nil] at hclose
  rw [skipGroup, skipGroup]
  split
  next hl =>
    rw [hl] at hclose
    split
    next hr =>
      rw [hr] at hclose
      obtain ⟨ws, vs, hsplit, hcloses, rfl, rfl⟩ | _ := hclose
      exact .ok ⟨ws, vs, hsplit, hcloses, rfl⟩
    next hr => rw [hr] at hclose; cases hclose
  next hl =>
    rw [hl] at hclose
    split
    next hr => rw [hr] at hclose; cases hclose
    next hr =>
      rw [hr] at hclose
      obtain _ | ⟨cause, w, hw⟩ := hclose
      exact .error cause w hw

theorem exists_closer?_of_isMark {t : Token} (h : t.isMark c = true) (hc : c ∈ ['(', '[', '\x7b']) :
    ∃ d, t.closer? = some d := by
  simp only [List.mem_cons, List.not_mem_nil, or_false] at hc
  obtain rfl | rfl | rfl := hc <;> simp [Token.closer?, kind_of_isMark h]

/-- A group is skipped in both sources, and what comes after it is read on. -/
theorem Alongside.group {α : Type} {S : α → α → Prop} {m n : Nat} {cs : List Char}
    {f : Parsed Unit ((lefts zs).length + 1) → Except Fault (Parsed α m)}
    {g : Parsed Unit ((rights zs).length + 1) → Except Fault (Parsed α n)} (hmark : z.left.isMark c = true)
    (hc : c ∈ ['(', '[', '\x7b']) (hzs : z :: zs <:+ Z)
    (hfg : ∀ vs hm hn, vs <:+ Z → Alongside Z S vs cs (f ⟨(), lefts vs, hm⟩) (g ⟨(), rights vs, hn⟩)) :
    Alongside Z S (z :: zs) cs (skipGroup z.left (lefts zs) >>= f) (skipGroup z.right (rights zs) >>= g) := by
  obtain ⟨d, hcloser⟩ := exists_closer?_of_isMark hmark hc
  have hsuffix : zs <:+ Z := (List.suffix_cons z zs).trans hzs
  refine .opens hcloser ?_
  exact (skipGroup_alongside hcloser (hzs.subset (by simp)) hsuffix.subset).bind hsuffix fun vs _ _ hm hn hvs _ =>
    hfg vs hm hn hvs

theorem skipOne_alongside (hmem : z ∈ Z) (hzs : zs ⊆ Z) :
    Alongside Z Eq (z :: zs) [] (skipOne z.left (lefts zs)) (skipOne z.right (rights zs)) := by
  simp only [skipOne, Twin.closer?_right, Twin.isMark_right]
  split
  next hopener =>
    obtain ⟨d, hd⟩ := Option.isSome_iff_exists.mp hopener
    exact .opens hd (skipGroup_alongside hd hmem hzs)
  next hopener =>
    split
    next => exact .errorAt hmem
    next hparen =>
      split
      next => exact .errorAt hmem
      next hbracket =>
        by_cases hbrace : z.left.isMark '\x7d'
        · exact .surplus (by simp [Token.closing?, kind_of_isMark hbrace]) (.done rfl)
        · exact .plain (Token.not_isBracket hopener hparen hbracket hbrace) (.done rfl)

end Readers

end Counterpart.Kotlin
