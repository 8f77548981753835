/-
Members in front of a class. A member that is no class is skipped up to what starts a declaration, in steps, since a modifier may be
a name in it as well. At its end only the modifiers are left that stand there (`members_behind`), and the class behind them takes
them for its own: it is declared as it stands exactly when they do not change its kind (`SourceUnit.ofSource_behindMember`).
-/
import Counterpart.Proofs.JoinedSources
import Counterpart.Proofs.MovedClasses
import Counterpart.Proofs.NestedGroups
import Counterpart.Proofs.ReadingSources

namespace Counterpart.Kotlin

/-! ## Members -/

/-- The tokens outside all groups; `depth` groups are open. -/
def outside : (depth : Nat) → List Token → List Token
  | _, [] => []
  | depth, t :: ts =>
    if t.closer?.isSome then outside (depth + 1) ts
    else if t.closing?.isSome then outside (depth - 1) ts
    else if depth = 0 then t :: outside 0 ts
    else outside depth ts

/-- Whether a token outside brackets would end the member that it stands in. -/
def Token.endsMember (t : Token) : Bool :=
  t.isMark '@' || t.isMark ';' || t.isMark '\x7d' || t.isName && declarationWords.contains t.text

/-- A function or a property: behind its keyword and its name there is nothing outside brackets that would end it. -/
structure IsMember (ts : List Token) : Prop where
  head : ∃ keyword name rest, ts = keyword :: name :: rest ∧ keyword.isName = true ∧ keyword.text ∈ ["fun", "val", "var"] ∧
    name.isName = true
  nested : Nested ts
  plain : ∀ t ∈ outside 0 ts.tail, t.endsMember = false
  last : ∀ t ∈ ts.getLast?, t.isMark ':' = false

/-- Whether the token is a name that is a modifier before other names. -/
def Token.isModifierWord (t : Token) : Bool := t.isName && modifierWords.contains t.text

/-- The modifiers that tokens end with. -/
def trailingModifiers : List Token → List Token
  | [] => []
  | t :: ts => if (t :: ts).all Token.isModifierWord then t :: ts else trailingModifiers ts

/-- Modifiers and the keyword of a class. -/
structure ClassStart (words : List Token) (keyword : Token) : Prop where
  words : ∀ t ∈ words, t.isModifierWord = true
  keyword : keyword.isWord "class" = true

variable {words ts us rest : List Token} {keyword name t : Token}

/-! ## The start of a class -/

theorem isName_of_isModifierWord (h : t.isModifierWord = true) : t.isName = true := (Bool.and_eq_true_iff.mp h).1

theorem isName_of_isWord {word : String} (h : t.isWord word = true) : t.isName = true := (Bool.and_eq_true_iff.mp h).1

theorem text_of_isWord {word : String} (h : t.isWord word = true) : t.text = word := by
  simpa using (Bool.and_eq_true_iff.mp h).2

theorem startsDeclaration_of_isModifier (h : isModifier t ts = true) (afterColon : Bool) :
    startsDeclaration afterColon t ts = true := by
  have hword : t.isModifierWord = true := (Bool.and_eq_true_iff.mp h).1
  have hclass : t.text ≠ "class" := by
    intro htext
    simp [Token.isModifierWord, htext, modifierWords] at hword
  simp [startsDeclaration, isName_of_isModifierWord hword, hclass, h]

namespace ClassStart

theorem cons_of_trailing (h : ClassStart words keyword) (hts : ts.all Token.isModifierWord = true) :
    ClassStart (ts ++ words) keyword where
  words t ht := by
    rcases List.mem_append.mp ht with ht | ht
    · exact List.all_eq_true.mp hts t ht
    · exact h.words t ht
  keyword := h.keyword

theorem head_isName (h : ClassStart words keyword) (rest : List Token) :
    ∀ t ∈ (words ++ keyword :: rest).head?, t.isName = true := by
  cases words with
  | nil =>
    rintro _ ⟨⟩
    exact isName_of_isWord h.keyword
  | cons t words =>
    rintro _ ⟨⟩
    exact isName_of_isModifierWord (h.words t List.mem_cons_self)

theorem isModifier_cons (h : ClassStart (t :: words) keyword) (rest : List Token) :
    isModifier t (words ++ keyword :: rest) = true := by
  have ht := h.words t List.mem_cons_self
  have hnext := head_isName ⟨fun u hu => h.words u (List.mem_cons_of_mem t hu), h.keyword⟩ rest
  rw [Token.isModifierWord] at ht
  rw [isModifier, ht, Bool.true_and]
  cases words with
  | nil => simp [hnext keyword rfl]
  | cons u words => simp [hnext u rfl]

theorem reading_modifiers (h : ClassStart words keyword) (rest : List Token) :
    reading (modifiers (words ++ keyword :: rest)) = .ok (words.map Token.text, keyword :: rest) := by
  induction words with
  | nil =>
    have hname := isName_of_isWord h.keyword
    have htext := text_of_isWord h.keyword
    have hmodifier : isModifier keyword rest = false := by simp [isModifier, htext, modifierWords]
    have hfun : keyword.isWord "fun" = false := by simp [Token.isWord, htext]
    rw [List.nil_append, modifiers, if_neg (by simp [isMark_of_isName hname]), if_neg (by simp [hmodifier]),
      if_neg (by simp [hfun])]
    rfl
  | cons t words ih =>
    have hname := isName_of_isModifierWord (h.words t List.mem_cons_self)
    obtain ⟨_, hmore⟩ := reading_ok_iff.mp (ih ⟨fun u hu => h.words u (List.mem_cons_of_mem t hu), h.keyword⟩)
    rw [List.cons_append, modifiers, if_neg (by simp [isMark_of_isName hname]), if_pos (h.isModifier_cons rest), hmore]
    rfl

/-- The kind that the modifiers and the keyword declare. -/
theorem exists_kind (h : ClassStart words keyword) : ∃ kind, ClassKind.ofKeyword? (words.map Token.text) keyword = some kind ∧
    kind ≠ .object := by
  rw [ClassKind.ofKeyword?, if_pos h.keyword]
  repeat' split
  all_goals exact ⟨_, rfl, by decide⟩

theorem startsDeclaration_cons (h : ClassStart (t :: words) keyword) (afterColon : Bool) (rest : List Token) :
    startsDeclaration afterColon t (words ++ keyword :: rest) = true :=
  startsDeclaration_of_isModifier (h.isModifier_cons rest) afterColon

theorem startsDeclaration_keyword (h : ClassStart words keyword) (rest : List Token) :
    startsDeclaration false keyword rest = true := by
  simp [startsDeclaration, isName_of_isWord h.keyword, text_of_isWord h.keyword, declarationWords]

end ClassStart

/-! ## Behind the keyword of a member -/

/-- The tokens of a member behind its keyword, group by group. -/
inductive MemberTokens : List Token → Prop
  | nil : MemberTokens []
  | plain {t : Token} {ts : List Token} (ht : t.isBracket = false) (hends : t.endsMember = false) (h : MemberTokens ts) :
    MemberTokens (t :: ts)
  | group {opener closer : Token} {c : Char} {body ts : List Token} (hopener : opener.closer? = some c) (hbody : Nested body)
    (hcloser : closer.closing? = some c) (h : MemberTokens ts) : MemberTokens (opener :: (body ++ closer :: ts))

theorem outside_nested {body : List Token} (h : Nested body) (depth : Nat) (ts : List Token) :
    outside (depth + 1) (body ++ ts) = outside (depth + 1) ts := by
  induction h generalizing depth ts with
  | nil => rfl
  | plain ht _ ih =>
    obtain ⟨hcloser, hclosing⟩ := Token.not_isBracket_iff.mp ht
    rw [List.cons_append, outside, if_neg (by simp [hcloser]), if_neg (by simp [hclosing]), if_neg (Nat.succ_ne_zero depth)]
    exact ih depth ts
  | group hopener _ hcloser _ ihbody ih =>
    rw [List.cons_append, outside, if_pos (by simp [hopener]), List.append_assoc, ihbody, List.cons_append, outside,
      if_neg (by simp [closer?_of_closing? hcloser]), if_pos (by simp [hcloser])]
    exact ih depth ts

theorem memberTokens_of_nested (h : Nested ts) (hplain : ∀ t ∈ outside 0 ts, t.endsMember = false) : MemberTokens ts := by
  induction h with
  | nil => exact .nil
  | plain ht _ ih =>
    obtain ⟨hcloser, hclosing⟩ := Token.not_isBracket_iff.mp ht
    rw [outside, if_neg (by simp [hcloser]), if_neg (by simp [hclosing]), if_pos rfl, List.forall_mem_cons] at hplain
    exact .plain ht hplain.1 (ih hplain.2)
  | group hopener hbody hcloser _ _ ih =>
    rw [outside, if_pos (by simp [hopener]), outside_nested hbody, outside, if_neg (by simp [closer?_of_closing? hcloser]),
      if_pos (by simp [hcloser])] at hplain
    exact .group hopener hbody hcloser (ih hplain)

theorem ofKeyword?_eq_none (h : t.isName = true → t.text ∉ declarationWords) (words : List String) :
    ClassKind.ofKeyword? words t = none := by
  have hword {word : String} (hmem : word ∈ declarationWords) : ¬t.isWord word = true := by
    intro ht
    have htext := text_of_isWord ht
    exact h (isName_of_isWord ht) (htext ▸ hmem)
  rw [ClassKind.ofKeyword?, if_neg (hword (by decide)), if_neg (hword (by decide)), if_neg (hword (by decide))]

/-- Where modifiers of a member are looked for, none of a class are found, unless it ends with them. -/
theorem modifiers_member (hts : MemberTokens ts) (hall : ts.all Token.isModifierWord = false) (behind : List Token) :
    ∃ names t us, reading (modifiers (ts ++ behind)) = .ok (names, t :: us) ∧ (t.isName = true → t.text ∉ declarationWords) := by
  induction hts with
  | nil => cases hall
  | @plain t ts ht hends _ ih =>
    simp only [Token.endsMember, Bool.or_eq_false_iff, Bool.and_eq_false_imp, List.contains_eq_mem, decide_eq_false_iff_not] at hends
    obtain ⟨⟨⟨hat, -⟩, -⟩, hword⟩ := hends
    have hfun : t.isWord "fun" = false := by
      rw [← Bool.not_eq_true]
      intro hfun
      exact hword (isName_of_isWord hfun) (by rw [text_of_isWord hfun]; decide)
    by_cases hmodifier : isModifier t (ts ++ behind) = true
    · have ht : t.isModifierWord = true := by
        rw [isModifier, Bool.and_eq_true] at hmodifier
        exact hmodifier.1
      obtain ⟨names, u, us, hmore, hu⟩ := ih (by simpa [ht] using hall)
      obtain ⟨_, hmore⟩ := reading_ok_iff.mp hmore
      refine ⟨t.text :: names, u, us, ?_, hu⟩
      rw [List.cons_append, modifiers, if_neg (by simp [hat]), if_pos hmodifier, hmore]
      rfl
    · refine ⟨[], t, ts ++ behind, ?_, hword⟩
      rw [List.cons_append, modifiers, if_neg (by simp [hat]), if_neg hmodifier, if_neg (by simp [hfun])]
      rfl
  | @group opener closer c body ts hopener hbody hcloser _ _ =>
    have hname := not_isName_of_closer? hopener
    refine ⟨[], opener, body ++ closer :: ts ++ behind, ?_, fun h => ?_⟩
    · rw [List.cons_append, modifiers, if_neg (by simp [isMark_of_closer? hopener]), if_neg (by simp [isModifier, hname]),
        if_neg (by simp [Token.isWord, hname])]
      rfl
    · rw [hname] at h
      cases h

/-! ## The run over a member -/

theorem reading_skipToDeclaration_keep {stopAtBrace afterColon : Bool} (h : startsDeclaration afterColon t ts = true) :
    reading (skipToDeclaration stopAtBrace afterColon (t :: ts)) = .ok ((), t :: ts) := by
  rw [skipToDeclaration, h, Bool.or_true, if_pos rfl]
  rfl

theorem reading_skipToDeclaration_cons {afterColon : Bool} (hends : t.endsMember = false) (hmodifier : isModifier t ts = false)
    (hone : reading (skipOne t ts) = .ok ((), us)) :
    reading (skipToDeclaration false afterColon (t :: ts)) = reading (skipToDeclaration false (t.isMark ':') us) := by
  simp only [Token.endsMember, Bool.or_eq_false_iff] at hends
  obtain ⟨⟨⟨hat, hsemicolon⟩, hbrace⟩, hword⟩ := hends
  have hstarts : startsDeclaration afterColon t ts = false := by
    rw [startsDeclaration, hmodifier, Bool.or_false, Bool.and_right_comm, hword, Bool.false_and]
  obtain ⟨_, hone⟩ := reading_ok_iff.mp hone
  rw [skipToDeclaration, hat, hsemicolon, hbrace, hstarts, if_neg (by simp), hone]
  simp only [bind, Except.bind]
  cases skipToDeclaration false (t.isMark ':') us <;> rfl

/-- A member that is no class is skipped. -/
theorem reading_members_skip {names : List String} {u : Token} {vs ws : List Token} (hbrace : t.isMark '\x7d' = false)
    (hsemicolon : t.isMark ';' = false) (hwords : reading (modifiers (t :: ts)) = .ok (names, u :: vs))
    (hkind : ClassKind.ofKeyword? names u = none) (hone : reading (skipOne t ts) = .ok ((), us))
    (hmore : reading (skipToDeclaration false (t.isMark ':') us) = .ok ((), ws)) :
    reading (members (t :: ts)) = reading (members ws) := by
  obtain ⟨_, hwords⟩ := reading_ok_iff.mp hwords
  obtain ⟨_, hone⟩ := reading_ok_iff.mp hone
  obtain ⟨_, hmore⟩ := reading_ok_iff.mp hmore
  have hnone : classTree (t :: ts) = .ok none := by
    rw [classTree, hwords]
    simp only [bind, Except.bind, hkind]
    rfl
  rw [members, if_neg (by simp [hbrace]), if_neg (by simp [hsemicolon]), hnone]
  simp only [bind, Except.bind, skipMember, hone, hmore, pure, Except.pure, Parsed.widen]
  cases members ws <;> rfl

theorem trailingModifiers_of_all (h : ts.all Token.isModifierWord = true) : trailingModifiers ts = ts := by
  cases ts with
  | nil => rfl
  | cons t ts => rw [trailingModifiers, if_pos h]

theorem trailingModifiers_cons (h : (t :: ts).all Token.isModifierWord = false) :
    trailingModifiers (t :: ts) = trailingModifiers ts := by
  rw [trailingModifiers, if_neg (by simp [h])]

theorem trailingModifiers_append (ht : t.isModifierWord = false) (us : List Token) :
    trailingModifiers (us ++ t :: ts) = trailingModifiers ts := by
  induction us with
  | nil => exact trailingModifiers_cons (by simp [ht])
  | cons u us ih => rw [List.cons_append, trailingModifiers_cons (by simp [ht]), ih]

/-- A name in a member that looks like a modifier: the member is skipped on from there as if it were another one. -/
theorem reading_members_modifier {behind ws : List Token} (hts : MemberTokens (t :: ts))
    (hall : (t :: ts).all Token.isModifierWord = false) (hmodifier : isModifier t (ts ++ behind) = true)
    (hone : reading (skipOne t (ts ++ behind)) = .ok ((), us))
    (hmore : reading (skipToDeclaration false (t.isMark ':') us) = .ok ((), ws)) :
    reading (members (t :: (ts ++ behind))) = reading (members ws) := by
  have hmarks := isMark_of_isName (isName_of_isModifierWord (Bool.and_eq_true_iff.mp hmodifier).1)
  obtain ⟨names, u, vs, hwords, hu⟩ := modifiers_member hts hall behind
  exact reading_members_skip (hmarks _) (hmarks _) hwords (ofKeyword?_eq_none hu names) hone hmore

/-- Behind the keyword of a member everything is skipped but the modifiers at its end. -/
theorem members_behind (hts : MemberTokens ts) (hstart : ClassStart words keyword) (rest : List Token) {afterColon : Bool}
    (hcolon : ts = [] → afterColon = false) (hlast : ∀ t ∈ ts.getLast?, t.isMark ':' = false) :
    ∃ us, reading (skipToDeclaration false afterColon (ts ++ (words ++ keyword :: rest))) = .ok ((), us) ∧
      reading (members us) = reading (members (trailingModifiers ts ++ (words ++ keyword :: rest))) := by
  induction hts generalizing afterColon with
  | nil =>
    refine ⟨words ++ keyword :: rest, ?_, rfl⟩
    rw [hcolon rfl, List.nil_append]
    cases words with
    | nil => exact reading_skipToDeclaration_keep (hstart.startsDeclaration_keyword rest)
    | cons t words => exact reading_skipToDeclaration_keep (hstart.startsDeclaration_cons _ rest)
  | @plain t ts ht hends hts ih =>
    have hlast' : ∀ u ∈ ts.getLast?, u.isMark ':' = false := by
      intro u hu
      refine hlast u ?_
      rw [List.getLast?_cons, Option.mem_def.mp hu]
      rfl
    have hcolon' : ts = [] → t.isMark ':' = false := by
      rintro rfl
      exact hlast t rfl
    have hone := reading_skipOne_plain ht
    obtain ⟨us, hskip, hread⟩ := ih hcolon' hlast'
    by_cases hall : (t :: ts).all Token.isModifierWord = true
    · -- from here on there are only modifiers, up to the class
      have hmore : ClassStart (t :: (ts ++ words)) keyword := hstart.cons_of_trailing hall
      have hstop := hmore.startsDeclaration_cons afterColon rest
      rw [List.append_assoc] at hstop
      exact ⟨_, reading_skipToDeclaration_keep hstop, by rw [trailingModifiers_of_all hall]; rfl⟩
    · rw [Bool.not_eq_true] at hall
      rw [trailingModifiers_cons hall, List.cons_append]
      by_cases hmodifier : isModifier t (ts ++ (words ++ keyword :: rest)) = true
      · have hstarts := startsDeclaration_of_isModifier hmodifier afterColon
        exact ⟨_, reading_skipToDeclaration_keep hstarts,
          (reading_members_modifier (.plain ht hends hts) hall hmodifier (hone _) hskip).trans hread⟩
      · exact ⟨us, by rw [reading_skipToDeclaration_cons hends (by simpa using hmodifier) (hone _), hskip], hread⟩
  | @group opener closer c body ts hopener hbody hcloser hts ih =>
    have hname := not_isName_of_closer? hopener
    have hends : opener.endsMember = false := by
      simp [Token.endsMember, isMark_of_closer? hopener, hname]
    have hlast' : ∀ u ∈ ts.getLast?, u.isMark ':' = false := by
      intro u hu
      refine hlast u ?_
      rw [← List.cons_append, List.getLast?_append, List.getLast?_cons, Option.mem_def.mp hu]
      rfl
    have hclosing : closer.isModifierWord = false := by
      rw [Token.isModifierWord, Token.isName, Token.kind_of_closing? hcloser]
      rfl
    have hone := reading_skipOne_nested hopener hbody hcloser (ts ++ (words ++ keyword :: rest))
    obtain ⟨us, hskip, hread⟩ := ih (fun _ => isMark_of_closer? hopener (show ':' ∉ _ by decide)) hlast'
    rw [← List.cons_append, trailingModifiers_append hclosing, List.append_assoc, List.cons_append, List.cons_append]
    refine ⟨us, ?_, hread⟩
    rw [reading_skipToDeclaration_cons hends (by simp [isModifier, hname]) hone, hskip]

theorem Nested.of_cons (h : Nested (t :: ts)) (ht : t.closer? = none) : Nested ts := by
  cases h with
  | plain _ h => exact h
  | group hopener _ _ _ =>
    rw [ht] at hopener
    cases hopener

section Keyword

variable {member : Token} (htext : member.text ∈ ["fun", "val", "var"])
include htext

theorem isModifierWord_member : member.isModifierWord = false := by
  simp only [List.mem_cons, List.not_mem_nil, or_false] at htext
  obtain htext | htext | htext := htext <;> simp [Token.isModifierWord, htext, modifierWords]

theorem ofKeyword?_member (words : List String) : ClassKind.ofKeyword? words member = none := by
  simp only [List.mem_cons, List.not_mem_nil, or_false] at htext
  obtain htext | htext | htext := htext <;> simp [ClassKind.ofKeyword?, Token.isWord, htext]

/-- The keyword of a member is no modifier, unless it is the one of a functional interface. -/
theorem reading_modifiers_member (hname : member.isName = true) (hinterface : name.isWord "interface" = false) :
    reading (modifiers (member :: name :: ts)) = .ok ([], member :: name :: ts) := by
  have hmodifier : isModifier member (name :: ts) = false := by
    have hword := isModifierWord_member htext
    rw [Token.isModifierWord] at hword
    rw [isModifier, hword, Bool.false_and]
  rw [modifiers, if_neg (by simp [isMark_of_isName hname]), if_neg (by simp [hmodifier]), if_neg (by simp [hinterface])]
  rfl

end Keyword

/-- A member in front of a class leaves the modifiers it ends with. -/
theorem IsMember.reading_members (h : IsMember ts) (hstart : ClassStart words keyword) (rest : List Token) :
    reading (members (ts ++ (words ++ keyword :: rest))) =
      reading (members (trailingModifiers ts ++ (words ++ keyword :: rest))) := by
  obtain ⟨⟨member, name, more, rfl, hname, htext, hname'⟩, hnested, hplain, hlast⟩ := h
  have hmarks := isMark_of_isName hname
  have hbracket : member.isBracket = false := isBracket_of_isName hname
  have hts : MemberTokens (name :: more) :=
    memberTokens_of_nested (hnested.of_cons (Token.not_isBracket_iff.mp hbracket).1) hplain
  -- the name is none of a declaration, so the keyword `fun` does not start an interface
  have hends : name.endsMember = false := by
    obtain ⟨hcloser, hclosing⟩ := Token.not_isBracket_iff.mp (isBracket_of_isName hname')
    refine hplain name ?_
    simp [outside, hcloser, hclosing]
  have hinterface : name.isWord "interface" = false := by
    rw [← Bool.not_eq_true]
    intro h
    simp [Token.endsMember, hname', text_of_isWord h, declarationWords] at hends
  have hlast' : ∀ t ∈ (name :: more).getLast?, t.isMark ':' = false := by
    intro t ht
    refine hlast t ?_
    rw [List.getLast?_cons, Option.mem_def.mp ht]
    rfl
  have hcolon : name :: more = [] → member.isMark ':' = false := by simp
  obtain ⟨us, hskip, hread⟩ := members_behind hts hstart rest hcolon hlast'
  rw [trailingModifiers_cons (by simp [isModifierWord_member htext]), ← hread]
  exact reading_members_skip (hmarks _) (hmarks _) (reading_modifiers_member htext hname hinterface) (ofKeyword?_member htext _)
    (reading_skipOne_plain hbracket _) hskip

/-! ## The class behind it -/

theorem className_ne_none {kind : ClassKind} (hkind : kind ≠ .object) (ts : List Token) : className kind keyword ts ≠ .ok none := by
  intro h
  cases ts with
  | nil =>
    rw [className, if_neg hkind] at h
    cases h
  | cons t ts =>
    rw [className] at h
    split at h
    next => cases h
    next => cases h

theorem classAfter_ok {kind : ClassKind} (hkind : kind ≠ .object) {o} (h : classAfter kind keyword ts = .ok o) :
    ∃ p, o = some p ∧ p.value.kind = kind := by
  rw [classAfter] at h
  obtain ⟨name?, hname, h⟩ := exists_of_bind_ok h
  cases name? with
  | none => exact absurd hname (className_ne_none hkind ts)
  | some name =>
    obtain ⟨_, -, h⟩ := exists_of_bind_ok h
    obtain ⟨_, -, h⟩ := exists_of_bind_ok h
    obtain ⟨_, -, h⟩ := exists_of_bind_ok h
    obtain ⟨_, -, h⟩ := exists_of_bind_ok h
    cases h
    exact ⟨_, rfl, rfl⟩

/-- Members that start with a class: what its keyword and its modifiers declare, and the members behind it. -/
theorem ClassStart.reading_members_iff (h : ClassStart words keyword) {kind : ClassKind}
    (hkind : ClassKind.ofKeyword? (words.map Token.text) keyword = some kind) {cs : List ClassTree} :
    reading (members (words ++ keyword :: rest)) = .ok (cs, us) ↔
      ∃ c vs hlt cs', classAfter kind keyword rest = .ok (some ⟨c, vs, hlt⟩) ∧ reading (members vs) = .ok (cs', us) ∧
        cs = c :: cs' := by
  have hwords := h.reading_modifiers rest
  have hname := h.head_isName rest
  obtain ⟨t, ts, heq⟩ : ∃ t ts, words ++ keyword :: rest = t :: ts := List.exists_cons_of_ne_nil (by simp)
  rw [heq] at hwords hname ⊢
  have hmarks := isMark_of_isName (hname t rfl)
  obtain ⟨_, hwords⟩ := reading_ok_iff.mp hwords
  rw [members, if_neg (by simp [hmarks]), if_neg (by simp [hmarks]), classTree_of_modifiers hwords hkind]
  cases hafter : classAfter kind keyword rest with
  | error e =>
    constructor
    · intro h
      cases h
    · rintro ⟨_, _, _, _, h, -⟩
      cases h
  | ok o =>
    have hobject : kind ≠ .object := by
      obtain ⟨_, hkind', hobject⟩ := h.exists_kind
      cases hkind.symm.trans hkind'
      exact hobject
    obtain ⟨⟨c, vs, hlt⟩, rfl, -⟩ := classAfter_ok hobject hafter
    cases hmembers : members vs with
    | error e =>
      simp [reading, bind, Except.bind, Functor.map, Except.map, Parsed.widen, hmembers]
    | ok q =>
      obtain ⟨cs', ws, _⟩ := q
      simp only [reading, bind, Except.bind, Functor.map, Except.map, Option.map_some, Parsed.widen, hmembers, pure,
        Except.pure]
      constructor
      · rintro ⟨⟩
        exact ⟨c, vs, hlt, cs', rfl, by rw [hmembers], rfl⟩
      · rintro ⟨_, _, _, _, ⟨⟩, hmore, rfl⟩
        rw [hmembers] at hmore
        cases hmore
        rfl

theorem ClassStart.ofKeyword? (h : ClassStart words keyword) {keyword' : Token} (hkeyword : keyword'.isWord "class" = true)
    (names : List String) : ClassKind.ofKeyword? names keyword' = ClassKind.ofKeyword? names keyword := by
  rw [ClassKind.ofKeyword?, if_pos hkeyword, ClassKind.ofKeyword?, if_pos h.keyword]

theorem all_trailingModifiers (ts : List Token) : (trailingModifiers ts).all Token.isModifierWord = true := by
  induction ts with
  | nil => rfl
  | cons t ts ih =>
    rw [trailingModifiers]
    split
    next hall => exact hall
    next => exact ih

namespace SourceUnit

/-- Tokens that begin with a name, of neither directive, are members only. -/
theorem ofTokens_iff {u : SourceUnit} (ht : t.isName = true) (htext : t.text ∉ ["package", "import"]) :
    ofTokens (t :: ts) = .ok u ↔ u.package = "" ∧ u.imports = [] ∧ reading (members (t :: ts)) = .ok (u.classes, []) := by
  simp only [List.mem_cons, List.not_mem_nil, or_false, not_or] at htext
  have hskip : skipAnnotations (t :: ts) = .ok (.keep () (t :: ts)) := by
    rw [skipAnnotations, if_neg (by simp [isMark_of_isName ht])]
  have hword {word : String} (hne : t.text ≠ word) : takeWord word (t :: ts) = .keep false (t :: ts) := by
    rw [takeWord, if_neg (by simp [Token.isWord, hne])]
  have hpackage := packageDirective_none (hword htext.1)
  have himports := importDirectives_end (hword htext.2)
  obtain ⟨package, imports, classes⟩ := u
  constructor
  · intro h
    obtain ⟨_, hskip', h⟩ := exists_of_bind_ok h
    cases hskip.symm.trans hskip'
    obtain ⟨_, hpackage', h⟩ := exists_of_bind_ok h
    cases hpackage.symm.trans hpackage'
    obtain ⟨_, himports', h⟩ := exists_of_bind_ok h
    cases himports.symm.trans himports'
    obtain ⟨⟨_, us, hlt⟩, hmembers, h⟩ := exists_of_bind_ok h
    cases us with
    | nil =>
      cases h
      exact ⟨rfl, rfl, reading_ok_iff.mpr ⟨hlt, hmembers⟩⟩
    | cons => cases h
  · rintro ⟨rfl, rfl, hmembers⟩
    obtain ⟨_, hmembers⟩ := reading_ok_iff.mp hmembers
    exact ofTokens_ok hskip hpackage himports hmembers rfl

theorem ofTokens_classStart {u : SourceUnit} (h : ClassStart words keyword) : ofTokens (words ++ keyword :: rest) = .ok u ↔
    u.package = "" ∧ u.imports = [] ∧ reading (members (words ++ keyword :: rest)) = .ok (u.classes, []) := by
  cases words with
  | nil => exact ofTokens_iff (isName_of_isWord h.keyword) (by simp [text_of_isWord h.keyword])
  | cons t words =>
    have ht := h.words t List.mem_cons_self
    refine ofTokens_iff (isName_of_isModifierWord ht) fun htext => ?_
    simp only [List.mem_cons, List.not_mem_nil, or_false] at htext
    obtain htext | htext := htext <;> simp [Token.isModifierWord, htext, modifierWords] at ht

theorem ofTokens_member {u : SourceUnit} (h : IsMember ts) : ofTokens (ts ++ us) = .ok u ↔
    u.package = "" ∧ u.imports = [] ∧ reading (members (ts ++ us)) = .ok (u.classes, []) := by
  obtain ⟨member, name, more, rfl, hname, htext, -⟩ := h.head
  refine ofTokens_iff hname fun hword => ?_
  simp only [List.mem_cons, List.not_mem_nil, or_false] at htext hword
  obtain hword | hword := hword <;> simp [hword] at htext

/-- The same class behind a member, of the kind that its own modifiers and those at the end of the member declare. -/
theorem ofTokens_behindMember {bytes : Nat} {member words' : List Token} {keyword' : Token} {u : SourceUnit}
    (hm : IsMember member) (h : ClassStart words keyword) (h' : ClassStart words' keyword')
    (hwords : words'.map Token.text = words.map Token.text) (hu : ofTokens (words ++ keyword :: rest) = .ok u) :
    if ClassKind.ofKeyword? ((trailingModifiers member ++ words).map Token.text) keyword =
        ClassKind.ofKeyword? (words.map Token.text) keyword then
      ofTokens (member ++ (words' ++ keyword' :: placed bytes [] rest)) =
        .ok { u with classes := ClassTree.movedAll bytes u.classes }
    else ∀ u', ofTokens (member ++ (words' ++ keyword' :: placed bytes [] rest)) = .ok u' →
      u'.classes.map ClassTree.kind ≠ u.classes.map ClassTree.kind := by
  obtain ⟨hpackage, himports, hread⟩ := (ofTokens_classStart h).mp hu
  obtain ⟨kind, hkind, hobject⟩ := h.exists_kind
  obtain ⟨c, vs, hlt, cs, hclass, hmore, hclasses⟩ := (h.reading_members_iff hkind).mp hread
  have htrailing := h'.cons_of_trailing (all_trailingModifiers member)
  obtain ⟨kind', hkind', hobject'⟩ := htrailing.exists_kind
  have hmembers := hm.reading_members h' (placed bytes [] rest)
  rw [← List.append_assoc (trailingModifiers member)] at hmembers
  have hkinds : ClassKind.ofKeyword? ((trailingModifiers member ++ words).map Token.text) keyword = some kind' := by
    rw [List.map_append, ← hwords, ← List.map_append, h'.ofKeyword? h.keyword, hkind']
  rw [hkinds, hkind]
  split
  next heq =>
    cases heq
    obtain ⟨hlt', hclass'⟩ := (classAfter_placed (k := bytes) kind keyword keyword' rest).some hclass
    have hmore' := (members_placed (k := bytes) vs).reading hmore
    refine (ofTokens_member hm).mpr ⟨hpackage, himports, ?_⟩
    rw [hmembers]
    exact (htrailing.reading_members_iff hkind').mpr ⟨_, _, hlt', _, hclass', hmore', by rw [hclasses, ClassTree.movedAll]⟩
  next hne =>
    intro u' hu'
    obtain ⟨-, -, hread'⟩ := (ofTokens_member hm).mp hu'
    rw [hmembers] at hread'
    obtain ⟨c', vs', hlt', cs', hclass', hmore', hclasses'⟩ := (htrailing.reading_members_iff hkind').mp hread'
    obtain ⟨_, ⟨⟩, hc⟩ := classAfter_ok hobject hclass
    obtain ⟨_, ⟨⟩, hc'⟩ := classAfter_ok hobject' hclass'
    rw [hclasses, hclasses', List.map_cons, List.map_cons, hc, hc']
    intro heq
    exact hne (congrArg some (List.cons.inj heq).1)

theorem exists_joined (h : ClassStart words keyword) (hts : words ++ keyword :: rest = t :: ts) (bytes : Nat) (tail : String) :
    ∃ words' keyword', t.joined bytes tail :: ts.map (Token.moved bytes) = words' ++ keyword' :: placed bytes [] rest ∧
      ClassStart words' keyword' ∧ words'.map Token.text = words.map Token.text := by
  have hplaced : placed bytes [] rest = rest.map (Token.moved bytes) := List.append_nil _
  rw [hplaced]
  have hword (u : Token) (word : String) : (u.joined bytes tail).isWord word = u.isWord word := u.isWord_moved bytes word
  have hmodifier (u : Token) : (u.moved bytes).isModifierWord = u.isModifierWord := by simp [Token.isModifierWord]
  cases words with
  | nil =>
    cases hts
    exact ⟨[], _, rfl, ⟨by simp, by rw [hword, h.keyword]⟩, rfl⟩
  | cons u words =>
    cases hts
    refine ⟨t.joined bytes tail :: words.map (Token.moved bytes), keyword.moved bytes, by simp, ⟨?_, ?_⟩, ?_⟩
    · rw [List.forall_mem_cons, List.forall_mem_map]
      exact ⟨(hmodifier t).trans (h.words t List.mem_cons_self),
        fun u hu => (hmodifier u).trans (h.words u (List.mem_cons_of_mem t hu))⟩
    · rw [Token.isWord_moved, h.keyword]
    · rw [List.map_cons, List.map_map]
      rfl

/-- **A member in front of a class** changes nothing of what the source declares but the offsets, when the modifiers that the member
ends with leave the class its kind; otherwise the class gets another kind. -/
theorem ofSource_behindMember {member source : String} {m s : TokenStream} {u : SourceUnit}
    (hmember : TokenStream.ofSource member = .ok m) (hm : IsMember m.tokens) (hshell : ¬['#', '!'] <+: member.toList)
    (hsource : TokenStream.ofSource source = .ok s) (hwords : s.tokens = words ++ keyword :: rest) (h : ClassStart words keyword)
    (hshell' : ¬['#', '!'] <+: source.toList) (hu : ofSource source = .ok u) :
    if ClassKind.ofKeyword? ((trailingModifiers m.tokens ++ words).map Token.text) keyword =
        ClassKind.ofKeyword? (words.map Token.text) keyword then
      ofSource (member ++ "\n" ++ source) = .ok { u with classes := ClassTree.movedAll (member.utf8ByteSize + 1) u.classes }
    else ∀ u', ofSource (member ++ "\n" ++ source) = .ok u' →
      u'.classes.map ClassTree.kind ≠ u.classes.map ClassTree.kind := by
  obtain ⟨t, ts, hts⟩ : ∃ t ts, words ++ keyword :: rest = t :: ts := List.exists_cons_of_ne_nil (by simp)
  obtain ⟨joined, hjoined, htokens⟩ := ofSource_joined hmember hsource (hwords.trans hts) hshell hshell'
  obtain ⟨words', keyword', hplaced, h', htexts⟩ := exists_joined h hts (member.utf8ByteSize + 1) m.tail
  have hread {source : String} {s : TokenStream} (hs : TokenStream.ofSource source = .ok s) {u : SourceUnit} :
      ofSource source = .ok u ↔ ofTokens s.tokens = .ok u := by
    rw [ofSource, hs]
    simp only [bind, Except.bind]
    cases ofTokens s.tokens <;> simp [Except.mapError]
  rw [hread hjoined, htokens, hplaced]
  simp only [hread hjoined, htokens, hplaced]
  exact ofTokens_behindMember hm h h' htexts (by rwa [← hwords, ← hread hsource])

/-- A property whose value is a name that is a modifier elsewhere. -/
def dataProperty : String := "val x = data"

theorem ofSource_dataProperty : ∃ m, TokenStream.ofSource dataProperty = .ok m ∧ IsMember m.tokens ∧
    (trailingModifiers m.tokens).map Token.text = ["data"] ∧ ¬['#', '!'] <+: dataProperty.toList := by
  have hm : (TokenStream.ofSource dataProperty).toOption = some ⟨[⟨.name, "val", "", 0⟩, ⟨.name, "x", " ", 4⟩,
      ⟨.mark '=', "=", " ", 6⟩, ⟨.name, "data", " ", 8⟩], "", 12⟩ := by decide +kernel
  refine ⟨_, ok_of_toOption hm, ⟨⟨_, _, _, rfl, rfl, by decide, rfl⟩, ?_, ?_, ?_⟩, ?_, by decide⟩
  · exact .plain rfl (.plain rfl (.plain rfl (.plain rfl .nil)))
  · decide
  · decide
  · decide

theorem ofSource_behindMember_dataProperty : ∃ m s u words keyword rest, TokenStream.ofSource dataProperty = .ok m ∧
    IsMember m.tokens ∧ ¬['#', '!'] <+: dataProperty.toList ∧
    TokenStream.ofSource "data class R(val a: Int)" = .ok s ∧ s.tokens = words ++ keyword :: rest ∧ ClassStart words keyword ∧
    ¬['#', '!'] <+: "data class R(val a: Int)".toList ∧ ofSource "data class R(val a: Int)" = .ok u ∧
    ofSource (dataProperty ++ "\n" ++ "data class R(val a: Int)") =
      .ok { u with classes := ClassTree.movedAll (dataProperty.utf8ByteSize + 1) u.classes } := by
  obtain ⟨m, hmember, hm, htrailing, hshell⟩ := ofSource_dataProperty
  have hread : ((TokenStream.ofSource "data class R(val a: Int)").toOption.map fun s => s.tokens.take 2) =
        some [⟨.name, "data", "", 0⟩, ⟨.name, "class", " ", 5⟩] ∧
      (ofSource "data class R(val a: Int)").toOption.isSome = true := by
    decide +kernel
  obtain ⟨s, hs, htake⟩ := Option.map_eq_some_iff.mp hread.1
  obtain ⟨u, hu⟩ := Option.isSome_iff_exists.mp hread.2
  have hs := ok_of_toOption hs
  have hu := ok_of_toOption hu
  have hwords : s.tokens = [⟨.name, "data", "", 0⟩] ++ ⟨.name, "class", " ", 5⟩ :: s.tokens.drop 2 := by
    rw [← List.take_append_drop 2 s.tokens, htake]
    rfl
  have hstart : ClassStart [⟨.name, "data", "", 0⟩] ⟨.name, "class", " ", 5⟩ := ⟨by decide, by decide⟩
  have hshell' : ¬['#', '!'] <+: "data class R(val a: Int)".toList := by decide
  have hrun := ofSource_behindMember hmember hm hshell hs hwords hstart hshell' hu
  rw [List.map_append, htrailing, if_pos (by decide)] at hrun
  exact ⟨m, s, u, _, _, _, hmember, hm, hshell, hs, hwords, hstart, hshell', hu, hrun⟩

/-- The value of a property makes a data class of the class behind it. -/
theorem dataProperty_changes_kind : ∃ m s keyword rest u u', TokenStream.ofSource dataProperty = .ok m ∧ IsMember m.tokens ∧
    TokenStream.ofSource "class R(val a: Int)" = .ok s ∧ s.tokens = keyword :: rest ∧ ClassStart [] keyword ∧
    ofSource "class R(val a: Int)" = .ok u ∧ u.classes.map ClassTree.kind = [.plain] ∧
    ofSource (dataProperty ++ "\n" ++ "class R(val a: Int)") = .ok u' ∧ u'.classes.map ClassTree.kind = [.data] := by
  obtain ⟨m, hmember, hm, -, -⟩ := ofSource_dataProperty
  have hread : ((TokenStream.ofSource "class R(val a: Int)").toOption.map fun s => s.tokens.take 1) =
        some [⟨.name, "class", "", 0⟩] ∧
      ((ofSource "class R(val a: Int)").toOption.map fun u => u.classes.map ClassTree.kind) = some [.plain] ∧
      ((ofSource (dataProperty ++ "\n" ++ "class R(val a: Int)")).toOption.map fun u => u.classes.map ClassTree.kind) =
        some [.data] := by
    decide +kernel
  obtain ⟨s, hs, htake⟩ := Option.map_eq_some_iff.mp hread.1
  obtain ⟨u, hu, hkind⟩ := Option.map_eq_some_iff.mp hread.2.1
  obtain ⟨u', hu', hkind'⟩ := Option.map_eq_some_iff.mp hread.2.2
  have hwords : s.tokens = ⟨.name, "class", "", 0⟩ :: s.tokens.drop 1 := by
    rw [← List.take_append_drop 1 s.tokens, htake]
    rfl
  exact ⟨m, s, _, _, u, u', hmember, hm, ok_of_toOption hs, hwords, ⟨by simp, by decide⟩, ok_of_toOption hu, hkind,
    ok_of_toOption hu', hkind'⟩

end SourceUnit

end Counterpart.Kotlin
