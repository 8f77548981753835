/-
Types as they are written. A type that is read is a piece of concrete syntax (`TypeSyntax`): the reader takes exactly its tokens,
and what it makes of them is `TypeSyntax.value` (`typeRef_syntax`).
-/
import Counterpart.Proofs.OneLine
import Counterpart.Kotlin.Type.Reader

namespace Counterpart.Kotlin

open Text Lexer

/-- Whether there are tokens of which the last one may end a type. -/
def EndsAsType (ts : List Token) : Prop := ∃ front t, ts = front ++ [t] ∧ t.EndsType

/-- A type argument with the mark before it. The words are that of its variance, or the star. -/
structure ArgSyntax (α : Type) where
  separator : Token
  words : List Token
  arg : TypeArg α

/-- A type with its tokens. Those of a function type are kept together; the other half of an intersection stands behind a mark
like an argument. -/
inductive TypeSyntax where
  | named (annotations suspended path : List Token) (args : List (ArgSyntax TypeSyntax)) (close mark : List Token)
    (bound : List (ArgSyntax TypeSyntax))
  | function (annotations body : List Token) (nullable : Bool)

namespace TypeSyntax

mutual

/-- The tokens of the type in its source. -/
def tokens : TypeSyntax → List Token
  | .named annotations suspended path args close mark bound =>
    annotations ++ (suspended ++ (path ++ (argsTokens args ++ (close ++ (mark ++ argsTokens bound)))))
  | .function annotations body _ => annotations ++ body

def argsTokens : List (ArgSyntax TypeSyntax) → List Token
  | [] => []
  | ⟨separator, words, .star⟩ :: args => separator :: (words ++ argsTokens args)
  | ⟨separator, words, .type _ ty⟩ :: args => separator :: (words ++ (ty.tokens ++ argsTokens args))

end

mutual

/-- The tokens of the type but for its annotations and those of its arguments. -/
def kept : TypeSyntax → List Token
  | .named _ suspended path args close mark bound =>
    suspended ++ (path ++ (argsKept args ++ (close ++ (mark ++ argsKept bound))))
  | .function _ body _ => body

def argsKept : List (ArgSyntax TypeSyntax) → List Token
  | [] => []
  | ⟨separator, words, .star⟩ :: args => separator :: (words ++ argsKept args)
  | ⟨separator, words, .type _ ty⟩ :: args => separator :: (words ++ (ty.kept ++ argsKept args))

end

/-- A dotted name as it is read. -/
def pathName (path : List Token) : String := String.join (path.map fun t => if t.isMark '.' then "." else t.text)

mutual

/-- What is read of the type. -/
def value : TypeSyntax → TypeRef
  | .named _ suspended path args close mark bound =>
    .named (pathName path) (argsValue args) (!mark.isEmpty)
      (oneLine (Token.verbatim (suspended ++ (path ++ (argsTokens args ++ (close ++ (mark ++ argsTokens bound)))))))
  | .function _ body nullable => .function nullable (oneLine (Token.verbatim body))

def argsValue : List (ArgSyntax TypeSyntax) → List (TypeArg TypeRef)
  | [] => []
  | ⟨_, _, .star⟩ :: args => .star :: argsValue args
  | ⟨_, _, .type variance ty⟩ :: args => .type variance ty.value :: argsValue args

end

/-! ## Syntax that is read -/

/-- Names with a dot between them. -/
inductive IsPath : List Token → Prop
  | name {t : Token} (ht : t.isName) : IsPath [t]
  | dot {t dot : Token} {path : List Token} (ht : t.isName) (hdot : dot.isMark '.') (h : IsPath path) :
    IsPath (t :: dot :: path)

/-- The word of a variance. -/
def IsVariance : Variance → List Token → Prop
  | .invariant, words => words = []
  | .outward, words => ∃ t, words = [t] ∧ t.isWord "out"
  | .inward, words => ∃ t, words = [t] ∧ t.isWord "in"

/-- At most one token. -/
def Optional (P : Token → Prop) (ts : List Token) : Prop := ts = [] ∨ ∃ t, ts = [t] ∧ P t

/-- Whether the annotations are what is skipped in front of `rest`. -/
def AreAnnotations (annotations rest : List Token) : Prop :=
  ∃ h, skipAnnotations (annotations ++ rest) = .ok ⟨(), rest, h⟩

mutual

/-- Whether the syntax is that of a type in front of `rest`. -/
def WellFormed : TypeSyntax → List Token → Prop
  | .named annotations suspended path args close mark bound, rest =>
    AreAnnotations annotations (suspended ++ (path ++ (argsTokens args ++ (close ++ (mark ++ argsTokens bound)))) ++ rest) ∧
    Optional (·.isWord "suspend") suspended ∧ IsPath path ∧
    ArgsWellFormed '<' args (close ++ (mark ++ argsTokens bound) ++ rest) ∧
    (args = [] ∧ close = [] ∨ args ≠ [] ∧ ∃ t, close = [t] ∧ t.isMark '>') ∧ Optional (·.isMark '?') mark ∧
    ArgsWellFormed '&' bound rest ∧ (bound = [] ∨ ∃ separator ty, bound = [⟨separator, [], .type .invariant ty⟩])
  | .function annotations body _, rest =>
    AreAnnotations annotations (body ++ rest) ∧ (∃ t us, body = t :: us ∧ (t.isName ∨ t.isMark '(')) ∧ EndsAsType body

/-- Whether the syntax is that of arguments, the first one behind the mark `c` and the others behind commas. -/
def ArgsWellFormed : Char → List (ArgSyntax TypeSyntax) → List Token → Prop
  | _, [], _ => True
  | c, ⟨separator, words, .star⟩ :: args, rest =>
    separator.isMark c ∧ (∃ t, words = [t] ∧ t.isMark '*') ∧ ArgsWellFormed ',' args rest
  | c, ⟨separator, words, .type variance ty⟩ :: args, rest =>
    separator.isMark c ∧ IsVariance variance words ∧ ty.WellFormed (argsTokens args ++ rest) ∧ ArgsWellFormed ',' args rest

end

end TypeSyntax

variable {ts : List Token}

/-! ## What readers take -/

theorem isMark_of_isName {t : Token} (h : t.isName) (c : Char) : t.isMark c = false := by
  rw [Token.isName, beq_iff_eq] at h
  rw [Token.isMark, h]
  rfl

theorem moreSegments_syntax (name : String) (ts : List Token) : ∃ more, ts = more ++ (moreSegments name ts).rest ∧
    (moreSegments name ts).value = name ++ TypeSyntax.pathName more ∧
      ∀ t : Token, t.isName → TypeSyntax.IsPath (t :: more) := by
  fun_induction moreSegments name ts with
  | case1 name dot t ts hsegment ih =>
    rw [Bool.and_eq_true] at hsegment
    obtain ⟨more, hmore, hvalue, hpath⟩ := ih
    refine ⟨dot :: t :: more, congrArg (dot :: t :: ·) hmore, hvalue.trans ?_, fun u hu => .dot hu hsegment.1 (hpath t hsegment.2)⟩
    simp only [TypeSyntax.pathName, List.map_cons, String.join_cons, hsegment.1, isMark_of_isName hsegment.2, if_true,
      Bool.false_eq_true, if_false, String.append_assoc]
  | case2 => exact ⟨[], rfl, by simp [TypeSyntax.pathName, Parsed.keep, String.join], fun t ht => .name ht⟩
  | case3 => exact ⟨[], rfl, by simp [TypeSyntax.pathName, Parsed.keep, String.join], fun t ht => .name ht⟩

theorem dottedName_syntax {role : NameRole} {p} (h : dottedName role ts = .ok p) :
    ∃ path, ts = path ++ p.rest ∧ p.value = TypeSyntax.pathName path ∧ TypeSyntax.IsPath path := by
  cases ts with
  | nil => cases h
  | cons t ts =>
    rw [dottedName] at h
    split at h
    next ht =>
      cases h
      obtain ⟨more, hmore, hvalue, hpath⟩ := moreSegments_syntax t.text ts
      refine ⟨t :: more, congrArg (t :: ·) hmore, ?_, hpath t ht⟩
      rw [hvalue, TypeSyntax.pathName, TypeSyntax.pathName, List.map_cons, String.join_cons, isMark_of_isName ht]
      rfl
    next => cases h

/-- A token that closes a group may end a type. -/
theorem endsType_of_closing {t : Token} (h : t.closing?.isSome) : t.EndsType := by
  rw [Token.closing?] at h
  split at h
  next hkind => exact .inr ⟨')', by decide, hkind⟩
  next hkind => exact .inr ⟨']', by decide, hkind⟩
  next hkind => exact .inr ⟨'\x7d', by decide, hkind⟩
  next => cases h

theorem closeGroup_syntax {opened rest : List Token} (hopened : opened ≠ []) (h : closeGroup opened ts = .ok rest) :
    ∃ group t, ts = group ++ t :: rest ∧ t.EndsType := by
  fun_induction closeGroup opened ts with
  | case1 => exact absurd rfl hopened
  | case2 => cases h
  | case3 top up t ts _ ih | case4 top up t ts _ _ ih =>
    obtain ⟨group, u, hgroup, hu⟩ := ih (List.cons_ne_nil _ _) h
    exact ⟨t :: group, u, congrArg (t :: ·) hgroup, hu⟩
  | case5 top up t ts _ _ hclosing ih =>
    cases up with
    | nil =>
      rw [closeGroup] at h
      cases h
      exact ⟨[], t, rfl, endsType_of_closing (by rw [hclosing]; rfl)⟩
    | cons u up =>
      obtain ⟨group, v, hgroup, hv⟩ := ih (List.cons_ne_nil u up) h
      exact ⟨t :: group, v, congrArg (t :: ·) hgroup, hv⟩
  | case6 => cases h

theorem skipGroup_syntax {opener : Token} {p} (h : skipGroup opener ts = .ok p) :
    ∃ group t, ts = group ++ t :: p.rest ∧ t.EndsType := by
  rw [skipGroup] at h
  split at h
  next rest hrest =>
    cases h
    exact closeGroup_syntax (List.cons_ne_nil _ _) hrest
  next => cases h

theorem skipGroup_suffix {opener : Token} {p} (h : skipGroup opener ts = .ok p) : p.rest <:+ ts := by
  obtain ⟨group, t, hgroup, -⟩ := skipGroup_syntax h
  exact ⟨group ++ [t], by rw [List.append_assoc]; exact hgroup.symm⟩

theorem dropUseSite_suffix (ts : List Token) : (dropUseSite ts).rest <:+ ts := by
  rw [dropUseSite.eq_def]
  split
  next t colon ts =>
    split
    · exact (List.suffix_cons colon ts).trans (List.suffix_cons t _)
    · exact List.suffix_refl _
  next => exact List.suffix_refl _

theorem annotationUse_suffix {p} (h : annotationUse ts = .ok p) : p.rest <:+ ts := by
  have hsite := dropUseSite_suffix ts
  rw [annotationUse] at h
  generalize dropUseSite ts = q at h hsite
  obtain ⟨_, rest₁, h₁⟩ := q
  cases rest₁ with
  | nil => cases h
  | cons bracket ts₁ =>
    dsimp only at h hsite
    split at h
    next =>
      obtain ⟨q, hq, h⟩ := exists_of_bind_ok h
      cases h
      exact ((skipGroup_suffix hq).trans (List.suffix_cons bracket ts₁)).trans hsite
    next =>
      obtain ⟨⟨name, rest₂, h₂⟩, hname, h⟩ := exists_of_bind_ok h
      obtain ⟨path, hpath, -⟩ := dottedName_syntax hname
      dsimp only at hpath h
      rw [hpath] at hsite
      have hrest : rest₂ <:+ ts := (List.suffix_append path rest₂).trans hsite
      cases rest₂ with
      | nil =>
        cases h
        exact hrest
      | cons paren ts₂ =>
        dsimp only at h
        split at h
        next =>
          obtain ⟨q, hq, h⟩ := exists_of_bind_ok h
          cases h
          exact ((skipGroup_suffix hq).trans (List.suffix_cons paren ts₂)).trans hrest
        next =>
          cases h
          exact hrest

theorem skipAnnotations_suffix (ts : List Token) {p} (h : skipAnnotations ts = .ok p) : p.rest <:+ ts := by
  rw [skipAnnotations.eq_def] at h
  cases ts with
  | nil =>
    cases h
    exact List.suffix_refl _
  | cons t ts =>
    dsimp only at h
    split at h
    next =>
      obtain ⟨⟨_, rest, hlt⟩, huse, h⟩ := exists_of_bind_ok h
      obtain ⟨q, hq, h⟩ := exists_of_bind_ok h
      cases h
      exact ((skipAnnotations_suffix rest hq).trans (annotationUse_suffix huse)).trans (List.suffix_cons t ts)
    next =>
      cases h
      exact List.suffix_refl _
termination_by ts.length

theorem skipAnnotations_syntax {rest : List Token} {hlt} (h : skipAnnotations ts = .ok ⟨(), rest, hlt⟩) :
    ∃ annotations, ts = annotations ++ rest ∧ TypeSyntax.AreAnnotations annotations rest := by
  obtain ⟨annotations, hannotations⟩ := skipAnnotations_suffix ts h
  have heq : ts = annotations ++ rest := hannotations.symm
  clear hannotations
  subst heq
  exact ⟨annotations, rfl, hlt, h⟩

theorem takeWord_syntax (word : String) (ts : List Token) :
    ∃ taken, ts = taken ++ (takeWord word ts).rest ∧ TypeSyntax.Optional (·.isWord word) taken := by
  cases ts with
  | nil => exact ⟨[], rfl, .inl rfl⟩
  | cons t ts =>
    rw [takeWord]
    split
    next ht => exact ⟨[t], rfl, .inr ⟨t, rfl, ht⟩⟩
    next => exact ⟨[], rfl, .inl rfl⟩

theorem takeMark_syntax (c : Char) (ts : List Token) :
    ∃ taken, ts = taken ++ (takeMark c ts).rest ∧ (takeMark c ts).value = !taken.isEmpty ∧
      TypeSyntax.Optional (·.isMark c) taken := by
  cases ts with
  | nil => exact ⟨[], rfl, rfl, .inl rfl⟩
  | cons t ts =>
    rw [takeMark]
    split
    next ht => exact ⟨[t], rfl, rfl, .inr ⟨t, rfl, ht⟩⟩
    next => exact ⟨[], rfl, rfl, .inl rfl⟩

theorem takeVariance_syntax (ts : List Token) : ∃ words, ts = words ++ (takeVariance ts).rest ∧
    TypeSyntax.IsVariance (takeVariance ts).value words := by
  rw [takeVariance.eq_def]
  split
  next t u us =>
    split
    next h =>
      rw [Bool.and_eq_true] at h
      exact ⟨[t], rfl, t, rfl, h.1⟩
    next =>
      split
      next h =>
        rw [Bool.and_eq_true] at h
        exact ⟨[t], rfl, t, rfl, h.1⟩
      next => exact ⟨[], rfl, rfl⟩
  next => exact ⟨[], rfl, rfl⟩

theorem receiverEnd_syntax {paren : Token} {rest : List Token} {hlt} (h : receiverEnd ts = some ⟨paren, rest, hlt⟩) :
    ∃ dot, ts = dot :: paren :: rest := by
  rw [receiverEnd.eq_def] at h
  split at h
  next dot t us =>
    split at h
    · cases h
      exact ⟨dot, rfl⟩
    · cases h
  next => cases h

theorem textBetween_append (run rest : List Token) : textBetween (run ++ rest) rest = oneLine (Token.verbatim run) := by
  rw [textBetween, List.length_append, Nat.add_sub_cancel, List.take_left]

/-! ## Types -/

section
variable {us : List Token} {t : Token}

theorem EndsAsType.prepend (ts : List Token) (h : EndsAsType us) : EndsAsType (ts ++ us) := by
  obtain ⟨front, t, rfl, ht⟩ := h
  exact ⟨ts ++ front, t, by rw [List.append_assoc], ht⟩

theorem EndsAsType.cons (t : Token) (h : EndsAsType us) : EndsAsType (t :: us) := h.prepend [t]

theorem endsAsType_append (hts : EndsAsType ts) (hus : us = [] ∨ EndsAsType us) : EndsAsType (ts ++ us) := by
  obtain rfl | hus := hus
  · rwa [List.append_nil]
  · exact hus.prepend ts

theorem endsAsType_or_append (hts : ts = [] ∨ EndsAsType ts) (hus : us = [] ∨ EndsAsType us) :
    ts ++ us = [] ∨ EndsAsType (ts ++ us) := by
  obtain rfl | hts := hts
  · exact hus
  · exact .inr (endsAsType_append hts hus)

theorem endsAsType_singleton (ht : t.EndsType) : EndsAsType [t] := ⟨[], t, rfl, ht⟩

end

namespace TypeSyntax

theorem IsPath.exists_cons_of_eq {t : Token} {path ts rest : List Token} (h : IsPath path) (heq : t :: ts = path ++ rest) :
    ∃ us, path = t :: us ∧ t.isName := by
  cases h with
  | name ht | dot ht _ _ =>
    rw [List.cons_append, List.cons.injEq] at heq
    exact ⟨_, by rw [heq.1], heq.1 ▸ ht⟩

theorem IsPath.endsAsType {path : List Token} (h : IsPath path) : EndsAsType path := by
  induction h with
  | name ht => exact endsAsType_singleton (.inl (by simpa [Token.isName] using ht))
  | dot _ _ _ ih => exact (ih.cons _).cons _

theorem Optional.endsAsType {c : Char} {mark : List Token} (h : Optional (·.isMark c) mark)
    (hc : c ∈ [')', ']', '\x7d', '>', '?']) : mark = [] ∨ EndsAsType mark := by
  obtain rfl | ⟨t, rfl, ht⟩ := h
  · exact .inl rfl
  · exact .inr (endsAsType_singleton (.inr ⟨c, hc, by simpa [Token.isMark] using ht⟩))

end TypeSyntax

open TypeSyntax

theorem endsAsType_named {annotations suspended path close mark rest : List Token} {args bound : List (ArgSyntax TypeSyntax)}
    (h : (TypeSyntax.named annotations suspended path args close mark bound).WellFormed rest)
    (hbound : argsTokens bound = [] ∨ EndsAsType (argsTokens bound)) :
    EndsAsType (TypeSyntax.named annotations suspended path args close mark bound).tokens := by
  obtain ⟨-, -, hpath, -, hclose, hquestion, -, -⟩ := h
  have htail : mark ++ argsTokens bound = [] ∨ EndsAsType (mark ++ argsTokens bound) :=
    endsAsType_or_append (hquestion.endsAsType (by decide)) hbound
  refine (EndsAsType.prepend _ (endsAsType_append hpath.endsAsType ?_)).prepend annotations
  obtain ⟨rfl, rfl⟩ | ⟨-, t, rfl, ht⟩ := hclose
  · exact htail
  · have hangle : EndsAsType [t] := endsAsType_singleton (.inr ⟨'>', by decide, by simpa [Token.isMark] using ht⟩)
    exact .inr ((endsAsType_append hangle htail).prepend _)

theorem function_syntax {annotations body rest : List Token} (hannotations : AreAnnotations annotations (body ++ rest))
    (hhead : ∃ t us, body = t :: us ∧ (t.isName ∨ t.isMark '(')) (hends : EndsAsType body) (nullable : Bool) :
    ∃ s : TypeSyntax, annotations ++ (body ++ rest) = s.tokens ++ rest ∧
      s.value = .function nullable (textBetween (body ++ rest) rest) ∧ s.WellFormed rest ∧ EndsAsType s.tokens := by
  refine ⟨.function annotations body nullable, by simp [TypeSyntax.tokens], ?_, ⟨hannotations, hhead, hends⟩,
    hends.prepend annotations⟩
  rw [value, textBetween_append]

mutual

/-- What is read of a type is what its syntax says, and its tokens are those that were taken. -/
theorem typeRef_syntax (ts : List Token) {p} (h : typeRef ts = .ok p) :
    ∃ s : TypeSyntax, ts = s.tokens ++ p.rest ∧ s.value = p.value ∧ s.WellFormed p.rest ∧ EndsAsType s.tokens := by
  rw [typeRef] at h
  obtain ⟨⟨_, start, h₀⟩, hskip, h⟩ := exists_of_bind_ok h
  obtain ⟨annotations, hstart, hannotations⟩ := skipAnnotations_syntax hskip
  obtain ⟨suspended, hsuspended, hword⟩ := takeWord_syntax "suspend" start
  dsimp only at h
  generalize takeWord "suspend" start = q at h hsuspended
  obtain ⟨_, start₁, h₁⟩ := q
  cases start₁ with
  | nil => cases h
  | cons t ts₁ =>
    dsimp only at h hsuspended
    have hfirst (us : List Token) (ht : t.isName ∨ t.isMark '(') :
        ∃ u vs, suspended ++ t :: us = u :: vs ∧ (u.isName ∨ u.isMark '(') := by
      obtain rfl | ⟨u, rfl, hu⟩ := hword
      · exact ⟨t, us, rfl, ht⟩
      · exact ⟨u, t :: us, rfl, .inl (Bool.and_eq_true_iff.mp hu).1⟩
    split at h
    next hparen =>
      obtain ⟨⟨_, ts₂, h₂⟩, hgroup, h⟩ := exists_of_bind_ok h
      obtain ⟨⟨_, ts₃, h₃⟩, hresult, h⟩ := exists_of_bind_ok h
      obtain ⟨group, close, hclose, hends⟩ := skipGroup_syntax hgroup
      obtain ⟨result, hresult, hends'⟩ := resultType_syntax ts₂ hresult
      obtain ⟨mark, hmark, -, hquestion⟩ := takeMark_syntax '?' ts₃
      dsimp only at h hclose hresult
      generalize takeMark '?' ts₃ = q at h hmark
      obtain ⟨nullable, rest, h₄⟩ := q
      cases h
      have hbody : start = suspended ++ t :: (group ++ ([close] ++ (result ++ mark))) ++ rest := by
        rw [hsuspended, hclose, hresult, hmark]
        simp
      dsimp only
      rw [hstart, hbody]
      refine function_syntax (hbody ▸ hannotations) (hfirst _ (.inr hparen)) ?_ nullable
      have htail : result ++ mark = [] ∨ EndsAsType (result ++ mark) := by
        obtain rfl | hresult := hends'
        · exact hquestion.endsAsType (by decide)
        · exact .inr (endsAsType_append hresult (hquestion.endsAsType (by decide)))
      exact (((endsAsType_append (endsAsType_singleton hends) htail).prepend group).cons t).prepend suspended
    next hparen =>
      obtain ⟨⟨name, ts₂, h₂⟩, hname, h⟩ := exists_of_bind_ok h
      obtain ⟨⟨as, ts₃, h₃⟩, hargs, h⟩ := exists_of_bind_ok h
      obtain ⟨path, hpath, hvalue, hispath⟩ := dottedName_syntax hname
      obtain ⟨args, close, hsplit, hasvalue, hargswf, hclose⟩ := typeArgs_syntax ts₂ hargs
      dsimp only at h hpath hvalue hsplit hasvalue hargswf
      split at h
      next paren ts₄ h₄ hreceiver =>
        obtain ⟨⟨_, ts₅, h₅⟩, hgroup, h⟩ := exists_of_bind_ok h
        obtain ⟨⟨_, rest, h₆⟩, hresult, h⟩ := exists_of_bind_ok h
        obtain ⟨dot, hdot⟩ := receiverEnd_syntax hreceiver
        obtain ⟨group, last, hlast, hends⟩ := skipGroup_syntax hgroup
        obtain ⟨result, hresult, hends'⟩ := resultType_syntax ts₅ hresult
        cases h
        dsimp only at hdot hlast hresult ⊢
        have hcore : start = suspended ++ (path ++ (argsTokens args ++ (close ++
            (dot :: paren :: (group ++ ([last] ++ result)))))) ++ rest := by
          rw [hsuspended, hpath, hsplit, hdot, hlast, hresult]
          simp
        have hhead : ∃ u vs, suspended ++ (path ++ (argsTokens args ++ (close ++
            (dot :: paren :: (group ++ ([last] ++ result)))))) = u :: vs ∧ (u.isName ∨ u.isMark '(') := by
          obtain ⟨us, rfl, ht⟩ := hispath.exists_cons_of_eq hpath
          exact hfirst _ (.inl ht)
        rw [hstart, hcore]
        refine function_syntax (hcore ▸ hannotations) hhead ?_ false
        refine EndsAsType.prepend _ (.prepend _ (.prepend _ (.prepend _ (.cons _ (.cons _ (.prepend _ ?_))))))
        exact endsAsType_append (endsAsType_singleton hends) hends'
      next hreceiver =>
        obtain ⟨mark, hmark, hnullable, hquestion⟩ := takeMark_syntax '?' ts₃
        generalize takeMark '?' ts₃ = q at h hmark hnullable
        obtain ⟨nullable, ts₄, h₄⟩ := q
        dsimp only at h
        obtain ⟨⟨_, rest, h₅⟩, hother, h⟩ := exists_of_bind_ok h
        obtain ⟨bound, hbound, hboundwf, hboundshape, hboundends⟩ := otherBound_syntax ts₄ hother
        cases h
        dsimp only at hmark hnullable hbound hboundwf ⊢
        have hcore : start = suspended ++ (path ++ (argsTokens args ++ (close ++ (mark ++ argsTokens bound)))) ++ rest := by
          rw [hsuspended, hpath, hsplit, hmark, hbound]
          simp
        have hwf : (TypeSyntax.named annotations suspended path args close mark bound).WellFormed rest := by
          refine ⟨hcore ▸ hannotations, hword, hispath, ?_, hclose, hquestion, hboundwf, hboundshape⟩
          rw [hmark, hbound] at hargswf
          simpa using hargswf
        refine ⟨_, ?_, ?_, hwf, endsAsType_named hwf hboundends⟩
        · rw [hstart, hcore]
          simp [TypeSyntax.tokens]
        · rw [hcore, textBetween_append, value, hvalue, hasvalue, hnullable]
termination_by 3 * ts.length
decreasing_by all_goals grind

theorem resultType_syntax (ts : List Token) {p} (h : resultType ts = .ok p) :
    ∃ result, ts = result ++ p.rest ∧ (result = [] ∨ EndsAsType result) := by
  cases ts with
  | nil =>
    rw [resultType] at h
    cases h
    exact ⟨[], rfl, .inl rfl⟩
  | cons t ts =>
    rw [resultType] at h
    split at h
    next =>
      obtain ⟨⟨ty, rest, h₁⟩, hty, h⟩ := exists_of_bind_ok h
      cases h
      obtain ⟨s, hs, -, -, hends⟩ := typeRef_syntax ts hty
      exact ⟨t :: s.tokens, congrArg (t :: ·) hs, .inr (hends.cons t)⟩
    next =>
      cases h
      exact ⟨[], rfl, .inl rfl⟩
termination_by 3 * ts.length

/-- The other half of an intersection. -/
theorem otherBound_syntax (ts : List Token) {p} (h : otherBound ts = .ok p) :
    ∃ bound, ts = argsTokens bound ++ p.rest ∧ ArgsWellFormed '&' bound p.rest ∧
      (bound = [] ∨ ∃ separator ty, bound = [⟨separator, [], .type .invariant ty⟩]) ∧
      (argsTokens bound = [] ∨ EndsAsType (argsTokens bound)) := by
  cases ts with
  | nil =>
    rw [otherBound] at h
    cases h
    exact ⟨[], rfl, trivial, .inl rfl, .inl rfl⟩
  | cons t ts =>
    rw [otherBound] at h
    split at h
    next hand =>
      obtain ⟨⟨ty, rest, h₁⟩, hty, h⟩ := exists_of_bind_ok h
      cases h
      obtain ⟨s, hs, -, hwf, hends⟩ := typeRef_syntax ts hty
      refine ⟨[⟨t, [], .type .invariant s⟩], ?_, ⟨hand, rfl, hwf, trivial⟩, .inr ⟨t, s, rfl⟩, .inr ?_⟩
      · simpa [argsTokens] using hs
      · simpa [argsTokens] using hends.cons t
    next =>
      cases h
      exact ⟨[], rfl, trivial, .inl rfl, .inl rfl⟩
termination_by 3 * ts.length

/-- Type arguments in angle brackets, or none. -/
theorem typeArgs_syntax (ts : List Token) {p} (h : typeArgs ts = .ok p) :
    ∃ args close, ts = argsTokens args ++ (close ++ p.rest) ∧ argsValue args = p.value ∧
      ArgsWellFormed '<' args (close ++ p.rest) ∧
      (args = [] ∧ close = [] ∨ args ≠ [] ∧ ∃ t, close = [t] ∧ t.isMark '>') := by
  cases ts with
  | nil =>
    rw [typeArgs] at h
    cases h
    exact ⟨[], [], rfl, rfl, trivial, .inl ⟨rfl, rfl⟩⟩
  | cons t ts =>
    rw [typeArgs] at h
    split at h
    next hangle =>
      obtain ⟨⟨as, rest, h₁⟩, hargs, h⟩ := exists_of_bind_ok h
      cases h
      obtain ⟨args, close, hsplit, hne, hvalue, hwf, hclose⟩ := typeArgList_syntax ts hargs t hangle
      exact ⟨args, [close], hsplit, hvalue, hwf, .inr ⟨hne, close, rfl, hclose⟩⟩
    next =>
      cases h
      exact ⟨[], [], rfl, rfl, trivial, .inl ⟨rfl, rfl⟩⟩
termination_by 3 * ts.length

/-- Type arguments behind the mark before the first one. -/
theorem typeArgList_syntax (ts : List Token) {p} (h : typeArgList ts = .ok p) (separator : Token) {c : Char}
    (hseparator : separator.isMark c) :
    ∃ args close, separator :: ts = argsTokens args ++ (close :: p.rest) ∧ args ≠ [] ∧ argsValue args = p.value ∧
      ArgsWellFormed c args (close :: p.rest) ∧ close.isMark '>' := by
  rw [typeArgList] at h
  obtain ⟨⟨a, ts₁, h₁⟩, harg, h⟩ := exists_of_bind_ok h
  obtain ⟨run, words, arg, hrun, htokens, hvalue, hwf⟩ := typeArg_syntax ts harg
  cases ts₁ with
  | nil => cases h
  | cons t ts₁ =>
    dsimp only at h hrun
    split at h
    next hcomma =>
      obtain ⟨⟨as, rest, h₂⟩, hargs, h⟩ := exists_of_bind_ok h
      cases h
      obtain ⟨args, close, hsplit, -, hasvalue, hargswf, hclose⟩ := typeArgList_syntax ts₁ hargs t hcomma
      refine ⟨⟨separator, words, arg⟩ :: args, close, ?_, List.cons_ne_nil _ _, ?_, ?_, hclose⟩
      · rw [htokens, List.cons_append, List.append_assoc, ← hsplit, ← hrun]
      · rw [hvalue, hasvalue]
      · exact hwf hseparator hargswf hsplit.symm
    next =>
      split at h
      next hangle =>
        cases h
        refine ⟨[⟨separator, words, arg⟩], t, ?_, List.cons_ne_nil _ _, ?_, ?_, hangle⟩
        · rw [htokens, argsTokens, List.append_nil, List.cons_append, ← hrun]
        · rw [hvalue]
          rfl
        · exact hwf hseparator trivial rfl
      next => cases h
termination_by 3 * ts.length + 2
decreasing_by all_goals grind

/-- A type argument, to be put behind a mark. -/
theorem typeArg_syntax (ts : List Token) {p} (h : typeArg ts = .ok p) :
    ∃ run words arg, ts = run ++ p.rest ∧
      (∀ {separator args}, argsTokens (⟨separator, words, arg⟩ :: args) = separator :: (run ++ argsTokens args)) ∧
      (∀ {separator args}, argsValue (⟨separator, words, arg⟩ :: args) = p.value :: argsValue args) ∧
      ∀ {c separator args rest}, Token.isMark c separator → ArgsWellFormed ',' args rest → argsTokens args ++ rest = p.rest →
        ArgsWellFormed c (⟨separator, words, arg⟩ :: args) rest := by
  cases ts with
  | nil =>
    rw [typeArg] at h
    cases h
  | cons t ts =>
    rw [typeArg] at h
    split at h
    next hstar =>
      cases h
      exact ⟨[t], [t], .star, rfl, rfl, rfl, fun hmark hargs _ => ⟨hmark, ⟨t, rfl, hstar⟩, hargs⟩⟩
    next =>
      obtain ⟨words, hwords, hvariance⟩ := takeVariance_syntax (t :: ts)
      generalize takeVariance (t :: ts) = q at h hwords hvariance
      obtain ⟨variance, ts₁, h₁⟩ := q
      dsimp only at h
      obtain ⟨⟨ty, rest, h₂⟩, hty, h⟩ := exists_of_bind_ok h
      cases h
      obtain ⟨s, hs, hvalue, hwf, -⟩ := typeRef_syntax ts₁ hty
      dsimp only at hwords hvariance hs hvalue hwf ⊢
      refine ⟨words ++ s.tokens, words, .type variance s, ?_, ?_, ?_, ?_⟩
      · rw [hwords, hs, List.append_assoc]
      · simp [argsTokens]
      · simp [argsValue, hvalue]
      · intro c separator args rest' hmark hargs hrest
        exact ⟨hmark, hvariance, hrest ▸ hwf, hargs⟩
termination_by 3 * ts.length + 1
decreasing_by all_goals grind

end

end Counterpart.Kotlin
