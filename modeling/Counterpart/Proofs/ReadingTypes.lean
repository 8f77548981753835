/-
Types are read back as they are rendered. A simple reference, a dotted name with simple arguments, is cut into
`TypeRef.lexemes`, and `typeRef` makes of these a reference that is the same but for the texts (`TypeRef.rewritten`).
-/
import Counterpart.Proofs.Reading
import Counterpart.Kotlin.Type.Reader

namespace Counterpart.Kotlin

open Text
open List (Forall₂)

variable {ts : List Token} {es rest : List Lexeme} {c : Char}

/-! ## Simple types -/

/-- A reference without function types. -/
inductive TypeRef.Simple : TypeRef → Prop
  | named {name : String} {args : List (TypeArg TypeRef)} (nullable : Bool) (text : String)
      (hname : ∀ s ∈ split '.' name, Name.isPlain s ∧ s ≠ "suspend")
      (hargs : ∀ variance ty, TypeArg.type variance ty ∈ args → Simple ty) : Simple (.named name args nullable text)

mutual

/-- The reference with all texts in it written anew. -/
def TypeRef.rewritten : TypeRef → TypeRef
  | .named name args nullable text => .named name (rewrittenArgs args) nullable (TypeRef.named name args nullable text).render
  | .function nullable text => .function nullable text

def TypeRef.rewrittenArgs : List (TypeArg TypeRef) → List (TypeArg TypeRef)
  | [] => []
  | a :: as => rewrittenArg a :: rewrittenArgs as

def TypeRef.rewrittenArg : TypeArg TypeRef → TypeArg TypeRef
  | .star => .star
  | .type variance ty => .type variance ty.rewritten

end

theorem TypeRef.isEmpty_rewrittenArgs (args : List (TypeArg TypeRef)) : (rewrittenArgs args).isEmpty = args.isEmpty := by
  cases args with
  | nil => rfl
  | cons a as => rw [rewrittenArgs]; rfl

mutual

theorem TypeRef.render_rewritten (ty : TypeRef) : ty.rewritten.render = ty.render := by
  cases ty with
  | named name args nullable text =>
    rw [rewritten, render, render, TypeRef.renderArgs_rewrittenArgs, isEmpty_rewrittenArgs]
  | function => rw [rewritten]

theorem TypeRef.renderArgs_rewrittenArgs (args : List (TypeArg TypeRef)) : renderArgs (rewrittenArgs args) = renderArgs args := by
  match args with
  | [] => rw [rewrittenArgs]
  | .star :: as => rw [rewrittenArgs, rewrittenArg, renderArgs, renderArgs, TypeRef.renderArgs_rewrittenArgs as]
  | .type variance ty :: as =>
    rw [rewrittenArgs, rewrittenArg, renderArgs, renderArgs, TypeRef.renderArgs_rewrittenArgs as, renderArg, renderArg,
      TypeRef.render_rewritten ty]

end

/-- References that are the same but for their texts are rendered to the same text. -/
theorem TypeRef.render_eq {ty ty' : TypeRef} (h : ty.rewritten = ty'.rewritten) : ty.render = ty'.render := by
  rw [← ty.render_rewritten, h, ty'.render_rewritten]

theorem TypeRef.rewritten_named {args args' : List (TypeArg TypeRef)} (h : rewrittenArgs args = rewrittenArgs args') (name : String)
    (nullable : Bool) (text text' : String) :
    (TypeRef.named name args nullable text).rewritten = (TypeRef.named name args' nullable text').rewritten := by
  have hrender : renderArgs args = renderArgs args' := by
    rw [← TypeRef.renderArgs_rewrittenArgs, h, TypeRef.renderArgs_rewrittenArgs]
  have hempty : args.isEmpty = args'.isEmpty := by
    rw [← TypeRef.isEmpty_rewrittenArgs, h, TypeRef.isEmpty_rewrittenArgs]
  rw [rewritten, rewritten, h, render, render, hrender, hempty]

def Variance.lexemes : Variance → List Lexeme
  | .invariant => []
  | .outward => [.word "out"]
  | .inward => [.word "in"]

mutual

def TypeRef.lexemes : TypeRef → List Lexeme
  | .function .. => []
  | .named name args nullable _ =>
    pathLexemes (split '.' name) ++
      (if args.isEmpty then [] else .mark '<' :: TypeRef.argsLexemes args ++ [.mark '>']) ++ (if nullable then [.mark '?'] else [])

def TypeRef.argsLexemes : List (TypeArg TypeRef) → List Lexeme
  | [] => []
  | [a] => TypeRef.argLexemes a
  | a :: as => TypeRef.argLexemes a ++ .mark ',' :: TypeRef.argsLexemes as

def TypeRef.argLexemes : TypeArg TypeRef → List Lexeme
  | .star => [.mark '*']
  | .type variance ty => variance.lexemes ++ ty.lexemes

end

theorem Lexes.variance (v : Variance) {cs : List Char} (h : Lexes cs es) : Lexes (v.marker.toList ++ cs) (v.lexemes ++ es) := by
  cases v with
  | invariant => exact h
  | outward =>
    show Lexes ("out".toList ++ ' ' :: cs) (.word "out" :: es)
    exact .word_blank (by decide) (by decide) h
  | inward =>
    show Lexes ("in".toList ++ ' ' :: cs) (.word "in" :: es)
    exact .word_blank (by decide) (by decide) h

theorem Lexes.args {args : List (TypeArg TypeRef)} {cs : List Char} (hne : args ≠ []) (hcs : ∀ c ∈ cs.head?, isNameChar c = false)
    (hargs : ∀ variance ty, TypeArg.type variance ty ∈ args → ∀ {cs es}, (∀ c ∈ cs.head?, isNameChar c = false) →
      Lexes cs es → Lexes (ty.render.toList ++ cs) (ty.lexemes ++ es)) (h : Lexes cs es) :
    Lexes ((join ", " (TypeRef.renderArgs args)).toList ++ cs) (TypeRef.argsLexemes args ++ es) := by
  have harg {a cs es} (ha : a ∈ args) (hcs : ∀ c ∈ cs.head?, isNameChar c = false) (h : Lexes cs es) :
      Lexes ((TypeRef.renderArg a).toList ++ cs) (TypeRef.argLexemes a ++ es) := by
    cases a with
    | star => exact .mark (by decide) h
    | type v ty =>
      rw [TypeRef.renderArg, TypeRef.argLexemes, String.toList_append, List.append_assoc, List.append_assoc]
      exact .variance v (hargs v ty ha hcs h)
  clear hargs
  induction args with
  | nil => exact absurd rfl hne
  | cons a as ih =>
    cases as with
    | nil => exact harg List.mem_cons_self hcs h
    | cons b bs =>
      have hbs := ih (List.cons_ne_nil b bs) fun ha => harg (List.mem_cons_of_mem a ha)
      have hne' : TypeRef.renderArgs (b :: bs) ≠ [] := by
        rw [TypeRef.renderArgs]
        exact List.cons_ne_nil _ _
      rw [TypeRef.renderArgs, join_cons hne', TypeRef.argsLexemes, List.append_assoc]
      · simp only [String.toList_append, List.append_assoc]
        exact harg List.mem_cons_self (notNameChar_cons (by decide) _) (.mark (by decide) (.blank (by decide) hbs))
      · exact List.cons_ne_nil b bs

theorem Lexes.type {ty : TypeRef} (hty : ty.Simple) {cs : List Char} (hcs : ∀ c ∈ cs.head?, isNameChar c = false)
    (h : Lexes cs es) : Lexes (ty.render.toList ++ cs) (ty.lexemes ++ es) := by
  induction hty generalizing cs es with
  | @named name args nullable text hname hargs ih =>
    rw [TypeRef.render, TypeRef.lexemes]
    have hnullable {cs es} (hcs : ∀ c ∈ cs.head?, isNameChar c = false) (h : Lexes cs es) :
        Lexes ((if nullable then "?" else "").toList ++ cs) ((if nullable then [.mark '?'] else []) ++ es) ∧
        ∀ c ∈ ((if nullable then "?" else "").toList ++ cs).head?, isNameChar c = false := by
      cases nullable with
      | false => exact ⟨h, hcs⟩
      | true => exact ⟨.mark (by decide) h, notNameChar_cons (by decide) _⟩
    obtain ⟨h, hcs⟩ := hnullable hcs h
    have hpath {cs es} (hcs : ∀ c ∈ cs.head?, isNameChar c = false) (h : Lexes cs es) :
        Lexes (name.toList ++ cs) (pathLexemes (split '.' name) ++ es) := by
      have := Lexes.path (split_ne_nil '.' name) (fun s hs => (hname s hs).1) hcs h
      rwa [show "." = String.singleton '.' from rfl, join_split] at this
    cases args with
    | nil =>
      simpa using hpath hcs h
    | cons a as =>
      simp only [String.toList_append, List.append_assoc, List.isEmpty_cons, Bool.false_eq_true, if_false]
      refine hpath (notNameChar_cons (by decide) _) (.mark (by decide) ?_)
      exact .args (List.cons_ne_nil a as) (notNameChar_cons (by decide) _) (fun v ty hmem {cs es} => ih v ty hmem) (.mark (by decide) h)

/-! ## Reading types -/

theorem receiverEnd_of_notAt (h : Forall₂ Token.Fits ts es) {marks} (hes : NotAt marks es) (hdot : '.' ∈ marks) :
    receiverEnd ts = none := by
  have := isMark_of_notAt h hes hdot
  rw [receiverEnd.eq_def]
  split
  next dot paren ts => simp only [this dot rfl, Bool.false_and, Bool.false_eq_true, if_false]
  next => rfl

theorem otherBound_of_notAt (h : Forall₂ Token.Fits ts es) {marks} (hes : NotAt marks es) (hand : '&' ∈ marks) :
    otherBound ts = .ok (.keep () ts) := by
  have := isMark_of_notAt h hes hand
  rw [otherBound.eq_def]
  cases ts with
  | nil => rfl
  | cons t ts => simp only [this t rfl, Bool.false_eq_true, if_false]; rfl

theorem typeArgs_of_notAt (h : Forall₂ Token.Fits ts es) {marks} (hes : NotAt marks es) (hangle : '<' ∈ marks) :
    typeArgs ts = .ok (.keep [] ts) := by
  have := isMark_of_notAt h hes hangle
  rw [typeArgs.eq_def]
  cases ts with
  | nil => rfl
  | cons t ts => simp only [this t rfl, Bool.false_eq_true, if_false]; rfl

/-- What stands behind a type: a comma or the end of a list. -/
def FollowsType (es : List Lexeme) : Prop :=
  ∃ us, es = .mark ',' :: us ∨ es = .mark '>' :: us ∨ es = .mark ')' :: us

theorem FollowsType.notAt (h : FollowsType es) : NotAt ['.', '<', '&', '?', '='] es := by
  obtain ⟨us, rfl | rfl | rfl⟩ := h <;> exact notAt_mark (by decide)

theorem typeRef_named {t : Token} {ts : List Token} {p₁ : Parsed String (t :: ts).length}
    {p₂ : Parsed (List (TypeArg TypeRef)) (p₁.rest.length + 1)} (hat : t.isMark '@' = false) (hsuspend : t.isWord "suspend" = false)
    (hparen : t.isMark '(' = false) (hname : dottedName .type (t :: ts) = .ok p₁) (hargs : typeArgs p₁.rest = .ok p₂)
    (hreceiver : receiverEnd p₂.rest = none) {p₃} (hbound : otherBound (takeMark '?' p₂.rest).rest = .ok p₃) :
    ∃ p text, typeRef (t :: ts) = .ok p ∧ p.value = .named p₁.value p₂.value (takeMark '?' p₂.rest).value text ∧
      p.rest = p₃.rest := by
  have hskip : skipAnnotations (t :: ts) = .ok (.keep () (t :: ts)) := by
    rw [skipAnnotations, if_neg (by simp [hat])]
  have hword : takeWord "suspend" (t :: ts) = .keep false (t :: ts) := by
    rw [takeWord, if_neg (by simp [hsuspend])]
  rw [typeRef, hskip]
  simp only [bind, Except.bind, Parsed.keep]
  rw [hword]
  simp only [Parsed.keep, hparen, Bool.false_eq_true, if_false]
  rw [hname]
  simp only
  rw [hargs]
  simp only
  rw [hreceiver]
  simp only
  rw [hbound]
  exact ⟨_, _, rfl, rfl, rfl⟩

/-- After the first word of a type stands a mark. -/
theorem TypeRef.Simple.lexemes_append {ty : TypeRef} (hty : ty.Simple) (hrest : FollowsType rest) :
    ∃ w c us, ty.lexemes ++ rest = .word w :: .mark c :: us := by
  obtain ⟨nullable, text, hname, -⟩ := hty
  rename_i name args
  obtain ⟨s, ss, hsplit⟩ := List.exists_cons_of_ne_nil (split_ne_nil '.' name)
  rw [TypeRef.lexemes, hsplit, pathLexemes]
  cases ss with
  | cons u us => exact ⟨_, _, _, rfl⟩
  | nil =>
    cases args with
    | cons a as => exact ⟨_, _, _, rfl⟩
    | nil =>
      cases nullable with
      | true => exact ⟨_, _, _, rfl⟩
      | false => obtain ⟨us, rfl | rfl | rfl⟩ := hrest <;> exact ⟨_, _, _, rfl⟩

theorem takeVariance_reads (v : Variance) {w : String} (h : Forall₂ Token.Fits ts (v.lexemes ++ .word w :: .mark c :: es)) :
    (takeVariance ts).value = v ∧ Forall₂ Token.Fits (takeVariance ts).rest (.word w :: .mark c :: es) := by
  cases v with
  | invariant =>
    obtain ⟨t, us, ht, hus, rfl⟩ := List.forall₂_cons_right_iff.mp h
    obtain ⟨u, vs, hu, hvs, rfl⟩ := List.forall₂_cons_right_iff.mp hus
    simp only [takeVariance, hu.isName_mark, Bool.and_false, Bool.false_eq_true, if_false]
    exact ⟨rfl, h⟩
  | outward =>
    obtain ⟨t, us, ht, hus, rfl⟩ := List.forall₂_cons_right_iff.mp h
    obtain ⟨u, vs, hu, hvs, rfl⟩ := List.forall₂_cons_right_iff.mp hus
    simp only [takeVariance, ht.isWord_word, hu.isName_word, beq_self_eq_true, Bool.and_self, if_true]
    exact ⟨rfl, hus⟩
  | inward =>
    obtain ⟨t, us, ht, hus, rfl⟩ := List.forall₂_cons_right_iff.mp h
    obtain ⟨u, vs, hu, hvs, rfl⟩ := List.forall₂_cons_right_iff.mp hus
    have hin : ("in" == "out") = false := by decide
    simp only [takeVariance, ht.isWord_word, hu.isName_word, hin, beq_self_eq_true, Bool.and_self, Bool.false_and,
      Bool.false_eq_true, if_true, if_false]
    exact ⟨rfl, hus⟩

theorem typeArg_type {t : Token} {ts : List Token} (hstar : t.isMark '*' = false) {p}
    (hp : typeRef (takeVariance (t :: ts)).rest = .ok p) : ∃ q, typeArg (t :: ts) = .ok q ∧
      q.value = .type (takeVariance (t :: ts)).value p.value ∧ q.rest = p.rest := by
  rw [typeArg, if_neg (by simp [hstar])]
  simp only [bind, Except.bind]
  rw [hp]
  exact ⟨_, rfl, rfl, rfl⟩

theorem typeArgList_more {p : Parsed (TypeArg TypeRef) ts.length} (hp : typeArg ts = .ok p) {t : Token} {us : List Token}
    (hus : p.rest = t :: us) (hcomma : t.isMark ',') {q} (hq : typeArgList us = .ok q) :
    ∃ r, typeArgList ts = .ok r ∧ r.value = p.value :: q.value ∧ r.rest = q.rest := by
  obtain ⟨arg, _, hlt⟩ := p
  subst hus
  rw [typeArgList, hp]
  simp only [bind, Except.bind, hcomma, if_true]
  rw [hq]
  exact ⟨_, rfl, rfl, rfl⟩

theorem typeArgList_last {p : Parsed (TypeArg TypeRef) ts.length} (hp : typeArg ts = .ok p) {t : Token} {us : List Token}
    (hus : p.rest = t :: us) (hcomma : t.isMark ',' = false) (hangle : t.isMark '>') :
    ∃ r, typeArgList ts = .ok r ∧ r.value = [p.value] ∧ r.rest = us := by
  obtain ⟨arg, _, hlt⟩ := p
  subst hus
  rw [typeArgList, hp]
  simp only [bind, Except.bind, hcomma, Bool.false_eq_true, if_false, hangle, if_true]
  exact ⟨_, rfl, rfl, rfl⟩

theorem typeArg_reads {a : TypeArg TypeRef} (hrest : FollowsType rest)
    (ha : ∀ v ty, a = .type v ty → ty.Simple ∧ Reads typeRef ty.lexemes rest (·.rewritten = ty.rewritten)) :
    Reads typeArg (TypeRef.argLexemes a) rest (TypeRef.rewrittenArg · = TypeRef.rewrittenArg a) := by
  intro ts h
  cases a with
  | star =>
    obtain ⟨t, us, ht, hus, rfl⟩ := List.forall₂_cons_right_iff.mp h
    refine ⟨.keep .star us, ?_, rfl, hus⟩
    rw [typeArg, if_pos (by simp [ht.isMark_mark])]
    rfl
  | type v ty =>
    obtain ⟨hty, hread⟩ := ha v ty rfl
    obtain ⟨w, c, us, hlexemes⟩ := hty.lexemes_append hrest
    rw [TypeRef.argLexemes, List.append_assoc, hlexemes] at h
    obtain ⟨hvalue, hfits⟩ := takeVariance_reads v h
    rw [← hlexemes] at hfits
    obtain ⟨p, hp, hrewritten, hrest⟩ := hread _ hfits
    obtain ⟨w', es', hword⟩ : ∃ w' es', v.lexemes ++ .word w :: .mark c :: us = .word w' :: es' := by
      cases v <;> exact ⟨_, _, rfl⟩
    rw [hword] at h
    obtain ⟨t, ts', ht, -, rfl⟩ := List.forall₂_cons_right_iff.mp h
    obtain ⟨q, hq, hqvalue, hqrest⟩ := typeArg_type (ht.isMark_word _) hp
    refine ⟨q, hq, ?_, by rwa [hqrest]⟩
    simp only [hqvalue, TypeRef.rewrittenArg, hvalue, hrewritten]

theorem typeArgList_reads {args : List (TypeArg TypeRef)} (hne : args ≠ [])
    (hargs : ∀ v ty, TypeArg.type v ty ∈ args → ty.Simple ∧
      ∀ {rest}, FollowsType rest → Reads typeRef ty.lexemes rest (·.rewritten = ty.rewritten)) :
    Reads typeArgList (TypeRef.argsLexemes args ++ [.mark '>']) rest
      (TypeRef.rewrittenArgs · = TypeRef.rewrittenArgs args) := by
  induction args with
  | nil => exact absurd rfl hne
  | cons a as ih =>
    intro ts h
    have ha {rest} (hrest : FollowsType rest) := typeArg_reads (a := a) hrest fun v ty hty =>
      (hargs v ty (hty ▸ List.mem_cons_self)).imp_right fun hread => hread hrest
    cases as with
    | nil =>
      obtain ⟨p, hp, hvalue, hfits⟩ := ha ⟨rest, .inr (.inl rfl)⟩ ts (by simpa [TypeRef.argsLexemes] using h)
      obtain ⟨t, us, ht, hus, hts⟩ := List.forall₂_cons_right_iff.mp hfits
      obtain ⟨r, hr, hrvalue, hrrest⟩ := typeArgList_last hp hts (by rw [ht.isMark_mark]; decide) (by rw [ht.isMark_mark]; decide)
      refine ⟨r, hr, ?_, by rwa [hrrest]⟩
      simp only [hrvalue, TypeRef.rewrittenArgs, hvalue]
    | cons b bs =>
      obtain ⟨p, hp, hvalue, hfits⟩ := ha ⟨TypeRef.argsLexemes (b :: bs) ++ .mark '>' :: rest, .inl rfl⟩ ts
        (by simpa [TypeRef.argsLexemes] using h)
      obtain ⟨t, us, ht, hus, hts⟩ := List.forall₂_cons_right_iff.mp hfits
      obtain ⟨q, hq, hqvalue, hqrest⟩ := ih (List.cons_ne_nil b bs)
        (fun v ty hty => hargs v ty (List.mem_cons_of_mem a hty)) us (by simpa using hus)
      obtain ⟨r, hr, hrvalue, hrrest⟩ := typeArgList_more hp hts (by rw [ht.isMark_mark]; decide) hq
      refine ⟨r, hr, ?_, by rwa [hrrest]⟩
      simp only [hrvalue, TypeRef.rewrittenArgs, hvalue, hqvalue]

theorem typeArgs_reads {args : List (TypeArg TypeRef)} {marks : List Char} (hrest : NotAt marks rest) (hangle : '<' ∈ marks)
    (hargs : ∀ v ty, TypeArg.type v ty ∈ args → ty.Simple ∧
      ∀ {rest}, FollowsType rest → Reads typeRef ty.lexemes rest (·.rewritten = ty.rewritten)) :
    Reads typeArgs (if args.isEmpty then [] else .mark '<' :: TypeRef.argsLexemes args ++ [.mark '>']) rest
      (TypeRef.rewrittenArgs · = TypeRef.rewrittenArgs args) := by
  intro ts h
  cases args with
  | nil => exact ⟨_, typeArgs_of_notAt h hrest hangle, rfl, h⟩
  | cons a as =>
    obtain ⟨t, us, ht, hus, rfl⟩ := List.forall₂_cons_right_iff.mp h
    obtain ⟨p, hp, hvalue, hfits⟩ := typeArgList_reads (List.cons_ne_nil a as) hargs us hus
    have hread : ∃ q, typeArgs (t :: us) = .ok q ∧ q.value = p.value ∧ q.rest = p.rest := by
      rw [typeArgs, if_pos (by rw [ht.isMark_mark]; decide), hp]
      exact ⟨_, rfl, rfl, rfl⟩
    obtain ⟨q, hq, hqvalue, hqrest⟩ := hread
    exact ⟨q, hq, by rwa [hqvalue], by rwa [hqrest]⟩

theorem typeRef_reads {ty : TypeRef} (hty : ty.Simple) (hrest : FollowsType rest) :
    Reads typeRef ty.lexemes rest (·.rewritten = ty.rewritten) := by
  induction hty generalizing rest with
  | @named name args nullable text hname hargs ih =>
    intro ts h
    rw [TypeRef.lexemes, List.append_assoc, List.append_assoc] at h
    have hnullable : NotAt ['.', '<'] ((if nullable then [.mark '?'] else []) ++ rest) := by
      cases nullable with
      | true => exact notAt_mark (by decide)
      | false => exact hrest.notAt.of_subset (by decide)
    have hmark : NotAt ['.'] ((if args.isEmpty then [] else .mark '<' :: TypeRef.argsLexemes args ++ [.mark '>']) ++
        ((if nullable then [.mark '?'] else []) ++ rest)) := by
      cases args with
      | nil => exact hnullable.of_subset (by decide)
      | cons a as => exact notAt_mark (by decide)
    obtain ⟨p₁, hp₁, hvalue₁, hfits₁⟩ := dottedName_reads .type (split_ne_nil '.' name) (.inl hmark) ts h
    obtain ⟨p₂, hp₂, hargs, hfits₂⟩ := typeArgs_reads hnullable (by decide)
      (fun v ty hmem => ⟨hargs v ty hmem, fun {rest} => ih v ty hmem⟩) p₁.rest hfits₁
    obtain ⟨hnull, hfits₃⟩ := takeMark_optional hfits₂ hrest.notAt (by decide)
    have hbound := otherBound_of_notAt hfits₃ hrest.notAt (by decide)
    obtain ⟨s, ss, hsplit⟩ := List.exists_cons_of_ne_nil (split_ne_nil '.' name)
    have hsuspend : (s == "suspend") = false := by
      rw [beq_eq_false_iff_ne]
      exact (hname s (hsplit ▸ List.mem_cons_self)).2
    rw [hsplit, pathLexemes] at h
    obtain ⟨t, us', ht, hus, rfl⟩ := List.forall₂_cons_right_iff.mp h
    obtain ⟨p, text', hp, hvalue, hprest⟩ := typeRef_named (ht.isMark_word _) (by rwa [ht.isWord_word]) (ht.isMark_word _)
      hp₁ hp₂ (receiverEnd_of_notAt hfits₂ hnullable (by decide)) hbound
    have hjoin : join "." (split '.' name) = name := join_split '.' name
    refine ⟨p, hp, ?_, by rwa [hprest]⟩
    simp only [hvalue, hnull, hvalue₁, hjoin]
    exact TypeRef.rewritten_named hargs name nullable text' text

end Counterpart.Kotlin
