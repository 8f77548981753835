/-
What generated declarations are made of, token by token, with the names marked that stand for something of the project.
`written_declarations` is the induction over a declaration: when the names are fit for the place where they stand, its lines are
cut into these tokens.
-/
import Counterpart.Proofs.Phrases
import Counterpart.Proofs.ReadBackClasses

namespace Counterpart.Code

open Kotlin Output Text Lexer
open List (Forall₂)

/-- The tokens of a text on its own, behind any gaps. -/
def cut (text : String) : List Lexeme :=
  match Lexer.tokens .between 0 text.toList with
  | .ok (ts, _) => ts.map Token.bare
  | .error _ => []

theorem map_bare_cut (text : String) : (cut text).map Lexeme.bare = cut text := by
  rw [cut]
  split
  next =>
    rw [List.map_map]
    rfl
  next => rfl

theorem Piece.cut_eq {text : String} {es : List Lexeme} (h : Piece text es) : cut text = es.map Lexeme.bare := by
  have hlexes := h [] [] (by rintro _ ⟨⟩) .nil
  rw [List.append_nil, List.append_nil] at hlexes
  obtain ⟨ts, tail, htokens, hfits⟩ := hlexes.tokens 0
  rw [cut, htokens]
  exact map_bare_of_fits hfits

/-- A piece is cut into the tokens that it is cut into on its own. -/
theorem Piece.cut {text : String} {es : List Lexeme} (h : Piece text es) : Piece text (Code.cut text) := by
  rw [h.cut_eq]
  exact fun cs us hcs hus => (h cs us hcs hus).bare

/-- The same of a phrase. -/
theorem Phrase.cut {text : String} {es : List Lexeme} (h : Phrase text es) : Phrase text (Code.cut text) := by
  rw [h.piece.cut_eq]
  exact fun cs us hcs hus => (h cs us hcs hus).bare

/-- A piece of generated code. -/
inductive Emitted
  /-- A token of the code around the names. -/
  | token (e : Lexeme)
  /-- A text that was put together elsewhere, such as a type. -/
  | text (s : String)
  /-- Such a text, or none, right behind a name. -/
  | behind (s : String)
  /-- A name in quotes when it is reserved. -/
  | safe (name : String)
  /-- A name in a dotted name that is quoted segment by segment. -/
  | path (name : String)
  /-- A name as it is. -/
  | bare (name : String)
deriving DecidableEq

namespace Emitted

def word (w : String) : Emitted := token (.word w)

def mark (c : Char) : Emitted := token (.mark c)

/-- The name that a piece stands for and what is written for it. -/
def named? : Emitted → Option (String × String)
  | safe name => some (name, safeName name)
  | path name => some (name, safePath name)
  | bare name => some (name, name)
  | _ => none

def lexemes : Emitted → List Lexeme
  | token e => [e]
  | text s | behind s => cut s
  | safe name => [.word (safeName name)]
  | path name => [.word (safePath name)]
  | bare name => [.word name]

/-- Whether a text is cut as it is on its own, wherever it stands. -/
def Closed : Emitted → Prop
  | text s => Phrase s (cut s)
  | behind s => Opens s ∧ Phrase s (cut s)
  | _ => True

/-- Whether a name needs no quotes, but for a keyword where it gets them. -/
def Sound : Emitted → Prop
  | safe name | path name => Name.isPlain name
  | bare name => Name.isPlain name ∧ isReserved name = false
  | _ => True

/-- Whether what is written for a name reads as the name, and not as a keyword. -/
def Reads (e : Emitted) : Prop :=
  ∀ x ∈ e.named?, Name.unquote x.2 = x.1 ∧ isReserved x.2 = false

theorem lexemes_of_named? {e : Emitted} {name written : String} (h : (name, written) ∈ e.named?) :
    e.lexemes = [.word written] := by
  cases e <;> cases h <;> rfl

theorem phrase_of_sound {e : Emitted} (h : e.Sound) {name written : String} (hname : (name, written) ∈ e.named?) :
    written = safeName name ∧ Name.isPlain name := by
  cases e <;> cases hname
  · exact ⟨rfl, h⟩
  · exact ⟨safePath_of_isPlain h, h⟩
  · refine ⟨?_, h.1⟩
    rw [safeName, h.2, if_neg Bool.false_ne_true]

theorem reads_of_sound {e : Emitted} (h : e.Sound) : e.Reads := by
  rintro ⟨name, written⟩ hname
  obtain ⟨rfl, hplain⟩ := phrase_of_sound h hname
  simp only [safeName]
  split
  next hreserved =>
    have htext : ("`" ++ name ++ "`").toList = '\x60' :: (name.toList ++ ['\x60']) := by simp
    refine ⟨by rw [unquote_quoted htext, String.ofList_toList], ?_⟩
    by_contra hquoted
    rw [Bool.not_eq_false] at hquoted
    exact ne_quote_of_isPlain (isPlain_of_isReserved hquoted) '\x60' (by rw [htext]; rfl) rfl
  next hfree => exact ⟨unquote_of_isPlain hplain, by simpa using hfree⟩

theorem ne_quoted (ds : List Char) : (String.ofList ds).toList ≠ '\x60' :: (ds ++ ['\x60']) := by
  intro h
  have := congrArg List.length h
  rw [String.toList_ofList, List.length_cons, List.length_append] at this
  omega

/-- A text in quotes is written for a plain name only when that is reserved. -/
theorem isPlain_of_quoted {name : String} {ds : List Char} (hds : '\x60' ∉ ds) (hname : String.ofList ds = name)
    (h : (safePath name).toList = '\x60' :: (ds ++ ['\x60'])) : Name.isPlain name := by
  obtain ⟨s, ss, hsplit⟩ := List.exists_cons_of_ne_nil (split_ne_nil '.' name)
  have hjoin := join_split '.' name
  rw [hsplit] at hjoin
  rw [safePath, hsplit, List.map_cons] at h
  have hquote : '\x60' ∉ s.toList := by
    intro hs
    apply hds
    rw [← String.toList_ofList (l := ds), hname, ← hjoin]
    cases ss with
    | nil => exact hs
    | cons =>
      rw [join_cons (List.cons_ne_nil _ _), String.toList_append, String.toList_append]
      exact List.mem_append_left _ (List.mem_append_left _ hs)
  have hreserved : isReserved s = true := by
    by_contra hfree
    have hstart : (join "." (safeName s :: ss.map safeName)).toList.head? = some '\x60' := by rw [h]; rfl
    rw [safeName, if_neg hfree] at hstart
    cases ss with
    | nil => exact hquote (List.mem_of_mem_head? hstart)
    | cons =>
      rw [List.map_cons, join_cons (List.cons_ne_nil _ _), String.toList_append, String.toList_append] at hstart
      cases hs : s.toList with
      | nil =>
        rw [hs] at hstart
        cases hstart
      | cons c cs =>
        rw [hs] at hstart
        cases hstart
        rw [hs] at hquote
        exact hquote List.mem_cons_self
  cases ss with
  | nil =>
    rw [← hjoin]
    exact isPlain_of_isReserved hreserved
  | cons t ts =>
    -- The quote behind the first segment stands where the name has its dot.
    rw [← String.toList_ofList (l := ds), hname, ← hjoin] at h
    rw [safeName, if_pos hreserved, List.map_cons, join_cons (List.cons_ne_nil _ _), join_cons (List.cons_ne_nil _ _)] at h
    simp only [String.toList_append, List.append_assoc] at h
    have h' : s.toList ++ ('\x60' :: '.' :: _) = s.toList ++ ('.' :: _) := (List.cons.inj h).2
    cases (List.append_cancel_left h')

theorem sound_of_reads {e : Emitted} (h : e.Reads) (htext : ∀ x ∈ e.named?, IsNameText x.2) : e.Sound := by
  have split {name written : String} (hname : (name, written) ∈ e.named?) :
      written = name ∧ Name.isPlain name ∧ isReserved name = false ∨
        ∃ ds, '\x60' ∉ ds ∧ String.ofList ds = name ∧ written.toList = '\x60' :: (ds ++ ['\x60']) := by
    have hunquote : Name.unquote written = name := (h _ hname).1
    have hfree : isReserved written = false := (h _ hname).2
    have hwritten : IsNameText written := htext _ hname
    rcases hwritten with hplain | ⟨ds, hds, hnot⟩
    · rw [unquote_of_isPlain hplain] at hunquote
      subst hunquote
      exact .inl ⟨rfl, hplain, hfree⟩
    · rw [unquote_quoted hds] at hunquote
      exact .inr ⟨ds, hnot, hunquote, hds⟩
  cases e with
  | token | text | behind => trivial
  | safe name =>
    rcases split rfl with ⟨-, hplain, -⟩ | ⟨ds, -, rfl, hwritten⟩
    · exact hplain
    · rw [safeName] at hwritten
      split at hwritten
      next hreserved => exact isPlain_of_isReserved hreserved
      next => exact absurd hwritten (ne_quoted ds)
  | path name =>
    rcases split rfl with ⟨-, hplain, -⟩ | ⟨ds, hnot, hname, hwritten⟩
    · exact hplain
    · exact isPlain_of_quoted hnot hname hwritten
  | bare name =>
    rcases split rfl with ⟨-, hplain⟩ | ⟨ds, -, rfl, hwritten⟩
    · exact hplain
    · exact absurd hwritten (ne_quoted ds)

end Emitted

/-! ## Pieces in order -/

/-- Whether a text is a phrase of these pieces, if they are fit for where they stand. -/
def Shows (text : String) (es : List Emitted) : Prop :=
  (∀ e ∈ es, e.Closed ∧ e.Sound) → Phrase text (es.flatMap Emitted.lexemes)

theorem lexemes_tokens (es : List Lexeme) : (es.map Emitted.token).flatMap Emitted.lexemes = es := by
  rw [List.flatMap_map]
  exact List.flatMap_singleton' es

theorem lexemes_flatten (ess : List (List Emitted)) :
    ess.flatten.flatMap Emitted.lexemes = (ess.map (·.flatMap Emitted.lexemes)).flatten := by
  induction ess with
  | nil => rfl
  | cons es ess ih => rw [List.flatten_cons, List.flatMap_append, List.map_cons, List.flatten_cons, ih]

namespace Shows

variable {text text' : String} {es es' : List Emitted}

theorem empty : Shows "" [] := fun _ => .empty

theorem ofText (s : String) : Shows s [.text s] := by
  intro h
  have hs : Phrase s (cut s) := (h _ List.mem_cons_self).1
  rwa [List.flatMap_singleton]

theorem ofName {e : Emitted} {name written : String} (he : (name, written) ∈ e.named?) : Shows written [e] := by
  intro h
  obtain ⟨rfl, hplain⟩ := Emitted.phrase_of_sound (h _ List.mem_cons_self).2 he
  rw [List.flatMap_singleton, Emitted.lexemes_of_named? he]
  exact .safeName hplain

theorem ofBlock {gs : List Lexeme} (h : Block text gs) : Shows text (gs.map .token) := by
  intro _
  rw [lexemes_tokens]
  exact h.phrase

theorem ofWord {w : String} (hw : Name.isPlain w) : Shows w [.word w] := fun _ => .word hw

theorem append (h : Shows text es) (h' : Shows text' es') (hopens : Opens text') : Shows (text ++ text') (es ++ es') := by
  intro hes
  obtain ⟨hl, hr⟩ := List.forall_mem_append.mp hes
  rw [List.flatMap_append]
  exact (h hl).append (h' hr) hopens

/-- A text behind a name, if there is one. -/
theorem behind (h : Shows text es) (s : String) : Shows (text ++ s) (es ++ [.behind s]) := by
  intro hes
  obtain ⟨hl, hr⟩ := List.forall_mem_append.mp hes
  obtain ⟨hopens, hphrase⟩ := (hr _ List.mem_cons_self).1
  rw [List.flatMap_append, List.flatMap_singleton]
  exact (h hl).append hphrase hopens

theorem glue {glue : String} {gs : List Lexeme} (h : Shows text es) (hglue : Block glue gs) {c : Char} {cs : List Char}
    (hstart : glue.toList = c :: cs) (hc : isNameChar c = false) (h' : Shows text' es') :
    Shows (text ++ (glue ++ text')) (es ++ (gs.map .token ++ es')) := by
  intro hes
  obtain ⟨hl, hes⟩ := List.forall_mem_append.mp hes
  obtain ⟨-, hr⟩ := List.forall_mem_append.mp hes
  rw [List.flatMap_append, List.flatMap_append, lexemes_tokens]
  exact (h hl).glue hglue hstart hc (h' hr)

theorem after {glue : String} {gs : List Lexeme} (hglue : Block glue gs) (h : Shows text es) :
    Shows (glue ++ text) (gs.map .token ++ es) := by
  intro hes
  rw [List.flatMap_append, lexemes_tokens]
  exact hglue.append_phrase (h (List.forall_mem_append.mp hes).2)

end Shows

/-- Pieces with a comma between each two and `final` behind the last. -/
def listed (final : List Lexeme) : List (List Emitted) → List Emitted
  | [] => []
  | [es] => es ++ final.map .token
  | es :: ess => es ++ .mark ',' :: listed final ess

theorem mem_listed {final : List Lexeme} {ess : List (List Emitted)} {es : List Emitted} {e : Emitted} (hes : es ∈ ess)
    (he : e ∈ es) : e ∈ listed final ess := by
  induction ess with
  | nil => cases hes
  | cons es' ess ih =>
    cases ess with
    | nil =>
      cases List.mem_singleton.mp hes
      exact List.mem_append_left _ he
    | cons =>
      rw [listed]
      · rcases List.mem_cons.mp hes with rfl | hes
        · exact List.mem_append_left _ he
        · exact List.mem_append_right _ (List.mem_cons_of_mem _ (ih hes))
      · exact List.cons_ne_nil _ _

theorem lexemes_commas (trailing : Bool) (ess : List (List Emitted)) :
    (listed (if trailing then [.mark ','] else []) ess).flatMap Emitted.lexemes =
      commaLexemes trailing (ess.map (·.flatMap Emitted.lexemes)) := by
  induction ess with
  | nil => rfl
  | cons es ess ih =>
    cases ess with
    | nil => rw [listed, List.flatMap_append, lexemes_tokens]; rfl
    | cons =>
      rw [listed, List.flatMap_append, List.flatMap_cons, ih]
      · rfl
      · exact List.cons_ne_nil _ _

theorem lexemes_constants (hasMembers : Bool) {ess : List (List Emitted)} (hne : ess ≠ []) :
    (listed [.mark (if hasMembers then ';' else ',')] ess).flatMap Emitted.lexemes =
      constantLexemes hasMembers (ess.map (·.flatMap Emitted.lexemes)) := by
  induction ess with
  | nil => exact absurd rfl hne
  | cons es ess ih =>
    cases ess with
    | nil => rw [listed, List.flatMap_append, lexemes_tokens]; rfl
    | cons =>
      rw [listed, List.flatMap_append, List.flatMap_cons, ih (List.cons_ne_nil _ _)]
      · rfl
      · exact List.cons_ne_nil _ _

/-! ## Declarations -/

namespace Emitted

def ofProperty (p : Param) : List Emitted :=
  [word (if p.mutable then "var" else "val"), safe p.name, mark ':', text p.ty]

def ofHeader (d : Declaration) : List Emitted :=
  (keywordLexemes d.kind).map token ++ [safe d.name, behind ((writtenTypeParams d).getD "")]

def ofConstructor (d : Declaration) (opens : Bool) : List Emitted :=
  if d.params.isEmpty then []
  else mark '(' :: (listed (if trails d opens then [.mark ','] else []) (d.params.map ofProperty) ++ [mark ')'])

def ofConstant (e : EnumEntry) : List Emitted := [safe e.name, behind (e.args.getD "")]

/-- The constants of an enum; where there are none, a semicolon when members follow. -/
def ofConstants (d : Declaration) : List Emitted :=
  if d.kind = .enum then
    if d.entries.isEmpty then if d.nested.isEmpty then [] else [mark ';']
    else listed [.mark (if d.nested.isEmpty then ',' else ';')] (d.entries.map ofConstant)
  else []

/-- Whether a declaration has a body. -/
def hasBody (d : Declaration) : Bool := !((if d.kind = .enum then d.entries else []).isEmpty && d.nested.isEmpty)

mutual

def ofDeclaration : Declaration → List Emitted
  | ⟨name, kind, source, typeParams, params, entries, nested⟩ =>
    let d : Declaration := ⟨name, kind, source, typeParams, params, entries, nested⟩
    ofHeader d ++ ofConstructor d (hasBody d) ++
      if hasBody d then mark '\x7b' :: (ofConstants d ++ ofDeclarations nested ++ [mark '\x7d']) else []

def ofDeclarations : List Declaration → List Emitted
  | [] => []
  | d :: ds => ofDeclaration d ++ ofDeclarations ds

end

end Emitted

theorem block_space : Block " " [] := fun _ _ h => .blank (by decide) h

theorem block_colon : Block ": " [.mark ':'] := fun _ _ h => .mark (by decide) (.blank (by decide) h)

theorem shows_property (p : Param) : Shows (propertyText p) (Emitted.ofProperty p) := by
  rw [propertyText_eq]
  exact (Shows.ofWord (isPlain_propertyKeyword p.mutable)).glue block_space rfl (by decide)
    ((Shows.ofName (e := .safe p.name) rfl).glue block_colon rfl (by decide) (.ofText p.ty))

theorem shows_header (d : Declaration) : Shows (headerText d) (Emitted.ofHeader d) := by
  have hkeyword : Block ((classKind d.kind).keyword ++ " ") (keywordLexemes d.kind) := by
    intro cs us h
    rw [String.toList_append, List.append_assoc]
    exact lexes_keyword d.kind h
  rw [headerText_eq, ← String.append_assoc]
  exact .after hkeyword ((Shows.ofName (e := .safe d.name) rfl).behind _)

theorem shows_constant (e : EnumEntry) : Shows (safeName e.name ++ e.args.getD "") (Emitted.ofConstant e) :=
  (Shows.ofName (e := .safe e.name) rfl).behind _

/-- The items of a list that is fit are fit. -/
theorem forall₂_of_listed {α : Type} {R : α → List Lexeme → Prop} {f : α → List Emitted} {xs : List α} {final : List Lexeme}
    (h : ∀ e ∈ listed final (xs.map f), e.Closed ∧ e.Sound)
    (hR : ∀ x ∈ xs, (∀ e ∈ f x, e.Closed ∧ e.Sound) → R x ((f x).flatMap Emitted.lexemes)) :
    Forall₂ R xs ((xs.map f).map (·.flatMap Emitted.lexemes)) := by
  rw [List.map_map, List.forall₂_map_right_iff, List.forall₂_same]
  intro x hx
  exact hR x hx fun e he => h e (mem_listed (List.mem_map_of_mem hx) he)

theorem lexemes_ofConstants {d : Declaration} (hkind : d.kind = .enum) :
    (Emitted.ofConstants d).flatMap Emitted.lexemes =
      constantLexemes (!d.nested.isEmpty) ((d.entries.map Emitted.ofConstant).map (·.flatMap Emitted.lexemes)) := by
  rw [Emitted.ofConstants, if_pos hkind]
  cases hentries : d.entries with
  | nil => cases d.nested.isEmpty <;> rfl
  | cons e es =>
    rw [← lexemes_constants _ (by simp)]
    cases d.nested.isEmpty <;> rfl

theorem written_ofConstants {d : Declaration} (h : ∀ e ∈ Emitted.ofConstants d, e.Closed ∧ e.Sound) :
    Written (constantFragments d) ((Emitted.ofConstants d).flatMap Emitted.lexemes) ∧
      (constantFragments d).isEmpty = ((Emitted.ofConstants d).flatMap Emitted.lexemes).isEmpty ∧
      (((Emitted.ofConstants d).flatMap Emitted.lexemes).isEmpty && d.nested.isEmpty) = !Emitted.hasBody d := by
  rw [Emitted.hasBody, Bool.not_not]
  by_cases hkind : d.kind = .enum
  · rw [lexemes_ofConstants hkind, constantFragments, if_pos hkind, if_pos hkind, constantLexemes_isEmpty,
      List.isEmpty_map, List.isEmpty_map]
    refine ⟨written_constants ?_, ?_, ?_⟩
    · rw [Emitted.ofConstants, if_pos hkind] at h
      cases hentries : d.entries with
      | nil => exact .nil
      | cons e es =>
        rw [hentries, List.isEmpty_cons, if_neg Bool.false_ne_true] at h
        exact forall₂_of_listed h fun e _ he => (shows_constant e he).piece
    · rw [List.isEmpty_map, constantLines_isEmpty]
    · rw [List.isEmpty_map]
      cases d.entries.isEmpty <;> cases d.nested.isEmpty <;> rfl
  · rw [constantFragments, Emitted.ofConstants, if_neg hkind, if_neg hkind, if_neg hkind]
    exact ⟨.nil, rfl, rfl⟩

theorem ofDeclarations_eq (ds : List Declaration) : Emitted.ofDeclarations ds = (ds.map Emitted.ofDeclaration).flatten := by
  induction ds with
  | nil => rfl
  | cons d ds ih => rw [Emitted.ofDeclarations, ih, List.map_cons, List.flatten_cons]

theorem ofDeclaration_eq (d : Declaration) : Emitted.ofDeclaration d =
    Emitted.ofHeader d ++ Emitted.ofConstructor d (Emitted.hasBody d) ++
      if Emitted.hasBody d then
        .mark '\x7b' :: (Emitted.ofConstants d ++ (d.nested.map Emitted.ofDeclaration).flatten ++ [.mark '\x7d'])
      else [] := by
  cases d
  rw [Emitted.ofDeclaration, ofDeclarations_eq]

theorem lexemes_ofConstructor (d : Declaration) (opens : Bool) :
    (Emitted.ofConstructor d opens).flatMap Emitted.lexemes =
      constructorLexemes (trails d opens) ((d.params.map Emitted.ofProperty).map (·.flatMap Emitted.lexemes)) := by
  rw [Emitted.ofConstructor, constructorLexemes, List.isEmpty_map, List.isEmpty_map]
  split
  next => rfl
  next =>
    rw [List.flatMap_cons, List.flatMap_append, lexemes_commas]
    rfl

/-- The properties of a constructor that is fit are fit. -/
theorem forall₂_of_constructor {d : Declaration} {opens : Bool} (h : ∀ e ∈ Emitted.ofConstructor d opens, e.Closed ∧ e.Sound) :
    Forall₂ (fun p es => Piece (propertyText p) es) d.params
      ((d.params.map Emitted.ofProperty).map (·.flatMap Emitted.lexemes)) := by
  rw [Emitted.ofConstructor] at h
  cases hps : d.params with
  | nil => exact .nil
  | cons p ps =>
    rw [hps, List.isEmpty_cons, if_neg Bool.false_ne_true] at h
    have hlisted := (List.forall_mem_append.mp (List.forall_mem_cons.mp h).2).1
    exact forall₂_of_listed hlisted fun p _ hp => (shows_property p hp).piece

/-- The constants and the nested declarations of a body that is fit are fit; without a body there are none. -/
theorem fit_of_body {d : Declaration} (h : ∀ e ∈ if Emitted.hasBody d then
      .mark '\x7b' :: (Emitted.ofConstants d ++ (d.nested.map Emitted.ofDeclaration).flatten ++ [.mark '\x7d']) else [],
      e.Closed ∧ e.Sound) :
    (∀ e ∈ Emitted.ofConstants d, e.Closed ∧ e.Sound) ∧ ∀ e ∈ Emitted.ofDeclarations d.nested, e.Closed ∧ e.Sound := by
  rw [ofDeclarations_eq]
  cases hopens : Emitted.hasBody d with
  | true =>
    rw [hopens, if_pos rfl] at h
    have hbody := (List.forall_mem_append.mp (List.forall_mem_cons.mp h).2).1
    exact List.forall_mem_append.mp hbody
  | false =>
    rw [Emitted.hasBody, Bool.not_eq_false', Bool.and_eq_true, List.isEmpty_iff, List.isEmpty_iff] at hopens
    rw [Emitted.ofConstants, hopens.2]
    refine ⟨?_, by simp⟩
    split
    next henum =>
      rw [if_pos henum] at hopens
      simp [hopens.1]
    next => simp

theorem lexemes_ofDeclaration_ne_nil (d : Declaration) : (Emitted.ofDeclaration d).flatMap Emitted.lexemes ≠ [] := by
  rw [ofDeclaration_eq, Emitted.ofHeader, List.append_assoc, List.append_assoc, List.flatMap_append, lexemes_tokens]
  cases d.kind <;> exact List.cons_ne_nil _ _

mutual

/-- **A declaration is cut into its pieces**, when these are fit for where they stand. -/
theorem written_ofDeclaration : ∀ d : Declaration, (∀ e ∈ Emitted.ofDeclaration d, e.Closed ∧ e.Sound) →
    Written (fragmentsOf d) ((Emitted.ofDeclaration d).flatMap Emitted.lexemes)
  | ⟨name, kind, source, typeParams, params, entries, nested⟩, h => by
    have hinner := written_ofDeclarations nested
    generalize hd : (⟨name, kind, source, typeParams, params, entries, nested⟩ : Declaration) = d at h ⊢
    have hnested : nested = d.nested := by rw [← hd]
    rw [hnested] at hinner
    clear hd hnested
    rw [ofDeclaration_eq] at h ⊢
    obtain ⟨h, hbody⟩ := List.forall_mem_append.mp h
    obtain ⟨hheader, hconstructor⟩ := List.forall_mem_append.mp h
    have hparams := forall₂_of_constructor hconstructor
    have hparts := fit_of_body hbody
    obtain ⟨hconstants, hempty, hbody⟩ := written_ofConstants hparts.1
    have hne : ∀ es ∈ d.nested.map fun n => (Emitted.ofDeclaration n).flatMap Emitted.lexemes, es ≠ [] := by
      intro es hes
      obtain ⟨n, -, rfl⟩ := List.mem_map.mp hes
      exact lexemes_ofDeclaration_ne_nil n
    have hwritten := written_declaration (shows_header d hheader).piece hparams hconstants hempty (hinner hparts.2) hne
    have hflatten : (d.nested.map fun n => (Emitted.ofDeclaration n).flatMap Emitted.lexemes).flatten =
        (d.nested.map Emitted.ofDeclaration).flatten.flatMap Emitted.lexemes := by
      rw [lexemes_flatten, List.map_map]
      rfl
    rw [bodyLexemes, isEmpty_flatten_of_ne hne, List.isEmpty_map, hbody, Bool.not_not, hflatten] at hwritten
    rw [List.flatMap_append, List.flatMap_append, lexemes_ofConstructor, List.append_assoc]
    cases hopens : Emitted.hasBody d with
    | true =>
      rw [hopens] at hwritten
      simpa [Emitted.lexemes, Emitted.mark] using hwritten
    | false =>
      rw [hopens] at hwritten
      simpa using hwritten

theorem written_ofDeclarations : ∀ ds : List Declaration, (∀ e ∈ Emitted.ofDeclarations ds, e.Closed ∧ e.Sound) →
    Forall₂ (fun d es => Written (fragmentsOf d) es) ds (ds.map fun d => (Emitted.ofDeclaration d).flatMap Emitted.lexemes)
  | [], _ => .nil
  | d :: ds, h => by
    rw [Emitted.ofDeclarations] at h
    obtain ⟨hd, hds⟩ := List.forall_mem_append.mp h
    exact .cons (written_ofDeclaration d hd) (written_ofDeclarations ds hds)

end

end Counterpart.Code
