/-
Declarations are read back as they are written. `exists_written` gives, by induction over a readable declaration, the tokens
that its lines are cut into and that `classTree` makes a class with the same outline of.
-/
import Counterpart.Proofs.ReadingClasses

namespace Counterpart.Kotlin

/-! ## Outlines -/

/-- What a declaration and a class of a source have in common. A field is its name, whether it can be set, and its type. -/
inductive Outline
  | mk (name : String) (kind : ClassKind) (typeParams : Option String) (fields : List (String × Bool × String))
      (entries : List EnumEntry) (nested : List Outline)

mutual

def ClassTree.outline : ClassTree → Outline
  | ⟨name, kind, typeParams, fields, entries, nested, _⟩ =>
    .mk name kind typeParams (fields.map Field.outline) entries (ClassTree.outlines nested)

def ClassTree.outlines : List ClassTree → List Outline
  | [] => []
  | c :: cs => c.outline :: ClassTree.outlines cs

end

end Counterpart.Kotlin

namespace Counterpart.Output

open Kotlin

def Param.outline (p : Param) : String × Bool × String := (p.name, p.mutable, p.ty)

mutual

/-- Type parameters are those of classes, entries those of enums. -/
def Declaration.outline : Declaration → Outline
  | ⟨name, kind, _, typeParams, params, entries, nested⟩ =>
    .mk name (classKind kind) (if kind = .enum then none else typeParams) (params.map Param.outline)
      (if kind = .enum then entries else []) (Declaration.outlines nested)

def Declaration.outlines : List Declaration → List Outline
  | [] => []
  | d :: ds => d.outline :: Declaration.outlines ds

end

theorem Declaration.outline_eq (d : Declaration) : d.outline = .mk d.name (classKind d.kind)
    (if d.kind = .enum then none else d.typeParams) (d.params.map Param.outline)
    (if d.kind = .enum then d.entries else []) (Declaration.outlines d.nested) := by
  cases d
  rfl

theorem Declaration.outlines_eq_map (ds : List Declaration) : Declaration.outlines ds = ds.map Declaration.outline := by
  induction ds with
  | nil => rfl
  | cons d ds ih => rw [Declaration.outlines, ih, List.map_cons]

/-! ## Readable declarations -/

structure Param.Readable (p : Param) : Prop where
  name : Name.isPlain p.name
  ty : ∃ ty : TypeRef, ty.Simple ∧ p.ty = ty.render

inductive Declaration.Readable : Declaration → Prop
  | intro {d : Declaration} (name : Name.isPlain d.name) (free : d.name ≠ "init" ∧ d.name ≠ "constructor")
      (typeParams : ∀ text ∈ d.typeParams, isGroup typeParameters text) (params : ∀ p ∈ d.params, p.Readable)
      (entries : ∀ e ∈ d.entries, Name.isPlain e.name ∧ ∀ text ∈ e.args, isGroup entryArguments text)
      (nested : ∀ n ∈ d.nested, Readable n) : Readable d

end Counterpart.Output

namespace Counterpart.Code

open Kotlin Output Text Lexer
open List (Forall₂)

theorem exists_forall₂ {α β : Type} {R : α → β → Prop} {xs : List α} (h : ∀ x ∈ xs, ∃ y, R x y) : ∃ ys, Forall₂ R xs ys := by
  induction xs with
  | nil => exact ⟨[], .nil⟩
  | cons x xs ih =>
    obtain ⟨y, hy⟩ := h x List.mem_cons_self
    obtain ⟨ys, hys⟩ := ih fun z hz => h z (List.mem_cons_of_mem x hz)
    exact ⟨y :: ys, .cons hy hys⟩

theorem isEmpty_of_forall₂ {α β : Type} {R : α → β → Prop} {xs : List α} {ys : List β} (h : Forall₂ R xs ys) :
    xs.isEmpty = ys.isEmpty := by
  cases h <;> rfl

theorem piece_property {p : Param} (hname : Name.isPlain p.name) {ty : TypeRef} (hty : ty.Simple) (hrender : p.ty = ty.render) :
    Piece (propertyText p) (.word (if p.mutable then "var" else "val") :: .word (safeName p.name) :: .mark ':' :: ty.lexemes) := by
  intro cs us hcs h
  have hrest : Lexes ((safeName p.name ++ (": " ++ p.ty)).toList ++ cs) (.word (safeName p.name) :: .mark ':' :: ty.lexemes ++ us) := by
    rw [hrender]
    simp only [String.toList_append, List.append_assoc]
    exact .safeName hname (notNameChar_cons (by decide) _) (.mark (by decide) (.blank (by decide)
      (.type hty (hcs.notNameChar) h)))
  rw [propertyText_eq, String.toList_append, List.append_assoc, String.toList_append, List.append_assoc]
  exact .word_blank (isPlain_propertyKeyword p.mutable) (by decide) hrest

/-- Whether the lexemes are a property of a primary constructor, written and read. -/
def IsProperty (es : List Lexeme) (v : String × Bool × String) : Prop :=
  (∃ w us, es = .word w :: us) ∧ ∀ rest, FollowsType rest → Reads parameter es rest (Field.outline · = v)

theorem exists_property {p : Param} (h : p.Readable) : ∃ es, Piece (propertyText p) es ∧ IsProperty es p.outline := by
  obtain ⟨hname, ty, hty, hrender⟩ := h
  refine ⟨_, piece_property hname hty hrender, ⟨_, _, rfl⟩, fun rest hrest => ?_⟩
  rw [Param.outline, hrender]
  exact parameter_reads hname p.mutable hty hrest

theorem lexes_keyword (kind : DeclarationKind) {cs : List Char} {us : List Lexeme} (h : Lexes cs us) :
    Lexes ((classKind kind).keyword.toList ++ ' ' :: cs) (keywordLexemes kind ++ us) := by
  have hclass : Lexes ("class".toList ++ ' ' :: cs) (.word "class" :: us) := .word_blank (by decide) (by decide) h
  cases kind with
  | plain => exact hclass
  | data =>
    show Lexes ("data".toList ++ ' ' :: ("class".toList ++ ' ' :: cs)) (.word "data" :: _)
    exact .word_blank (by decide) (by decide) hclass
  | enum =>
    show Lexes ("enum".toList ++ ' ' :: ("class".toList ++ ' ' :: cs)) (.word "enum" :: _)
    exact .word_blank (by decide) (by decide) hclass

/-- The type parameters that a header has. -/
def writtenTypeParams (d : Declaration) : Option String :=
  if d.kind = .enum then none else d.typeParams

theorem headerText_eq (d : Declaration) :
    headerText d = (classKind d.kind).keyword ++ (" " ++ (safeName d.name ++ (writtenTypeParams d).getD "")) := by
  rw [headerText, writtenTypeParams]
  cases d.kind with
  | data | plain =>
    simp only [reduceCtorEq, if_false, ← String.append_assoc]
    rfl
  | enum =>
    simp only [if_true, Option.getD_none, String.append_empty, ← String.append_assoc]
    rfl

theorem exists_typeParams {typeParams : Option String} (h : ∀ text ∈ typeParams, isGroup typeParameters text) :
    ∃ es, (∀ name, Name.isPlain name → Piece (safeName name ++ typeParams.getD "") (.word (safeName name) :: es)) ∧
      ∀ rest, NotAt ['<'] rest → Reads typeParameters es rest (· = typeParams) := by
  cases typeParams with
  | none =>
    refine ⟨[], fun name hname cs us hcs h => ?_, fun rest hrest ts hts => ⟨_, typeParameters_none hts hrest, rfl, hts⟩⟩
    rw [Option.getD_none, String.append_empty]
    exact .safeName hname hcs.notNameChar h
  | some text =>
    obtain ⟨ts, ds, htokens, hds, hread⟩ := typeParameters_reads (h text rfl)
    refine ⟨lexemesOf ts, fun name hname cs us hcs h => ?_, fun rest _ => hread rest⟩
    have htext := Lexes.text htokens .nil hcs h
    rw [hds] at htext
    rw [Option.getD_some, String.toList_append, List.append_assoc, hds]
    exact .safeName hname (notNameChar_cons (by decide) _) htext

theorem exists_header {d : Declaration} (hname : Name.isPlain d.name) (h : ∀ text ∈ d.typeParams, isGroup typeParameters text) :
    ∃ es, Piece (headerText d) (keywordLexemes d.kind ++ .word (safeName d.name) :: es) ∧
      ∀ rest, NotAt ['<'] rest → Reads typeParameters es rest (· = writtenTypeParams d) := by
  have hwritten : ∀ text ∈ writtenTypeParams d, isGroup typeParameters text := by
    intro text htext
    rw [writtenTypeParams] at htext
    split at htext
    next => cases htext
    next => exact h text htext
  obtain ⟨es, hpiece, hread⟩ := exists_typeParams hwritten
  refine ⟨es, fun cs us hcs hus => ?_, hread⟩
  rw [headerText_eq, String.toList_append, String.toList_append, List.append_assoc, List.append_assoc, List.append_assoc]
  exact lexes_keyword d.kind (hpiece d.name hname cs us hcs hus)

/-! ## Entries -/

theorem exists_entry {e : EnumEntry} (hname : Name.isPlain e.name) (h : ∀ text ∈ e.args, isGroup entryArguments text) :
    ∃ es, Piece (safeName e.name ++ e.args.getD "") es ∧ IsEntry es e := by
  obtain ⟨name, args⟩ := e
  cases args with
  | none =>
    refine ⟨[.word (safeName name)], fun cs us hcs hus => ?_, hname, [], rfl, fun rest hrest ts hts =>
      ⟨_, entryArguments_none hts hrest, rfl, hts⟩⟩
    rw [Option.getD_none, String.append_empty]
    exact .safeName hname hcs.notNameChar hus
  | some text =>
    obtain ⟨ts, ds, htokens, hds, hread⟩ := entryArguments_reads (h text rfl)
    refine ⟨.word (safeName name) :: lexemesOf ts, fun cs us hcs hus => ?_, hname, lexemesOf ts, rfl, fun rest _ => hread rest⟩
    have htext := Lexes.text htokens .nil hcs hus
    rw [hds] at htext
    rw [Option.getD_some, String.toList_append, List.append_assoc, hds]
    exact .safeName hname (notNameChar_cons (by decide) _) htext

theorem written_constants {hasMembers : Bool} {entries : List EnumEntry} {ess : List (List Lexeme)}
    (h : Forall₂ (fun (e : EnumEntry) es => Piece (safeName e.name ++ e.args.getD "") es) entries ess) :
    Written ((constantLines hasMembers entries).map .line) (constantLexemes hasMembers ess) := by
  have hsemicolon : Piece ";" [.mark ';'] := by
    have := Piece.empty.mark_behind (c := ';') (by decide)
    rwa [String.empty_append] at this
  induction h with
  | nil =>
    cases hasMembers with
    | true => exact .line hsemicolon
    | false => exact .nil
  | @cons e es entries ess he hes ih =>
    have hcomma : Written [.line (constantText e ",")] (es ++ [.mark ',']) :=
      .line (he.mark_behind (c := ',') (by decide))
    cases hes with
    | nil =>
      cases hasMembers with
      | true => exact .line (he.mark_behind (c := ';') (by decide))
      | false => exact hcomma
    | cons =>
      rw [constantLines, constantLexemes, List.map_cons]
      · have := hcomma.append ih
        rwa [List.append_assoc] at this
      · exact List.cons_ne_nil _ _
      · exact List.cons_ne_nil _ _

/-! ## Classes -/

/-- Whether the lexemes are a class of this outline. -/
def IsClass (es : List Lexeme) (o : Outline) : Prop :=
  (∃ w us, es = .word w :: us ∧ w ∈ ["data", "enum", "class"]) ∧
    ∀ rest, FollowsHeader rest → NotAt ['\x7b'] rest → ∀ ts, Forall₂ Token.Fits ts (es ++ rest) →
      ∃ p, classTree ts = .ok (some p) ∧ p.value.outline = o ∧ Forall₂ Token.Fits p.rest rest

theorem followsHeader_of_isClass {es rest : List Lexeme} {o : Outline} (h : IsClass es o) :
    FollowsHeader (es ++ rest) ∧ NotAt ['\x7b'] (es ++ rest) := by
  obtain ⟨⟨w, us, rfl, hw⟩, -⟩ := h
  refine ⟨?_, notAt_word⟩
  rintro _ ⟨⟩
  simp only [List.mem_cons, List.not_mem_nil, or_false] at hw
  rcases hw with rfl | rfl | rfl <;> decide

theorem members_reads {ess : List (List Lexeme)} {os : List Outline} {rest : List Lexeme} (h : Forall₂ IsClass ess os)
    (hrest : rest = [] ∨ ∃ us, rest = .mark '\x7d' :: us) :
    Reads members ess.flatten rest (ClassTree.outlines · = os) := by
  have hend : FollowsHeader rest ∧ NotAt ['\x7b'] rest := by
    rcases hrest with rfl | ⟨us, rfl⟩
    · exact ⟨by rintro _ ⟨⟩, by rintro _ ⟨⟩⟩
    · exact ⟨by rintro _ ⟨⟩; decide, notAt_mark (by decide)⟩
  induction h with
  | nil =>
    intro ts hts
    exact ⟨_, members_end hts hrest, rfl, hts⟩
  | @cons es o ess os hes hess ih =>
    intro ts hts
    rw [List.flatten_cons, List.append_assoc] at hts
    have hnext : FollowsHeader (ess.flatten ++ rest) ∧ NotAt ['\x7b'] (ess.flatten ++ rest) := by
      cases hess with
      | nil => exact hend
      | cons hes' =>
        rw [List.flatten_cons, List.append_assoc]
        exact followsHeader_of_isClass hes'
    obtain ⟨p, hp, houtline, hfits⟩ := hes.2 _ hnext.1 hnext.2 ts hts
    obtain ⟨q, hq, houtlines, hqfits⟩ := ih p.rest hfits
    obtain ⟨⟨w, us, rfl, -⟩, -⟩ := hes
    obtain ⟨t, ts', ht, -, rfl⟩ := List.forall₂_cons_right_iff.mp hts
    obtain ⟨r, hr, hrvalue, hrrest⟩ := members_class ht hp hq
    exact ⟨r, hr, by simp only [hrvalue, ClassTree.outlines, houtline, houtlines], by rwa [hrrest]⟩

/-- A body in braces; none where nothing would stand in it. -/
def bodyLexemes (constants nested : List Lexeme) : List Lexeme :=
  if constants.isEmpty && nested.isEmpty then [] else .mark '\x7b' :: (constants ++ nested ++ [.mark '\x7d'])

theorem classBody_reads {kind : ClassKind} {constants rest : List Lexeme} {entries : List EnumEntry}
    {ess : List (List Lexeme)} {os : List Outline}
    (hentries : ∀ us, Reads (entriesOf kind) constants (ess.flatten ++ .mark '\x7d' :: us) (· = entries))
    (hempty : constants = [] → entries = []) (hess : Forall₂ IsClass ess os) (hrest : NotAt ['\x7b'] rest) (name : String) :
    Reads (classBody kind name) (bodyLexemes constants ess.flatten) rest
      fun v => v.1 = entries ∧ ClassTree.outlines v.2 = os := by
  intro ts hts
  rw [bodyLexemes] at hts
  split at hts
  next hnone =>
    rw [Bool.and_eq_true, List.isEmpty_iff, List.isEmpty_iff] at hnone
    refine ⟨_, classBody_none hts hrest, ⟨(hempty hnone.1).symm, ?_⟩, hts⟩
    cases hess with
    | nil => rfl
    | cons hes =>
      obtain ⟨⟨w, us, rfl, -⟩, -⟩ := hes
      simp at hnone
  next =>
    obtain ⟨t, us, ht, hus, rfl⟩ := List.forall₂_cons_right_iff.mp hts
    obtain ⟨p, hp, hvalue, hfits⟩ := hentries rest us (by simpa using hus)
    obtain ⟨q, hq, hvalues, hqfits⟩ := members_reads hess (.inr ⟨rest, rfl⟩) p.rest hfits
    obtain ⟨vs, hlt, hclose, hvs⟩ := takeMark_mark hqfits
    obtain ⟨r, hr, hrvalue, hrrest⟩ := classBody_some name ht hp hq hclose
    refine ⟨r, hr, ?_, by rwa [hrrest]⟩
    rw [hrvalue]
    exact ⟨hvalue, hvalues⟩

/-- The properties in parentheses; none where there are none. -/
def constructorLexemes (trailing : Bool) (ess : List (List Lexeme)) : List Lexeme :=
  if ess.isEmpty then [] else .mark '(' :: (commaLexemes trailing ess ++ [.mark ')'])

theorem isClass_of_parts (trailing : Bool) {name : String} {kind : DeclarationKind} {typeParams : Option String}
    {tps constants : List Lexeme} {pss ess : List (List Lexeme)} {fields : List (String × Bool × String)} {entries : List EnumEntry}
    {os : List Outline} (hname : Name.isPlain name) (hfree : name ≠ "init" ∧ name ≠ "constructor")
    (htps : ∀ rest, NotAt ['<'] rest → Reads typeParameters tps rest (· = typeParams))
    (hpss : Forall₂ IsProperty pss fields)
    (hentries : ∀ us, Reads (entriesOf (classKind kind)) constants (ess.flatten ++ .mark '\x7d' :: us) (· = entries))
    (hempty : constants = [] → entries = []) (hess : Forall₂ IsClass ess os) :
    IsClass (keywordLexemes kind ++ .word (safeName name) :: (tps ++ (constructorLexemes trailing pss ++
      bodyLexemes constants ess.flatten))) (.mk name (classKind kind) typeParams fields entries os) := by
  refine ⟨?_, fun rest hrest hopen ts hts => ?_⟩
  · cases kind <;> exact ⟨_, _, rfl, by decide⟩
  rw [List.append_assoc, List.cons_append, List.append_assoc, List.append_assoc] at hts
  have hbody : FollowsHeader (bodyLexemes constants ess.flatten ++ rest) := by
    rw [bodyLexemes]
    split
    next => exact hrest
    next => rintro _ ⟨⟩; decide
  have hconstructor : NotAt ['<'] (constructorLexemes trailing pss ++ (bodyLexemes constants ess.flatten ++ rest)) := by
    rw [constructorLexemes]
    split
    next => exact hbody.notAt.of_subset (by decide)
    next => exact notAt_mark (by decide)
  obtain ⟨p₀, keyword, us, hp₀, hkeyword, hkind, h₀⟩ := modifiers_reads kind hts
  obtain ⟨p₁, hp₁, htext, h₁⟩ := className_reads hname hfree (classKind kind) keyword h₀
  obtain ⟨p₂, hp₂, htypeParams, h₂⟩ := htps _ hconstructor _ h₁
  obtain ⟨p₃, hp₃, hfields, h₃⟩ := primaryConstructor_reads hpss hbody _ h₂
  obtain ⟨p₄, hp₄, ⟨hentries, hnested⟩, h₄⟩ := classBody_reads hentries hempty hess hopen (Name.unquote p₁.value.text) _ h₃
  obtain ⟨q, hq, hvalue, hqrest⟩ := classTree_ok hp₀ hkeyword hkind hp₁ hp₂ hp₃ (skipSupertypes_of_followsHeader h₃ hbody) hp₄
  refine ⟨q, hq, ?_, by rwa [hqrest]⟩
  rw [hvalue, ClassTree.outline, htext, htypeParams, hfields, hentries, hnested]

/-! ## Declarations -/

theorem Piece.append_blank {text text' : String} {es es' : List Lexeme} {c : Char} (h : Piece text es) (hc : isBlank c)
    (hsep : isNameChar c = false ∧ c ∉ ['.', '"', '>', '/', '*']) (h' : Piece text' es') :
    Piece (text ++ (String.singleton c ++ text')) (es ++ es') := by
  intro cs us hcs hus
  simp only [String.toList_append, String.toList_singleton, List.append_assoc]
  exact h _ _ (separates_cons hsep _) (.blank hc (h' cs us hcs hus))

/-- Whether a comma stands behind the last property. -/
def trails (d : Declaration) (opens : Bool) : Bool :=
  !(Listing.mk (headerText d) (d.params.map fun p => [propertyText p]) (if opens then " \x7b" else "")).fits

theorem written_constructor {d : Declaration} {hs : List Lexeme} {pss : List (List Lexeme)} (hheader : Piece (headerText d) hs)
    (hpss : Forall₂ (fun p es => Piece (propertyText p) es) d.params pss) (opens : Bool) :
    Written (constructorFragments d (if opens then " \x7b" else ""))
      (hs ++ (constructorLexemes (trails d opens) pss ++ if opens then [.mark '\x7b'] else [])) := by
  have hopen : Piece (String.singleton '\x7b') [.mark '\x7b'] := by
    have := Piece.empty.mark_behind (c := '\x7b') (by decide)
    rwa [String.empty_append] at this
  have hbrace : (if true then " \x7b" else "") = String.singleton ' ' ++ String.singleton '\x7b' := rfl
  have hafter : Piece (if opens then " \x7b" else "") (if opens then [.mark '\x7b'] else []) := by
    cases opens with
    | false => exact .empty
    | true =>
      rw [hbrace]
      have := Piece.empty.append_blank (c := ' ') (by decide) (by decide) hopen
      rwa [String.empty_append] at this
  rw [constructorFragments]
  by_cases hnone : d.params = []
  · rw [hnone] at hpss ⊢
    cases hpss
    simp only [List.isEmpty_nil, if_true, constructorLexemes, List.nil_append]
    cases opens with
    | false =>
      refine .line ?_
      simpa using hheader
    | true =>
      rw [hbrace]
      exact .line (hheader.append_blank (by decide) (by decide) hopen)
  · have hconstructor (trailing : Bool) :
        constructorLexemes trailing pss = .mark '(' :: (commaLexemes trailing pss ++ [.mark ')']) := by
      rw [constructorLexemes, if_neg]
      rw [List.isEmpty_iff]
      rintro rfl
      cases h : d.params with
      | nil => exact hnone h
      | cons p ps =>
        rw [h] at hpss
        cases hpss
    have hitems : Forall₂ Item (d.params.map fun p => [propertyText p]) pss :=
      List.forall₂_map_left_iff.mpr (hpss.imp fun _ _ h => .single h)
    rw [if_neg (by simpa using hnone), hconstructor, List.cons_append, List.append_assoc]
    exact written_listing hheader hitems hafter

theorem fragmentsOfAll_eq_map (ds : List Declaration) : fragmentsOfAll ds = ds.map fragmentsOf := by
  induction ds with
  | nil => rfl
  | cons d ds ih => rw [fragmentsOfAll, ih, List.map_cons]

/-- The lines of the constants of an enum. -/
def constantFragments (d : Declaration) : List Fragment :=
  if d.kind = .enum then (constantLines (!d.nested.isEmpty) d.entries).map .line else []

/-- The lines between the braces of a declaration. -/
def memberFragments (d : Declaration) : List Fragment :=
  constantFragments d ++ (if (constantFragments d).isEmpty || d.nested.isEmpty then [] else [.blank]) ++
    Fragment.separated (d.nested.map fragmentsOf)

theorem fragmentsOf_eq (d : Declaration) : fragmentsOf d = withBody d (memberFragments d) := by
  obtain ⟨name, kind, source, typeParams, params, entries, nested⟩ := d
  cases kind <;>
    simp only [fragmentsOf, fragmentsOfAll_eq_map, memberFragments, constantFragments, reduceCtorEq, if_true, if_false]

theorem constructorFragments_ne_nil (d : Declaration) (after : String) : constructorFragments d after ≠ [] := by
  rw [constructorFragments]
  split
  next => exact List.cons_ne_nil _ _
  next =>
    rw [Listing.fragments]
    split <;> exact List.cons_ne_nil _ _

theorem withBody_ne_nil (d : Declaration) (body : List Fragment) : withBody d body ≠ [] := by
  rw [withBody]
  split
  next => exact constructorFragments_ne_nil d _
  next => exact List.append_ne_nil_of_left_ne_nil (constructorFragments_ne_nil d _) _

theorem separated_isEmpty {fss : List (List Fragment)} (h : ∀ fs ∈ fss, fs ≠ []) :
    (Fragment.separated fss).isEmpty = fss.isEmpty := by
  cases fss with
  | nil => rfl
  | cons fs fss =>
    have hfs := h fs List.mem_cons_self
    cases fss with
    | nil => simpa [Fragment.separated] using hfs
    | cons => simp [Fragment.separated]

theorem written_withBody {d : Declaration} {hs constants nested : List Lexeme} {pss : List (List Lexeme)}
    {body : List Fragment} (hheader : Piece (headerText d) hs)
    (hpss : Forall₂ (fun p es => Piece (propertyText p) es) d.params pss) (hbody : Written body (constants ++ nested))
    (hempty : body.isEmpty = (constants.isEmpty && nested.isEmpty)) :
    Written (withBody d body) (hs ++
      (constructorLexemes (trails d !(constants.isEmpty && nested.isEmpty)) pss ++ bodyLexemes constants nested)) := by
  rw [withBody, bodyLexemes, ← hempty]
  by_cases h : body.isEmpty
  · have hwritten := written_constructor hheader hpss false
    rw [h, if_pos rfl, if_pos rfl]
    exact hwritten
  · have hwritten := written_constructor hheader hpss true
    have hclose : Written [.line "\x7d"] [.mark '\x7d'] := by
      have := Piece.empty.mark_behind (c := '\x7d') (by decide)
      rw [String.empty_append] at this
      exact .line this
    rw [Bool.not_eq_true] at h
    rw [h, if_neg Bool.false_ne_true, if_neg Bool.false_ne_true]
    have := hwritten.append (hbody.indented.append hclose)
    simpa using this

theorem constantLines_isEmpty (hasMembers : Bool) (entries : List EnumEntry) :
    (constantLines hasMembers entries).isEmpty = (entries.isEmpty && !hasMembers) := by
  cases entries with
  | nil => cases hasMembers <;> rfl
  | cons e es => cases es <;> rfl

theorem constantLexemes_isEmpty (hasMembers : Bool) (ess : List (List Lexeme)) :
    (constantLexemes hasMembers ess).isEmpty = (ess.isEmpty && !hasMembers) := by
  cases ess with
  | nil => cases hasMembers <;> rfl
  | cons es ess => cases ess <;> simp [constantLexemes]

theorem exists_constants {d : Declaration}
    (h : ∀ e ∈ d.entries, Name.isPlain e.name ∧ ∀ text ∈ e.args, isGroup entryArguments text) :
    ∃ es, Written (constantFragments d) es ∧ (constantFragments d).isEmpty = es.isEmpty ∧
      (es = [] → (if d.kind = .enum then d.entries else []) = []) ∧
      ∀ rest us, (d.nested = [] → rest = []) →
        Reads (entriesOf (classKind d.kind)) es (rest ++ .mark '\x7d' :: us) (· = if d.kind = .enum then d.entries else []) := by
  rw [constantFragments]
  by_cases hkind : d.kind = .enum
  · obtain ⟨ess, hess⟩ := exists_forall₂ fun e he => exists_entry (h e he).1 (h e he).2
    have hentries : Forall₂ IsEntry ess d.entries := (hess.imp fun _ _ h => h.2).flip
    have hempty := isEmpty_of_forall₂ hess
    simp only [hkind, if_true]
    refine ⟨_, written_constants (hess.imp fun _ _ h => h.1), ?_, ?_, ?_⟩
    · rw [List.isEmpty_map, constantLines_isEmpty, constantLexemes_isEmpty, hempty]
    · intro hnone
      rw [← List.isEmpty_iff, constantLexemes_isEmpty, Bool.and_eq_true, ← hempty, List.isEmpty_iff] at hnone
      exact hnone.1
    · intro rest us hrest ts hts
      rw [classKind, entriesOf, if_pos rfl]
      refine enumEntries_reads hentries (fun hmembers => ⟨us, ?_⟩) ts hts
      rw [hrest (by simpa using hmembers), List.nil_append]
  · simp only [hkind, if_false]
    refine ⟨[], .nil, rfl, fun _ => trivial, fun rest us _ ts hts => ⟨.keep [] ts, ?_, rfl, hts⟩⟩
    have hclass : classKind d.kind ≠ .enum := by
      cases hd : d.kind with
      | enum => exact absurd hd hkind
      | data | plain => simp [classKind]
    rw [entriesOf, if_neg hclass]
    rfl

theorem isEmpty_flatten_of_ne {α : Type} {xss : List (List α)} (h : ∀ xs ∈ xss, xs ≠ []) : xss.flatten.isEmpty = xss.isEmpty := by
  cases xss with
  | nil => rfl
  | cons xs xss =>
    obtain ⟨x, xs', hxs⟩ := List.exists_cons_of_ne_nil (h xs List.mem_cons_self)
    rw [hxs]
    rfl

theorem written_members {d : Declaration} {constants : List Lexeme} {ess : List (List Lexeme)}
    (hconstants : Written (constantFragments d) constants)
    (hess : Forall₂ (fun n es => Written (fragmentsOf n) es) d.nested ess) :
    Written (memberFragments d) (constants ++ ess.flatten) := by
  have hnested : Written (Fragment.separated (d.nested.map fragmentsOf)) ess.flatten :=
    .separated (List.forall₂_map_left_iff.mpr hess)
  have hgap : Written (if (constantFragments d).isEmpty || d.nested.isEmpty then [] else [Fragment.blank]) [] := by
    split
    next => exact .nil
    next => exact .blank
  have hbody := (hconstants.append hgap).append hnested
  rwa [List.append_nil] at hbody

/-- A declaration is written out of its header, its properties, its constants and the declarations inside it. -/
theorem written_declaration {d : Declaration} {hs constants : List Lexeme} {pss ess : List (List Lexeme)}
    (hheader : Piece (headerText d) hs) (hpss : Forall₂ (fun p es => Piece (propertyText p) es) d.params pss)
    (hconstants : Written (constantFragments d) constants) (hempty : (constantFragments d).isEmpty = constants.isEmpty)
    (hess : Forall₂ (fun n es => Written (fragmentsOf n) es) d.nested ess) (hne : ∀ es ∈ ess, es ≠ []) :
    Written (fragmentsOf d) (hs ++ (constructorLexemes (trails d !(constants.isEmpty && ess.flatten.isEmpty)) pss ++
      bodyLexemes constants ess.flatten)) := by
  have hflatten : ess.flatten.isEmpty = d.nested.isEmpty := by
    rw [isEmpty_flatten_of_ne hne, isEmpty_of_forall₂ hess]
  have hseparated : (Fragment.separated (d.nested.map fragmentsOf)).isEmpty = d.nested.isEmpty := by
    rw [separated_isEmpty, List.isEmpty_map]
    intro fs hfs
    obtain ⟨n, -, rfl⟩ := List.mem_map.mp hfs
    rw [fragmentsOf_eq]
    exact withBody_ne_nil n _
  have hisEmpty : (memberFragments d).isEmpty = (constants.isEmpty && ess.flatten.isEmpty) := by
    have happend (fs gs : List Fragment) : (fs ++ gs).isEmpty = (fs.isEmpty && gs.isEmpty) := by
      cases fs <;> rfl
    rw [memberFragments, happend, happend, hseparated, hflatten, ← hempty]
    cases (constantFragments d).isEmpty <;> cases d.nested.isEmpty <;> rfl
  rw [fragmentsOf_eq]
  exact written_withBody hheader hpss (written_members hconstants hess) hisEmpty

theorem exists_written {d : Declaration} (h : d.Readable) : ∃ es, Written (fragmentsOf d) es ∧ IsClass es d.outline := by
  induction h with
  | @intro d hname hfree htypeParams hparams hentries _ ih =>
    obtain ⟨hs, hheader, htps⟩ := exists_header hname htypeParams
    obtain ⟨pss, hpss⟩ := exists_forall₂ fun p hp => exists_property (hparams p hp)
    obtain ⟨ess, hess⟩ := exists_forall₂ ih
    obtain ⟨cs, hconstants, hempty, hnone, hread⟩ := exists_constants hentries
    have hclasses : Forall₂ IsClass ess (Declaration.outlines d.nested) := by
      rw [Declaration.outlines_eq_map, List.forall₂_map_right_iff]
      exact (hess.imp fun _ _ h => h.2).flip
    have hproperties : Forall₂ IsProperty pss (d.params.map Param.outline) := by
      rw [List.forall₂_map_right_iff]
      exact (hpss.imp fun _ _ h => h.2).flip
    have hne : ∀ es ∈ ess, es ≠ [] := by
      intro es hes
      obtain ⟨i, hi, rfl⟩ := List.getElem_of_mem hes
      obtain ⟨⟨w, us, hcons, -⟩, -⟩ := hclasses.get (i := i) hi (hclasses.length_eq ▸ hi)
      simp only [List.get_eq_getElem] at hcons
      rw [hcons]
      exact List.cons_ne_nil _ _
    have hwritten := written_declaration hheader (hpss.imp fun _ _ h => h.1) hconstants hempty (hess.imp fun _ _ h => h.1) hne
    have hclass := isClass_of_parts (trails d !(cs.isEmpty && ess.flatten.isEmpty)) hname hfree htps hproperties
      (fun us => hread ess.flatten us ?_) hnone hclasses
    · refine ⟨_, ?_, by rwa [Declaration.outline_eq]⟩
      simpa using hwritten
    · intro hnil
      rw [← List.isEmpty_iff, isEmpty_flatten_of_ne hne, isEmpty_of_forall₂ hess.flip, hnil]
      rfl

end Counterpart.Code
