/-
Line breaks. A list in parentheses is cut into the same tokens on one line and on several, but for a comma in front of its closing
parenthesis, at whatever level a buffer is and however it indents (`layouts_cut_alike`). This is so because each part is cut into
its own tokens and does not end in a line comment. A name gets quotes only where it is reserved, so one that starts a comment takes
up the rest of its line (`layouts_differ_slashedClass`).
-/
import Counterpart.Proofs.EmittedFunctions
import Counterpart.Proofs.ReadBack
import Counterpart.Proofs.Run

namespace Counterpart.Code

open Kotlin Output Text Lexer
open List (Forall₂)

variable {text : String} {es : List Lexeme} {fs : List Fragment} {l : Listing} {d : Declaration}

/-! ## Texts on their own -/

/-- Whether a text is cut into tokens on its own, and its end is not within a line comment. -/
def SelfContained (text : String) : Prop :=
  ∃ ts tail, tokens .between 0 text.toList = .ok (ts, tail) ∧ InlineGap tail.toList

theorem SelfContained.piece (h : SelfContained text) : Piece text (cut text) := by
  obtain ⟨ts, tail, htokens, htail⟩ := h
  have hpiece : Piece text (lexemesOf ts) := fun _ _ hcs hus => .text htokens htail hcs hus
  exact hpiece.cut

/-- A text that starts with a name is cut into tokens of which the first is a name. -/
theorem SelfContained.cut_word (h : SelfContained text) {c : Char} {cs : List Char} (hc : isNameStart c)
    (htext : text.toList = c :: cs) :
    ∃ w es, cut text = .word w :: es := by
  obtain ⟨ts, tail, htokens, -⟩ := h
  have hcut : cut text = ts.map Token.bare := by rw [cut, htokens]
  rw [htext] at htokens
  obtain ⟨n, hgap, hcases⟩ := tokens_ok htokens
  rw [gapLength_between_start (ne_of_isNameStart hc (by decide)) (not_blank_of_isNameChar (isNameChar_of_isNameStart hc))] at hgap
  cases hgap
  obtain ⟨hdrop, -, -⟩ | ⟨c', rest, kind, m, us, hdrop, hlexeme, -, rfl⟩ := hcases
  · cases hdrop
  · cases hdrop
    rw [lexeme_of_isNameStart hc] at hlexeme
    cases hlexeme
    exact ⟨_, _, hcut⟩

/-! ## Buffers -/

/-- Whether the fragments are cut into these tokens, at whatever level a buffer is and however it indents. -/
def CutInto (fs : List Fragment) (es : List Lexeme) : Prop :=
  ∀ i level, ∃ s, TokenStream.ofSource ((Buffer.mk i level "").fragments fs).text = .ok s ∧ s.tokens.map Token.bare = es

theorem Written.cutInto (h : Written fs es) (hstart : NotAt ['#'] es) : CutInto fs (es.map Lexeme.bare) := by
  intro i level
  have hlexes := h i level [] [] .nil
  rw [List.append_nil, List.append_nil] at hlexes
  rw [fragments_text, String.empty_append]
  obtain ⟨s, hs, hfits⟩ := ofSource_reads hlexes hstart
  exact ⟨s, hs, map_bare_of_fits hfits⟩

/-! ## Lists -/

theorem map_bare_commaLexemes {ess : List (List Lexeme)} (h : ∀ es ∈ ess, es.map Lexeme.bare = es) (trailing : Bool) :
    (commaLexemes trailing ess).map Lexeme.bare = commaLexemes trailing ess := by
  induction ess with
  | nil => rfl
  | cons es ess ih =>
    obtain ⟨hes, hess⟩ := List.forall_mem_cons.mp h
    cases ess with
    | nil => cases trailing <;> simp [commaLexemes, hes, Lexeme.bare, Lexeme.mark]
    | cons fs ess =>
      rw [commaLexemes_cons (.inr (List.cons_ne_nil _ _)), List.map_append, List.map_cons, hes, ih hess]
      rfl

theorem commaLexemes_trailing {ess : List (List Lexeme)} (h : ess ≠ []) :
    commaLexemes true ess = commaLexemes false ess ++ [.mark ','] := by
  induction ess with
  | nil => exact absurd rfl h
  | cons es ess ih =>
    cases ess with
    | nil => simp [commaLexemes]
    | cons fs ess =>
      have hne : fs :: ess ≠ [] := List.cons_ne_nil _ _
      rw [commaLexemes_cons (.inl rfl), commaLexemes_cons (.inr hne), ih hne, List.append_assoc, List.cons_append]

namespace Listing

/-- The list on one line, or each item on lines of its own. -/
def layout (l : Listing) (breaks : Bool) : List Fragment := if breaks then l.broken else [.line l.flat]

/-- The tokens up to the last item. -/
def front (l : Listing) : List Lexeme :=
  cut l.before ++ .mark '(' :: commaLexemes false (l.items.map (·.flatMap cut))

/-- Whether the parts of a list with items are cut on their own, and no line of an item runs into the one before. -/
structure SelfContained (l : Listing) : Prop where
  before : Code.SelfContained l.before
  ne : l.items ≠ []
  item : ∀ lines ∈ l.items, lines ≠ [] ∧ ∀ line ∈ lines, Piece line (cut line)
  apart : ∀ lines ∈ l.items, ∀ line ∈ lines.tail, line ≠ "" ∧ Separates line.toList

theorem fragments_eq_layout (l : Listing) : l.fragments = l.layout !l.fits := by
  rw [fragments, layout]
  cases l.fits <;> rfl

theorem map_bare_front (l : Listing) : l.front.map Lexeme.bare = l.front := by
  rw [front, List.map_append, List.map_cons, map_bare_cut, map_bare_commaLexemes]
  · rfl
  · intro es hes
    obtain ⟨lines, -, rfl⟩ := List.mem_map.mp hes
    rw [List.map_flatMap]
    simp only [map_bare_cut]

/-- A list and what stands behind it: both layouts have the tokens of the parts. -/
theorem SelfContained.cut_alike (h : l.SelfContained) {c : Char} {cs : List Char} (hc : isNameStart c)
    (hstart : l.before.toList = c :: cs) {as : List Lexeme} (hafter : Piece l.after as) (hfs : Written fs es) :
    CutInto (l.layout false ++ fs) (l.front ++ .mark ')' :: (as ++ es).map Lexeme.bare) ∧
      CutInto (l.layout true ++ fs) (l.front ++ .mark ',' :: .mark ')' :: (as ++ es).map Lexeme.bare) := by
  have hitems : Forall₂ Item l.items (l.items.map (·.flatMap cut)) := by
    rw [List.forall₂_map_right_iff, List.forall₂_same]
    intro lines hlines
    obtain ⟨hne, hpieces⟩ := h.item lines hlines
    refine ⟨hne, lines.map cut, ?_, by rw [List.flatMap_def]⟩
    rw [List.forall₂_map_right_iff, List.forall₂_same]
    exact hpieces
  have htexts : Forall₂ (fun lines es => Piece (String.join lines) es) l.items (l.items.map (·.flatMap cut)) :=
    ((List.forall₂_and_left l.items _).mpr ⟨h.apart, hitems⟩).imp fun _ _ ⟨hapart, hitem⟩ => hitem.join hapart
  have hfront (us : List Lexeme) :
      cut l.before ++ .mark '(' :: (commaLexemes false (l.items.map (·.flatMap cut)) ++ us) = l.front ++ us := by
    rw [front, List.append_assoc, List.cons_append]
  have hhash (us : List Lexeme) : NotAt ['#'] (l.front ++ us) := by
    obtain ⟨w, ws, hw⟩ := h.before.cut_word hc hstart
    rw [front, hw]
    exact notAt_word
  have hbare (us : List Lexeme) : (l.front ++ us).map Lexeme.bare = l.front ++ us.map Lexeme.bare := by
    rw [List.map_append, map_bare_front]
  have hflat := (written_flat h.before.piece htexts hafter).append hfs
  have hbroken := (written_broken h.before.piece hitems hafter).append hfs
  rw [commaLexemes_trailing (by simpa using h.ne)] at hbroken
  simp only [List.append_assoc, List.cons_append, List.nil_append, hfront] at hflat hbroken
  have hflatCut := hflat.cutInto (hhash _)
  have hbrokenCut := hbroken.cutInto (hhash _)
  rw [hbare] at hflatCut hbrokenCut
  exact ⟨hflatCut, hbrokenCut⟩

end Listing

/-! ## Declarations -/

/-- Two pieces with a text between them that separates. -/
theorem Piece.glue {glue text' : String} {gs es' : List Lexeme} (h : Piece text es) (hglue : Block glue gs) {c : Char} {cs : List Char}
    (hstart : glue.toList = c :: cs) (hc : isNameChar c = false ∧ c ∉ ['.', '"', '>', '/', '*']) (h' : Piece text' es') :
    Piece (text ++ (glue ++ text')) (es ++ (gs ++ es')) := by
  intro ds us hds hus
  have hbehind := hglue _ _ (h' ds us hds hus)
  simp only [String.toList_append, List.append_assoc]
  refine h _ _ ?_ hbehind
  rw [hstart]
  exact separates_cons hc _

theorem SelfContained.property {p : Param} (hname : SelfContained (safeName p.name)) (hty : SelfContained p.ty) :
    Piece (propertyText p) (cut (propertyText p)) := by
  have hnamed := hname.piece.glue block_colon rfl (by decide) hty.piece
  rw [propertyText_eq]
  exact ((Phrase.word (isPlain_propertyKeyword p.mutable)).piece.glue block_space rfl (by decide) hnamed).cut

/-- Whether the header, the names and types of the properties, and the constants of a declaration are cut on their own, and so in
the declarations inside it. -/
inductive DeclarationParts : Declaration → Prop
  | intro {d : Declaration} (header : SelfContained (headerText d))
    (params : ∀ p ∈ d.params, SelfContained (safeName p.name) ∧ SelfContained p.ty)
    (constants : d.kind = .enum → ∀ e ∈ d.entries, SelfContained (safeName e.name ++ e.args.getD ""))
    (nested : ∀ n ∈ d.nested, DeclarationParts n) : DeclarationParts d

/-- The constructor of a declaration. -/
def constructorListing (d : Declaration) : Listing :=
  ⟨headerText d, d.params.map fun p => [propertyText p], if (memberFragments d).isEmpty then "" else " \x7b"⟩

/-- The body of a declaration behind its opening brace; an empty one is left out. -/
def closedBody (d : Declaration) : List Fragment :=
  if (memberFragments d).isEmpty then [] else [.indented (memberFragments d), .line "\x7d"]

theorem headerText_start (d : Declaration) : ∃ c cs, isNameStart c ∧ (headerText d).toList = c :: cs := by
  rw [headerText]
  cases d.kind
  · exact ⟨'d', _, by decide, by simp; rfl⟩
  · exact ⟨'e', _, by decide, by simp; rfl⟩
  · exact ⟨'c', _, by decide, by simp; rfl⟩

theorem fragmentsOf_eq_layout (h : d.params ≠ []) :
    fragmentsOf d = (constructorListing d).layout (!(constructorListing d).fits) ++ closedBody d := by
  rw [← Listing.fragments_eq_layout, fragmentsOf_eq, withBody, closedBody, constructorListing]
  split <;> rw [constructorFragments, if_neg (by simpa using h)]
  rw [List.append_nil]

namespace DeclarationParts

theorem constructor (h : DeclarationParts d) (hne : d.params ≠ []) : (constructorListing d).SelfContained := by
  obtain ⟨header, params, -, -⟩ := h
  refine ⟨header, by simpa [constructorListing] using hne, ?_, ?_⟩
  all_goals
    intro lines hlines
    obtain ⟨p, hp, rfl⟩ := List.mem_map.mp hlines
  · refine ⟨List.cons_ne_nil _ _, fun line hline => ?_⟩
    rw [List.mem_singleton.mp hline]
    exact (params p hp).1.property (params p hp).2
  · simp

theorem exists_constants (h : DeclarationParts d) :
    ∃ es, Written (constantFragments d) es ∧ (constantFragments d).isEmpty = es.isEmpty := by
  obtain ⟨-, -, constants, -⟩ := h
  rw [constantFragments]
  split
  next hkind =>
    have hpieces : Forall₂ (fun (e : EnumEntry) es => Piece (safeName e.name ++ e.args.getD "") es) d.entries
        (d.entries.map fun e => cut (safeName e.name ++ e.args.getD "")) := by
      rw [List.forall₂_map_right_iff, List.forall₂_same]
      exact fun e he => (constants hkind e he).piece
    refine ⟨_, written_constants hpieces, ?_⟩
    rw [List.isEmpty_map, constantLines_isEmpty, constantLexemes_isEmpty, List.isEmpty_map]
  next => exact ⟨[], .nil, rfl⟩

/-- A declaration in parts is cut into tokens. -/
theorem exists_written (h : DeclarationParts d) : ∃ es, Written (fragmentsOf d) es ∧ es ≠ [] := by
  induction h with
  | @intro d header params constants nested ih =>
    have hparts : DeclarationParts d := .intro header params constants nested
    obtain ⟨cs, hconstants, hempty⟩ := hparts.exists_constants
    obtain ⟨ess, hess⟩ := exists_forall₂ ih
    have hproperties : Forall₂ (fun p es => Piece (propertyText p) es) d.params (d.params.map fun p => cut (propertyText p)) := by
      rw [List.forall₂_map_right_iff, List.forall₂_same]
      exact fun p hp => (params p hp).1.property (params p hp).2
    have hne : ∀ es ∈ ess, es ≠ [] := by
      intro es hes
      obtain ⟨i, hi, rfl⟩ := List.getElem_of_mem hes
      exact (hess.get (hess.length_eq ▸ hi) hi).2
    obtain ⟨c, ds, hc, hstart⟩ := headerText_start d
    obtain ⟨w, us, hw⟩ := header.cut_word hc hstart
    refine ⟨_, written_declaration header.piece hproperties hconstants hempty (hess.imp fun _ _ h => h.1) hne, ?_⟩
    rw [hw]
    exact List.cons_ne_nil _ _

theorem exists_body (h : DeclarationParts d) : ∃ es, Written (closedBody d) es := by
  obtain ⟨cs, hconstants, -⟩ := h.exists_constants
  obtain ⟨-, -, -, nested⟩ := h
  obtain ⟨ess, hess⟩ := exists_forall₂ fun n hn => (nested n hn).exists_written
  have hmembers := written_members hconstants (hess.imp fun _ _ h => h.1)
  have hclose : Written [.line "\x7d"] [.mark '\x7d'] := by
    have := Piece.empty.mark_behind (c := '\x7d') (by decide)
    rw [String.empty_append] at this
    exact .line this
  rw [closedBody]
  split
  · exact ⟨[], .nil⟩
  · exact ⟨_, hmembers.indented.append hclose⟩

theorem exists_after (d : Declaration) : ∃ es, Piece (constructorListing d).after es := by
  rw [constructorListing]
  dsimp only
  split
  · exact ⟨[], .empty⟩
  · have hopen := Piece.empty.mark_behind (c := '\x7b') (by decide)
    exact ⟨_, Piece.empty.append_blank (c := ' ') (by decide) (by decide) hopen⟩

end DeclarationParts

/-! ## Calls -/

/-- The arguments of a call. -/
def callListing (f : FunctionCode) (target : String) (args : List (String × Expression)) : Listing :=
  ⟨f.signature ++ target, args.map fun a => argumentLines a.1 a.2, ""⟩

/-- A text as it is, or a `when` over enum constants. -/
def Expression.IsBuilt (e : Expression) : Prop := (∃ s, e = .ofText s) ∨ ∃ w : When, e = w.expression

/-- Whether what stands before its list, the names of the arguments and the lines of their values are cut on their own. -/
structure CallParts (f : FunctionCode) (target : String) (args : List (String × Expression)) : Prop where
  header : SelfContained (f.signature ++ target)
  names : ∀ a ∈ args, SelfContained (safeName a.1)
  built : ∀ a ∈ args, a.2.IsBuilt
  lines : ∀ a ∈ args, ∀ line ∈ a.2.lines, SelfContained line

theorem Expression.IsBuilt.lines_apart {e : Expression} (h : e.IsBuilt) :
    ∃ first rest, e.lines = first :: rest ∧ ∀ line ∈ rest, line ≠ "" ∧ Separates line.toList := by
  obtain ⟨s, rfl⟩ | ⟨w, rfl⟩ := h
  · exact ⟨s, [], rfl, by simp⟩
  · refine ⟨_, _, rfl, fun line hline => ?_⟩
    rcases List.mem_append.mp hline with hline | hline
    · obtain ⟨branch, -, rfl⟩ := List.mem_map.mp hline
      refine ⟨by simp, ?_⟩
      rw [String.toList_append]
      exact separates_cons (by decide) _
    · rw [List.mem_singleton.mp hline]
      exact ⟨by decide, separates_cons (by decide) []⟩

theorem CallParts.listing {f : FunctionCode} {target : String} {args : List (String × Expression)} (h : CallParts f target args)
    (hne : args ≠ []) : (callListing f target args).SelfContained := by
  refine ⟨h.header, by simpa [callListing] using hne, ?_, ?_⟩
  all_goals
    intro lines hlines
    obtain ⟨a, ha, rfl⟩ := List.mem_map.mp hlines
    obtain ⟨first, rest, hsplit, hapart⟩ := (h.built a ha).lines_apart
    have hcut := h.lines a ha
    rw [hsplit] at hcut
    rw [argumentLines, hsplit]
  · refine ⟨List.cons_ne_nil _ _, fun line hline => ?_⟩
    rcases List.mem_cons.mp hline with rfl | hline
    · have hfirst := (h.names a ha).piece.glue block_equals rfl (by decide) (hcut first List.mem_cons_self).piece
      rw [String.append_assoc]
      exact hfirst.cut
    · exact (hcut line (List.mem_cons_of_mem first hline)).piece
  · exact hapart

theorem fragments_call {f : FunctionCode} {target : String} {args : List (String × Expression)} (h : f.body = .call target args) :
    f.fragments = (callListing f target args).layout !(callListing f target args).fits := by
  rw [← Listing.fragments_eq_layout, FunctionCode.fragments, h]
  rfl

/-! ## Both layouts -/

/-- **Line breaks** do not change the tokens of a declaration with properties or of a call with arguments: on one line and on several it
is cut into the tokens of its parts, but for a comma in front of the closing parenthesis. -/
theorem layouts_cut_alike :
    (∀ d : Declaration, d.params ≠ [] → DeclarationParts d →
      fragmentsOf d = (constructorListing d).layout (!(constructorListing d).fits) ++ closedBody d ∧
      ∃ back, CutInto ((constructorListing d).layout false ++ closedBody d) ((constructorListing d).front ++ .mark ')' :: back) ∧
        CutInto ((constructorListing d).layout true ++ closedBody d)
          ((constructorListing d).front ++ .mark ',' :: .mark ')' :: back)) ∧
    ∀ (f : FunctionCode) (target : String) (args : List (String × Expression)), f.body = .call target args → args ≠ [] →
      CallParts f target args →
      f.fragments = (callListing f target args).layout (!(callListing f target args).fits) ∧
      CutInto ((callListing f target args).layout false) ((callListing f target args).front ++ [.mark ')']) ∧
        CutInto ((callListing f target args).layout true) ((callListing f target args).front ++ [.mark ',', .mark ')']) := by
  refine ⟨fun d hne hparts => ⟨fragmentsOf_eq_layout hne, ?_⟩, fun f target args hbody hne hparts => ⟨fragments_call hbody, ?_⟩⟩
  · obtain ⟨c, cs, hc, hstart⟩ := headerText_start d
    obtain ⟨as, hafter⟩ := DeclarationParts.exists_after d
    obtain ⟨bs, hbs⟩ := hparts.exists_body
    exact ⟨_, (hparts.constructor hne).cut_alike hc hstart hafter hbs⟩
  · obtain ⟨cs, hstart⟩ : ∃ cs, (f.signature ++ target).toList = 'f' :: cs := by
      rw [FunctionCode.signature]
      exact ⟨_, by simp; rfl⟩
    have halike := (hparts.listing hne).cut_alike (c := 'f') (by decide) hstart Piece.empty Written.nil
    simpa using halike

theorem selfContained_of_tail {text : String} (h : (tokens .between 0 text.toList).toOption.map (·.2) = some "") :
    SelfContained text := by
  obtain ⟨⟨ts, tail⟩, htokens, rfl⟩ := Option.map_eq_some_iff.mp h
  exact ⟨ts, "", ok_of_toOption htokens, .nil⟩

/-- An enum with a comment behind a type, a name that is reserved, and a class inside it. -/
def commentedEnum : Declaration :=
  ⟨"Day", .enum, 0, none, [⟨"in", "Int /* n */", true⟩, ⟨"text", "String", false⟩], [⟨"MON", some "(1, \"a\")"⟩],
    [⟨"Note", .plain, 1, some "<T>", [⟨"day", "Map<Day, T>", false⟩], [], []⟩]⟩

theorem declarationParts_commentedEnum : DeclarationParts commentedEnum := by
  have hcomment : SelfContained "Int /* n */" := by
    have htokens : (tokens .between 0 "Int /* n */".toList).toOption.map (·.2) = some " /* n */" := by decide +kernel
    obtain ⟨⟨ts, tail⟩, htokens, htail⟩ := Option.map_eq_some_iff.mp htokens
    refine ⟨ts, tail, ok_of_toOption htokens, ?_⟩
    rw [show tail = " /* n */" from htail]
    exact .blank (by decide) (.block (.char (by decide) (by decide) (.char (by decide) (by decide) (.char (by decide) (by decide)
      .close))) .nil)
  have hnested : DeclarationParts ⟨"Note", .plain, 1, some "<T>", [⟨"day", "Map<Day, T>", false⟩], [], []⟩ := by
    refine .intro (selfContained_of_tail (by decide +kernel)) ?_ nofun nofun
    simp only [List.forall_mem_singleton]
    exact ⟨selfContained_of_tail (by decide +kernel), selfContained_of_tail (by decide +kernel)⟩
  refine .intro (selfContained_of_tail (by decide +kernel)) ?_ ?_ (List.forall_mem_singleton.mpr hnested)
  · simp only [commentedEnum, List.forall_mem_cons]
    exact ⟨⟨selfContained_of_tail (by decide +kernel), hcomment⟩,
      ⟨selfContained_of_tail (by decide +kernel), selfContained_of_tail (by decide +kernel)⟩, nofun⟩
  · exact fun _ => List.forall_mem_singleton.mpr (selfContained_of_tail (by decide +kernel))

/-- The arguments of a call, one of them a `when` on lines of its own. -/
def branchedArguments : List (String × Expression) :=
  [("dayModel", (When.mk "day" [⟨"Day.MON", "DayModel.MON"⟩] true).expression), ("text", .ofText "text")]

/-- A function with these arguments. -/
def branchedCall : FunctionCode := ⟨"<T>", "Note<T>", "mapToModel", "NoteModel<T>", .call "NoteModel" branchedArguments⟩

theorem callParts_branchedCall : CallParts branchedCall "NoteModel" branchedArguments where
  header := selfContained_of_tail (by decide +kernel)
  names := by
    simp only [branchedArguments, List.forall_mem_cons]
    exact ⟨selfContained_of_tail (by decide +kernel), selfContained_of_tail (by decide +kernel), nofun⟩
  built := by
    simp only [branchedArguments, List.forall_mem_cons]
    exact ⟨.inr ⟨_, rfl⟩, .inl ⟨_, rfl⟩, nofun⟩
  lines := by
    have hlines : branchedArguments.all fun a => a.2.lines.all fun line =>
        (tokens .between 0 line.toList).toOption.map (·.2) = some "" := by
      decide +kernel
    intro a ha line hline
    exact selfContained_of_tail (by simpa using List.all_eq_true.mp (List.all_eq_true.mp hlines a ha) line hline)

/-- Both layouts of the enum and of the call. -/
theorem layouts_cut_alike_nested :
    (∃ back, CutInto ((constructorListing commentedEnum).layout false ++ closedBody commentedEnum)
        ((constructorListing commentedEnum).front ++ .mark ')' :: back) ∧
      CutInto ((constructorListing commentedEnum).layout true ++ closedBody commentedEnum)
        ((constructorListing commentedEnum).front ++ .mark ',' :: .mark ')' :: back)) ∧
    CutInto ((callListing branchedCall "NoteModel" branchedArguments).layout false)
      ((callListing branchedCall "NoteModel" branchedArguments).front ++ [.mark ')']) ∧
    CutInto ((callListing branchedCall "NoteModel" branchedArguments).layout true)
      ((callListing branchedCall "NoteModel" branchedArguments).front ++ [.mark ',', .mark ')']) :=
  ⟨(layouts_cut_alike.1 commentedEnum (List.cons_ne_nil _ _) declarationParts_commentedEnum).2,
    (layouts_cut_alike.2 branchedCall "NoteModel" branchedArguments rfl (List.cons_ne_nil _ _) callParts_branchedCall).2⟩

/-- A class with a property whose name starts a comment. -/
def slashedClass : Declaration := ⟨"A", .plain, 0, none, [⟨"//", "Int", false⟩, ⟨"b", "Int", false⟩], [], []⟩

/-- Header and types are cut on their own, but on one line the comment takes up all that stands behind the name. -/
theorem layouts_differ_slashedClass :
    slashedClass.params ≠ [] ∧ SelfContained (headerText slashedClass) ∧ (∀ p ∈ slashedClass.params, SelfContained p.ty) ∧
    ¬∃ front back, CutInto ((constructorListing slashedClass).layout false ++ closedBody slashedClass) (front ++ .mark ')' :: back) ∧
      CutInto ((constructorListing slashedClass).layout true ++ closedBody slashedClass)
        (front ++ .mark ',' :: .mark ')' :: back) := by
  have hint : SelfContained "Int" := selfContained_of_tail (by decide +kernel)
  refine ⟨List.cons_ne_nil _ _, selfContained_of_tail (by decide +kernel), ?_, ?_⟩
  · simp only [slashedClass, List.forall_mem_cons]
    exact ⟨hint, hint, nofun⟩
  · rintro ⟨front, back, hflat, -⟩
    obtain ⟨s, hs, hcut⟩ := hflat .standard 0
    have hnone : (TokenStream.ofSource ((Buffer.mk .standard 0 "").fragments
        ((constructorListing slashedClass).layout false ++ closedBody slashedClass)).text).toOption.map
        (fun s => (s.tokens.map Token.bare).contains (.mark ')')) = some false := by
      decide +kernel
    rw [hs] at hnone
    have hmem : .mark ')' ∈ s.tokens.map Token.bare := by
      rw [hcut]
      simp
    have hcontains : (s.tokens.map Token.bare).contains (.mark ')') = true := List.contains_iff_mem.mpr hmem
    have hfalse : (s.tokens.map Token.bare).contains (.mark ')') = false := Option.some.inj hnone
    rw [hcontains] at hfalse
    cases hfalse

end Counterpart.Code
