/-
What generated functions are made of, token by token, with the names marked. A conversion is followed through its term
(`shows_conversion`); branches over constants stand on lines of their own, in an argument as well as for a whole function, but
only in a function are the segments of their names quoted.
-/
import Counterpart.Code.File
import Counterpart.Proofs.Conversion
import Counterpart.Proofs.Emitted

namespace Counterpart

/-- The name of a class and of those around it, outermost first. -/
def Project.nestedNames (p : Project) (c : ClassId) : List String :=
  ((c :: (p.decl c).enclosing).reverse).map fun d => (p.decl d).name

theorem Project.nestedPath_eq (p : Project) (c : ClassId) : p.nestedPath c = Text.join "." (p.nestedNames c) := rfl

theorem Project.nestedNames_ne_nil (p : Project) (c : ClassId) : p.nestedNames c ≠ [] := by
  simp [nestedNames]

end Counterpart

namespace Counterpart.Mapper.Setting

open Kotlin Output

variable {g : Setting}

/-! ## The enum of a field -/

/-- The enum that branches for a field are over, with its counterpart. -/
def enumOf? (g : Setting) (c : ClassId) (f : Field) : Option (ClassId × Ref) :=
  match g.project.categoryOf (g.project.resolve c f.ty) with
  | .userClass id .enum => (g.table.ref? id).map fun target => (id, target)
  | _ => none

theorem conversion_of_enumOf? {c id : ClassId} {f : Field} {target : Ref} (h : g.enumOf? c f = some (id, target)) :
    (g.argument c f).1.conversion = .enumWhen (g.arms id target) := by
  rw [enumOf?] at h
  split at h
  next id' hcat =>
    obtain ⟨target', htarget, heq⟩ := Option.map_eq_some_iff.mp h
    cases heq
    simp only [argument, hcat, htarget]
  next => cases h

theorem ref?_of_enumOf? {c id : ClassId} {f : Field} {target : Ref} (h : g.enumOf? c f = some (id, target)) :
    g.table.ref? id = some target := by
  rw [enumOf?] at h
  split at h
  next =>
    obtain ⟨r, hr, heq⟩ := Option.map_eq_some_iff.mp h
    cases heq
    exact hr
  next => cases h

theorem enumWhen_not_mem_of_enumOf? {c : ClassId} {f : Field} (h : g.enumOf? c f = none) (arms : List Arm) :
    .enumWhen arms ∉ (g.argument c f).1.conversion.parts := by
  intro harms
  obtain ⟨e, target, hcat, htarget, -⟩ := enumWhen_of_mem_parts harms
  rw [enumOf?, hcat] at h
  simp only at h
  rw [htarget] at h
  cases h

/-! ## Calls that give back a collection -/

theorem collect_of_combine {base : GenericBase} {args : List (TypeArg ResolvedType)} {sides : List (Option Side)}
    {e : Conversion} {n : Bool} {collect : Option String}
    (h : (g.combine base args sides).conversion = .collection e n collect) :
    ∃ kind : CollectionKind, collect = kind.collectCall? := by
  cases base with
  | collection kind =>
    simp only [combine] at h
    split at h
    next =>
      simp only [Built.replace, Conversion.ofCollection] at h
      split at h
      · cases h
      · cases h
        exact ⟨kind, rfl⟩
    next => cases h
  | map kind =>
    exfalso
    simp only [combine, convertMap] at h
    split at h
    next =>
      split at h
      next => cases h
      next hchange =>
        simp only [Built.replace, Conversion.ofMap, hchange] at h
        cases h
    next side =>
      split at h
      next hidentity =>
        rw [Conversion.isIdentity_iff.mp hidentity] at h
        cases h
      next => cases h
    next side =>
      split at h
      next hidentity =>
        rw [Conversion.isIdentity_iff.mp hidentity] at h
        cases h
      next => cases h
    next => cases h
  | pair =>
    exfalso
    simp only [combine] at h
    split at h
    next =>
      simp only [Built.both, Conversion.ofPair] at h
      split at h <;> cases h
    next => cases h
  | other =>
    exfalso
    simp only [combine] at h
    split at h
    next =>
      rw [foldl_both_conversion _ rfl] at h
      cases h
    next => cases h

/-- What gives back a collection is the call for one of the kinds. -/
theorem collect_of_mem_parts {e : Conversion} {n : Bool} {collect : Option String} (t : ResolvedType)
    (h : .collection e n collect ∈ (g.element t).conversion.parts) : ∃ kind : CollectionKind, collect = kind.collectCall? := by
  induction t using ResolvedType.induction with | _ t ih =>
  have inside : ∀ {i : Nat} {s : Side}, (t.argTypes.map (Option.map g.side))[i]? = some (some s) →
      .collection e n collect ∈ s.built.conversion.parts → ∃ kind : CollectionKind, collect = kind.collectCall? := by
    intro i s hs hmem
    obtain ⟨u, hu, rfl⟩ := side_of_getElem? hs
    exact ih u (List.mem_of_getElem? hu) hmem
  cases hc : g.project.categoryOf t with
  | generic base =>
    rw [element_of_generic hc] at h
    have hcombined := combined_combine (g := g) base t.args (t.argTypes.map (Option.map g.side))
    have hcollect {e' : Conversion} {n' : Bool} (hk : (g.combine base t.args (t.argTypes.map (Option.map g.side))).conversion =
        .collection e' n' collect) : ∃ kind : CollectionKind, collect = kind.collectCall? := collect_of_combine hk
    generalize (g.combine base t.args (t.argTypes.map (Option.map g.side))).conversion = k at h hcombined hcollect
    cases hcombined with
    | identity => simp [Conversion.parts] at h
    | placeholder => simp [Conversion.parts] at h
    | collection hs =>
      rw [Conversion.parts] at h
      rcases List.mem_cons.mp h with heq | h
      · cases heq
        exact hcollect rfl
      · exact inside hs h
    | map hk hv =>
      rw [Conversion.parts] at h
      rcases List.mem_cons.mp h with heq | h
      · cases heq
      · exact (List.mem_append.mp h).elim (inside hk) (inside hv)
    | pair ha hb =>
      rw [Conversion.parts] at h
      rcases List.mem_cons.mp h with heq | h
      · cases heq
      · exact (List.mem_append.mp h).elim (inside ha) (inside hb)
  | userClass d k =>
    rw [element_of_userClass hc] at h
    split at h <;> simp [Built.pure, Conversion.parts] at h
  | _ =>
    obtain ⟨written, name, importName, classId, args⟩ := t
    rw [element, hc] at h
    simp [Built.pure, Conversion.parts] at h

theorem collect_of_mem_parts_argument {c : ClassId} {f : Field} {e : Conversion} {n : Bool} {collect : Option String}
    (h : .collection e n collect ∈ (g.argument c f).1.conversion.parts) :
    ∃ kind : CollectionKind, collect = kind.collectCall? := by
  rw [conversion_argument] at h
  rcases g.argument_cases c f with hk | ⟨hk, -⟩ | ⟨_, _, -, -, hk⟩
  · rw [hk] at h
    exact collect_of_mem_parts _ h
  · rw [hk] at h
    simp [Built.pure, Conversion.parts] at h
  · rw [hk] at h
    simp [Conversion.parts] at h

end Counterpart.Mapper.Setting

namespace Counterpart.Code

open Kotlin Output Text Lexer
open List (Forall₂)

/-! ## Pieces of functions -/

namespace Emitted

/-- Names with a dot between each two. -/
def dotted (how : String → Emitted) : List String → List Emitted
  | [] => []
  | [s] => [how s]
  | s :: ss => how s :: mark '.' :: dotted how ss

def access (safe : Bool) : List Lexeme := if safe then [.mark '?', .mark '.'] else [.mark '.']

def ofParams : Params → List Lexeme
  | .implicit => []
  | .one name => [.word name, .arrow]
  | .two first second => [.mark '(', .word first, .mark ',', .word second, .mark ')', .arrow]

/-- A function applied to a value and a lambda. -/
def lambda (value : List Emitted) (safe : Bool) (callee : List Emitted) (params : Params) (body : List Emitted) : List Emitted :=
  value ++ ((access safe).map token ++ (callee ++ (mark '\x7b' :: ((ofParams params).map token ++ (body ++ [mark '\x7d'])))))

/-- The call that stands for a value. -/
def ofPlaceholder : List Lexeme :=
  [.word "TODO", ⟨.mark '(', "(", some ""⟩, ⟨.string, "\"Implement manually\"", some ""⟩, .mark ')']

/-- The conversion of a value. Branches stand nowhere inside another conversion. -/
def ofConversion (value : List Emitted) (nullable : Bool) (depth : Nat) : Conversion → List Emitted
  | .identity => value
  | .placeholder => ofPlaceholder.map token
  | .mapper function => value ++ ((access nullable).map token ++ [bare function, mark '(', mark ')'])
  | .enumWhen _ => []
  | .collection element elementNullable collect =>
    let elements := lambda value nullable [word "map"] (elementParams depth)
      (ofConversion [word (nameAt "it" depth)] elementNullable (depth + 1) element)
    match collect with
    | some call => elements ++ ((access nullable).map token ++ (cut call).map token)
    | none => elements
  | .map builder k kn v vn =>
    lambda (value ++ ((access nullable).map token ++ [word "entries"])) nullable
      ([word "associateTo", mark '(', text builder] ++ [mark '(', mark ')', mark ')'])
      (.two (nameAt "key" depth) (nameAt "value" depth))
      (ofConversion [word (nameAt "key" depth)] kn (depth + 1) k ++
        (word "to" :: ofConversion [word (nameAt "value" depth)] vn (depth + 1) v))
  | .pair a an b bn =>
    lambda value nullable [word "let"] (.two (nameAt "first" depth) (nameAt "second" depth))
      (ofConversion [word (nameAt "first" depth)] an (depth + 1) a ++
        (word "to" :: ofConversion [word (nameAt "second" depth)] bn (depth + 1) b))

/-- Branches with their subject, and perhaps one for null. -/
def ofWhen (subject : List Emitted) (arms : List (List Emitted)) (nullArm : Bool) : List Emitted :=
  word "when" :: mark '(' :: (subject ++ [mark ')', mark '\x7b']) ++ arms.flatten ++
    (if nullArm then [word "null", token .arrow, word "null"] else []) ++ [mark '\x7d']

variable (g : Mapper.Setting)

/-- The branches from the constants of an enum to those of its counterpart. -/
def ofArms (how : String → Emitted) (c : ClassId) (target : Ref) : List (List Emitted) :=
  (g.project.decl c).entries.map fun e =>
    dotted how (g.project.nestedNames c ++ [e.name]) ++ (token .arrow :: dotted how (target.path ++ [e.name]))

def ofArgument (c : ClassId) (f : Field) : List Emitted :=
  let a := (g.argument c f).1
  safe a.name :: mark '=' ::
    match g.enumOf? c f with
    | some (id, target) => ofWhen [safe a.source] (ofArms g bare id target) a.nullable
    | none => ofConversion [safe a.source] a.nullable 0 a.conversion

/-- A function up to its body. -/
def ofSignature (c : ClassId) (target : Ref) : List Emitted :=
  let typeParams := TypeParams.ofOption (g.project.decl c).typeParams
  word "fun" :: (if typeParams.asFunctionDeclaration.isEmpty then [] else [text typeParams.asFunctionDeclaration]) ++
    (dotted bare (g.project.nestedNames c) ++ [behind typeParams.asArguments]) ++
    (mark '.' :: bare g.naming.functionName :: mark '(' :: mark ')' :: mark ':' ::
      (dotted bare target.path ++ [behind typeParams.asArguments]))

end Emitted

/-- Whether a comma stands behind the last argument of the call in a function. -/
def FunctionCode.trails (f : FunctionCode) : Bool :=
  match f.body with
  | .call target args => !(Listing.mk (f.signature ++ target) (args.map fun a => argumentLines a.1 a.2) "").fits
  | .branches _ => false

namespace Emitted

variable (g : Mapper.Setting)

/-- The function from a class to its counterpart. -/
def ofFunction (c : ClassId) (target : Ref) : List Emitted :=
  ofSignature g c target ++ (mark '=' ::
    if (g.project.decl c).isEnum then ofWhen [word "this"] (ofArms g path c target) false
    else
      dotted bare target.path ++ (mark '(' ::
        (listed (if (FunctionCode.ofFunction (g.draft c target).function).trails then [.mark ','] else [])
          ((g.project.decl c).visibleFields.map (ofArgument g c)) ++ [mark ')'])))

end Emitted

/-! ## Texts that are always the same -/

theorem block_dot (safe : Bool) : Block (dot safe) (Emitted.access safe) := by
  cases safe with
  | true => exact fun _ _ h => .mark (by decide) (.mark (by decide) h)
  | false => exact fun _ _ h => .mark (by decide) h

theorem block_period : Block "." [.mark '.'] := fun _ _ h => .mark (by decide) h

theorem block_opening : Block "(" [.mark '('] := fun _ _ h => .mark (by decide) h

theorem block_parens : Block "()" [.mark '(', .mark ')'] := fun _ _ h => .mark (by decide) (.mark (by decide) h)

theorem block_closing : Block "())" [.mark '(', .mark ')', .mark ')'] :=
  fun _ _ h => .mark (by decide) (.mark (by decide) (.mark (by decide) h))

theorem block_equals : Block " = " [.mark '='] := fun _ _ h => .blank (by decide) (.mark (by decide) (.blank (by decide) h))

theorem block_arrow : Block " -> " [.arrow] := fun _ _ h => .blank (by decide) (.arrow (.blank (by decide) h))

theorem block_to : Block " to " [.word "to"] := by
  intro cs us h
  show Lexes (' ' :: ("to".toList ++ ' ' :: cs)) (.word "to" :: us)
  exact .blank (by decide) (.word_blank (by decide) (by decide) h)

theorem phrase_placeholder : Phrase placeholder Emitted.ofPlaceholder := by
  intro cs us _ h
  have htokens : Lexer.tokens .between 0 "TODO(\"Implement manually\"".toList =
      .ok ([⟨.name, "TODO", "", 0⟩, ⟨.mark '(', "(", "", 4⟩, ⟨.string, "\"Implement manually\"", "", 5⟩], "") := by
    decide +kernel
  have htext : placeholder.toList ++ cs = "TODO(\"Implement manually\"".toList ++ ')' :: cs := by
    have hsplit : placeholder = "TODO(\"Implement manually\"" ++ ")" := by decide +kernel
    rw [hsplit, String.toList_append, List.append_assoc]
    rfl
  rw [htext]
  exact Lexes.text htokens .nil (separates_cons (by decide) cs) (.mark (by decide) h)

theorem isPlain_nameAt (base : String) (h : Name.isPlain base) (depth : Nat) : Name.isPlain (nameAt base depth) := by
  rw [nameAt]
  split
  next => exact h
  next =>
    have hdigits : ∀ c ∈ (toString depth).toList, isNameChar c := by
      intro c hc
      have htext : (toString depth).toList = Nat.toDigits 10 depth := String.toList_ofList
      rw [htext] at hc
      by_contra hname
      have := isDigit_of_not_isNameChar (Bool.not_eq_true _ ▸ hname)
      rw [Nat.isDigit_of_mem_toDigits (by decide) (by decide) hc] at this
      cases this
    rw [Name.isPlain] at h ⊢
    rw [String.toList_append]
    cases hbase : base.toList with
    | nil =>
      rw [hbase] at h
      cases h
    | cons c cs =>
      rw [hbase, Bool.and_eq_true, List.all_eq_true] at h
      rw [List.cons_append, Bool.and_eq_true, List.all_append, Bool.and_eq_true, List.all_eq_true, List.all_eq_true]
      exact ⟨h.1, h.2, hdigits⟩

theorem block_params {ps : Params} (h : ∀ name ∈ ps.names, Name.isPlain name) : Block ps.text (Emitted.ofParams ps) := by
  cases ps with
  | implicit => exact .empty
  | one name =>
    have hname : Phrase name [.word name] := .word (h name List.mem_cons_self)
    intro cs us hus
    rw [Params.text, String.toList_append, List.append_assoc]
    exact hname _ _ (notNameChar_cons (by decide) _) (block_arrow cs us hus)
  | two first second =>
    have hfirst : Phrase first [.word first] := .word (h first List.mem_cons_self)
    have hsecond : Phrase second [.word second] := .word (h second (List.mem_cons_of_mem _ List.mem_cons_self))
    intro cs us hus
    have htext : (Params.two first second).text.toList ++ cs =
        '(' :: (first.toList ++ (',' :: ' ' :: (second.toList ++ (')' :: (" -> ".toList ++ cs))))) := by
      simp [Params.text]
    rw [htext]
    exact .mark (by decide) (hfirst _ _ (notNameChar_cons (by decide) _) (.mark (by decide) (.blank (by decide)
      (hsecond _ _ (notNameChar_cons (by decide) _) (.mark (by decide) (block_arrow cs us hus))))))

/-! ## Conversions -/

/-- Whether a conversion is none that only stands at the outermost level, and a call that it ends in is closed. -/
def Inner : Conversion → Prop
  | .enumWhen _ => False
  | .collection _ _ (some call) => Phrase call (cut call)
  | _ => True

theorem shows_lambda {value callee body : String} {vs cs bs : List Emitted} {params : Params} (hvalue : Shows value vs)
    (safe : Bool) (hcallee : Shows callee cs) (hparams : ∀ name ∈ params.names, Name.isPlain name) (hbody : Shows body bs) :
    Shows (value ++ dot safe ++ callee ++ " \x7b " ++ params.text ++ body ++ " \x7d")
      (Emitted.lambda vs safe cs params bs) := by
  have htext : value ++ dot safe ++ callee ++ " \x7b " ++ params.text ++ body ++ " \x7d" =
      value ++ (dot safe ++ (callee ++ (" \x7b " ++ (params.text ++ (body ++ " \x7d"))))) := by
    simp only [String.append_assoc]
  have hopen : Block " \x7b " [.mark '\x7b'] := fun _ _ h => .blank (by decide) (.mark (by decide) (.blank (by decide) h))
  have hclose : Block " \x7d" [.mark '\x7d'] := fun _ _ h => .blank (by decide) (.mark (by decide) h)
  have hend : Shows (body ++ " \x7d") (bs ++ [.mark '\x7d']) := hbody.append (.ofBlock hclose) (by rintro _ ⟨⟩; rfl)
  have hinner := hcallee.glue hopen rfl (by decide) (.after (block_params hparams) hend)
  rw [htext]
  cases safe with
  | true => exact hvalue.glue (block_dot true) rfl (by decide) hinner
  | false => exact hvalue.glue (block_dot false) rfl (by decide) hinner

/-- A member behind a value. -/
theorem shows_member {value member : String} {vs ms : List Emitted} (hvalue : Shows value vs) (safe : Bool)
    (hmember : Shows member ms) :
    Shows (value ++ dot safe ++ member) (vs ++ ((Emitted.access safe).map .token ++ ms)) := by
  rw [String.append_assoc]
  cases safe with
  | true => exact hvalue.glue (block_dot true) rfl (by decide) hmember
  | false => exact hvalue.glue (block_dot false) rfl (by decide) hmember

theorem shows_pair {first second : String} {as bs : List Emitted} (hfirst : Shows first as) (hsecond : Shows second bs) :
    Shows (first ++ " to " ++ second) (as ++ (.word "to" :: bs)) := by
  rw [String.append_assoc]
  exact hfirst.glue block_to rfl (by decide) hsecond

theorem shows_builder (builder : String) : Shows ("associateTo(" ++ builder ++ "())")
    ([.word "associateTo", .mark '(', .text builder] ++ [.mark '(', .mark ')', .mark ')']) := by
  have htext : "associateTo(" ++ builder ++ "())" = "associateTo" ++ ("(" ++ (builder ++ "())")) := by
    simp only [← String.append_assoc]
    rfl
  have hbuilder : Shows (builder ++ "())") _ :=
    (Shows.ofText builder).append (.ofBlock block_closing) (by rintro _ ⟨⟩; rfl)
  rw [htext]
  exact (Shows.ofWord (by decide)).glue block_opening rfl (by decide) hbuilder

/-- **A conversion is cut into its pieces**, whatever value it is applied to and inside however many lambdas. -/
theorem shows_conversion {k : Conversion} (hk : ∀ part ∈ k.parts, Inner part) {v : String} {vs : List Emitted} (hv : Shows v vs)
    (nullable : Bool) (depth : Nat) : Shows (termOf v nullable depth k).text (Emitted.ofConversion vs nullable depth k) := by
  induction k generalizing v vs nullable depth with
  | identity => exact hv
  | placeholder =>
    intro _
    rw [Emitted.ofConversion, lexemes_tokens]
    exact phrase_placeholder
  | enumWhen arms => exact (hk _ List.mem_cons_self).elim
  | mapper function =>
    have hcall : Shows (function ++ "()") [.bare function, .mark '(', .mark ')'] :=
      (Shows.ofName (e := .bare function) rfl).append (.ofBlock block_parens) (by rintro _ ⟨⟩; rfl)
    exact shows_member hv nullable hcall
  | collection element n collect ih =>
    rw [Conversion.parts, List.forall_mem_cons] at hk
    have hparams : ∀ name ∈ (elementParams depth).names, Name.isPlain name := by
      rw [elementParams]
      split
      next => decide
      next =>
        intro name hname
        rw [List.mem_singleton.mp hname]
        exact isPlain_nameAt _ (by decide) depth
    have helement := ih hk.2 (Shows.ofWord (isPlain_nameAt "it" (by decide) depth)) n (depth + 1)
    have helements := shows_lambda hv nullable (Shows.ofWord (w := "map") (by decide)) hparams helement
    cases collect with
    | none => exact helements
    | some call =>
      have hcall : Shows call ((cut call).map .token) := by
        intro _
        rw [lexemes_tokens]
        exact hk.1
      exact shows_member helements nullable hcall
  | map builder key kn value vn ihk ihv =>
    rw [Conversion.parts, List.forall_mem_cons, List.forall_mem_append] at hk
    have hkey := ihk hk.2.1 (Shows.ofWord (isPlain_nameAt "key" (by decide) depth)) kn (depth + 1)
    have hvalue := ihv hk.2.2 (Shows.ofWord (isPlain_nameAt "value" (by decide) depth)) vn (depth + 1)
    have hparams : ∀ name ∈ (Params.two (nameAt "key" depth) (nameAt "value" depth)).names, Name.isPlain name := by
      simp only [Params.names, List.mem_cons, List.not_mem_nil, or_false, forall_eq_or_imp, forall_eq]
      exact ⟨isPlain_nameAt _ (by decide) depth, isPlain_nameAt _ (by decide) depth⟩
    have hentries := shows_member hv nullable (Shows.ofWord (w := "entries") (by decide))
    exact shows_lambda hentries nullable (shows_builder builder) hparams (shows_pair hkey hvalue)
  | pair first an second bn iha ihb =>
    rw [Conversion.parts, List.forall_mem_cons, List.forall_mem_append] at hk
    have hfirst := iha hk.2.1 (Shows.ofWord (isPlain_nameAt "first" (by decide) depth)) an (depth + 1)
    have hsecond := ihb hk.2.2 (Shows.ofWord (isPlain_nameAt "second" (by decide) depth)) bn (depth + 1)
    have hparams : ∀ name ∈ (Params.two (nameAt "first" depth) (nameAt "second" depth)).names, Name.isPlain name := by
      simp only [Params.names, List.mem_cons, List.not_mem_nil, or_false, forall_eq_or_imp, forall_eq]
      exact ⟨isPlain_nameAt _ (by decide) depth, isPlain_nameAt _ (by decide) depth⟩
    exact shows_lambda hv nullable (Shows.ofWord (w := "let") (by decide)) hparams (shows_pair hfirst hsecond)

/-! ## Lines -/

/-- Whether the lines of an expression are cut into these pieces. -/
def ShowsLines (lines : List String) (es : List Emitted) : Prop :=
  lines ≠ [] ∧ ∃ ess : List (List Emitted), Forall₂ Shows lines ess ∧ ess.flatten = es

namespace ShowsLines

variable {lines : List String} {text line : String} {es ts : List Emitted}

theorem single (h : Shows text es) : ShowsLines [text] es :=
  ⟨List.cons_ne_nil _ _, [es], .cons h .nil, by simp⟩

theorem item (h : ShowsLines lines es) (hes : ∀ e ∈ es, e.Closed ∧ e.Sound) : Item lines (es.flatMap Emitted.lexemes) := by
  obtain ⟨hne, ess, hess, rfl⟩ := h
  refine ⟨hne, ess.map (·.flatMap Emitted.lexemes), ?_, (lexemes_flatten ess).symm⟩
  clear hne
  induction hess with
  | nil => exact .nil
  | cons hline _ ih =>
    rw [List.flatten_cons, List.forall_mem_append] at hes
    exact .cons (hline hes.1).piece (ih hes.2)

/-- Lines the first of which has a phrase in front of it. -/
theorem glue {glue : String} {gs : List Lexeme} (ht : Shows text ts) (hglue : Block glue gs) {c : Char} {cs : List Char}
    (hstart : glue.toList = c :: cs) (hc : isNameChar c = false) (h : ShowsLines (line :: lines) es) :
    ShowsLines ((text ++ (glue ++ line)) :: lines) (ts ++ (gs.map .token ++ es)) := by
  obtain ⟨-, ess, hess, rfl⟩ := h
  obtain ⟨es, ess, hline, hlines, rfl⟩ := List.forall₂_cons_left_iff.mp hess
  refine ⟨List.cons_ne_nil _ _, (ts ++ (gs.map .token ++ es)) :: ess, .cons (ht.glue hglue hstart hc hline) hlines, ?_⟩
  simp

theorem written (h : ShowsLines lines es) (hes : ∀ e ∈ es, e.Closed ∧ e.Sound) :
    Written (lines.map .line) (es.flatMap Emitted.lexemes) := by
  obtain ⟨-, ess, hess, hflatten⟩ := h.item hes
  rw [← hflatten]
  exact .lines hess

end ShowsLines

theorem showsLines_when {subject : String} {ss : List Emitted} (hsubject : Shows subject ss) {arms : List Arm}
    {ess : List (List Emitted)} (harms : Forall₂ (fun a es => Shows (branch a) es) arms ess) (nullArm : Bool) :
    ShowsLines (When.mk subject arms nullArm).expression.lines (Emitted.ofWhen ss ess nullArm) := by
  have hhead : Shows ("when (" ++ subject ++ ") \x7b") (.word "when" :: .mark '(' :: (ss ++ [.mark ')', .mark '\x7b'])) := by
    have htext : "when (" ++ subject ++ ") \x7b" = "when" ++ (" (" ++ (subject ++ ") \x7b")) := by
      simp only [← String.append_assoc]
      rfl
    have hopen : Block " (" [.mark '('] := fun _ _ h => .blank (by decide) (.mark (by decide) h)
    have hclose : Block ") \x7b" [.mark ')', .mark '\x7b'] :=
      fun _ _ h => .mark (by decide) (.blank (by decide) (.mark (by decide) h))
    have hend : Shows (subject ++ ") \x7b") (ss ++ [.mark ')', .mark '\x7b']) :=
      hsubject.append (.ofBlock hclose) (by rintro _ ⟨⟩; rfl)
    rw [htext]
    exact (Shows.ofWord (w := "when") (by decide)).glue hopen rfl (by decide) hend
  have hindent : Block "    " [] :=
    fun _ _ h => .blank (by decide) (.blank (by decide) (.blank (by decide) (.blank (by decide) h)))
  have hbranches : Forall₂ Shows (arms.map fun a => "    " ++ branch a) ess :=
    List.forall₂_map_left_iff.mpr (harms.imp fun _ _ h => .after hindent h)
  have hnull : Forall₂ Shows ((nullBranch nullArm).map ("    " ++ ·))
      (if nullArm then [[.word "null", .token .arrow, .word "null"]] else []) := by
    cases nullArm with
    | false => exact .nil
    | true =>
      have : Shows ("null" ++ (" -> " ++ "null")) _ :=
        (Shows.ofWord (w := "null") (by decide)).glue block_arrow rfl (by decide) (.ofWord (w := "null") (by decide))
      exact .cons (.after hindent this) .nil
  have hclose : Block "\x7d" [.mark '\x7d'] := fun _ _ h => .mark (by decide) h
  have hlines : (When.mk subject arms nullArm).expression.lines =
      ("when (" ++ subject ++ ") \x7b") ::
        ((arms.map fun a => "    " ++ branch a) ++ (nullBranch nullArm).map ("    " ++ ·) ++ ["\x7d"]) := by
    rw [When.expression, When.branches, List.map_append, List.map_map, List.cons_append]
    rfl
  rw [hlines]
  have hend : Forall₂ Shows ["\x7d"] [[.mark '\x7d']] := .cons (.ofBlock hclose) .nil
  refine ⟨List.cons_ne_nil _ _, _, .cons hhead (List.rel_append (List.rel_append hbranches hnull) hend), ?_⟩
  rw [Emitted.ofWhen]
  cases nullArm <;> simp [Emitted.mark]

/-! ## Names -/

theorem dotted_cons (how : String → Emitted) (s : String) {ss : List String} (hss : ss ≠ []) :
    Emitted.dotted how (s :: ss) = how s :: .mark '.' :: Emitted.dotted how ss := by
  obtain ⟨t, ts, rfl⟩ := List.exists_cons_of_ne_nil hss
  rfl

theorem shows_dotted {how : String → Emitted} {written : String → String} (hhow : ∀ s, (s, written s) ∈ (how s).named?)
    (ss : List String) : Shows (join "." (ss.map written)) (Emitted.dotted how ss) := by
  induction ss with
  | nil => exact .empty
  | cons s ss ih =>
    cases ss with
    | nil => exact .ofName (hhow s)
    | cons t ts =>
      rw [dotted_cons how s (List.cons_ne_nil t ts), List.map_cons, List.map_cons, join_cons (List.cons_ne_nil _ _),
        String.append_assoc]
      exact (Shows.ofName (hhow s)).glue block_period rfl (by decide) ih

theorem shows_bare (ss : List String) : Shows (join "." ss) (Emitted.dotted .bare ss) := by
  have hdotted : Shows (join "." (ss.map id)) (Emitted.dotted .bare ss) := shows_dotted (fun _ => rfl) ss
  rwa [List.map_id] at hdotted

theorem join_concat {ss : List String} (hss : ss ≠ []) (name : String) :
    join "." ss ++ "." ++ name = join "." (ss ++ [name]) := (join_append hss (List.cons_ne_nil name [])).symm

theorem shows_branch {source target : String} {as bs : List Emitted} (hsource : Shows source as) (htarget : Shows target bs) :
    Shows (branch ⟨source, target⟩) (as ++ (.token .arrow :: bs)) := by
  rw [branch, String.append_assoc]
  exact hsource.glue block_arrow rfl (by decide) htarget

section

variable {g : Mapper.Setting} {c : ClassId} {target : Ref}

/-- The branches for a field, whose names are not quoted. -/
theorem shows_arms_bare (htarget : target.path ≠ []) :
    Forall₂ (fun a es => Shows (branch a) es) (g.arms c target) (Emitted.ofArms g .bare c target) := by
  rw [Mapper.Setting.arms, Emitted.ofArms, List.forall₂_map_left_iff, List.forall₂_map_right_iff, List.forall₂_same]
  intro e _
  rw [Project.nestedPath_eq, join_concat (g.project.nestedNames_ne_nil c), Ref.qualifiedName, join_concat htarget]
  exact shows_branch (shows_bare _) (shows_bare _)

/-- The branches of a function, whose names are quoted. -/
theorem shows_arms_path (htarget : target.path ≠ []) :
    Forall₂ (fun a es => Shows (branch a) es) ((g.arms c target).map fun a => ⟨safePath a.source, safePath a.target⟩)
      (Emitted.ofArms g .path c target) := by
  rw [Mapper.Setting.arms, Emitted.ofArms, List.map_map, List.forall₂_map_left_iff, List.forall₂_map_right_iff,
    List.forall₂_same]
  intro e _
  simp only [Function.comp_apply]
  rw [Project.nestedPath_eq, join_concat (g.project.nestedNames_ne_nil c), Ref.qualifiedName, join_concat htarget,
    safePath_join (by simp), safePath_join (by simp)]
  exact shows_branch (shows_dotted (fun _ => rfl) _) (shows_dotted (fun _ => rfl) _)

end

/-! ## Arguments -/

theorem phrase_collectCall {kind : CollectionKind} {call : String} (h : kind.collectCall? = some call) :
    Phrase call (cut call) := by
  have hcall {w : String} (hw : Name.isPlain w) : Phrase (w ++ "()") ([.word w] ++ [.mark '(', .mark ')']) :=
    (Phrase.word hw).append block_parens.phrase (by rintro _ ⟨⟩; rfl)
  have hinto {w : String} (hw : Name.isPlain w) : Phrase ("toCollection" ++ ("(" ++ (w ++ "())")))
      ([.word "toCollection"] ++ ([.mark '('] ++ ([.word w] ++ [.mark '(', .mark ')', .mark ')']))) :=
    (Phrase.word (by decide)).glue block_opening rfl (by decide)
      ((Phrase.word hw).append block_closing.phrase (by rintro _ ⟨⟩; rfl))
  cases kind <;> cases h
  · exact (hcall (w := "toMutableList") (by decide)).cut
  · exact (hcall (w := "toMutableList") (by decide)).cut
  · exact (hinto (w := "ArrayList") (by decide)).cut
  · exact (hcall (w := "toSet") (by decide)).cut
  · exact (hcall (w := "toMutableSet") (by decide)).cut
  · exact (hcall (w := "toHashSet") (by decide)).cut
  · exact (hinto (w := "LinkedHashSet") (by decide)).cut
  · exact (hcall (w := "toTypedArray") (by decide)).cut

section

variable {g : Mapper.Setting} {c : ClassId} {target : Ref}

theorem inner_argument {f : Field} (h : g.enumOf? c f = none) : ∀ part ∈ (g.argument c f).1.conversion.parts, Inner part := by
  intro part hpart
  cases part with
  | enumWhen arms => exact Mapper.Setting.enumWhen_not_mem_of_enumOf? h arms hpart
  | collection e n collect =>
    cases collect with
    | none => trivial
    | some call =>
      obtain ⟨kind, hkind⟩ := Mapper.Setting.collect_of_mem_parts_argument hpart
      exact phrase_collectCall hkind.symm
  | _ => trivial

theorem expression_lines {k : Conversion} (hk : ∀ arms, k ≠ .enumWhen arms) (v : String) (nullable : Bool) :
    (expressionOf k v nullable).lines = [(termOf v nullable 0 k).text] := by
  cases k with
  | enumWhen arms => exact absurd rfl (hk arms)
  | _ => rfl

/-- The value of an argument, over the enum of the field if there is one. -/
theorem showsLines_value {f : Field} (htargets : ∀ d r, g.table.ref? d = some r → r.path ≠ []) {v : String}
    {vs : List Emitted} (hv : Shows v vs) (nullable : Bool) :
    ShowsLines (expressionOf (g.argument c f).1.conversion v nullable).lines
      (match g.enumOf? c f with
        | some (id, target) => Emitted.ofWhen vs (Emitted.ofArms g .bare id target) nullable
        | none => Emitted.ofConversion vs nullable 0 (g.argument c f).1.conversion) := by
  cases henum : g.enumOf? c f with
  | some x =>
    obtain ⟨id, target⟩ := x
    have htarget : target.path ≠ [] := htargets _ _ (Mapper.Setting.ref?_of_enumOf? henum)
    rw [Mapper.Setting.conversion_of_enumOf? henum]
    exact showsLines_when hv (shows_arms_bare htarget) nullable
  | none =>
    have hinner : ∀ part ∈ (g.argument c f).1.conversion.parts, Inner part := inner_argument henum
    rw [expression_lines]
    · exact .single (shows_conversion hinner hv nullable 0)
    · intro arms harms
      rw [harms] at hinner
      exact hinner _ List.mem_cons_self

/-- **An argument is cut into its pieces.** -/
theorem showsLines_argument {f : Field} (htargets : ∀ d r, g.table.ref? d = some r → r.path ≠ []) :
    ShowsLines (argumentLines (g.argument c f).1.name
      (expressionOf (g.argument c f).1.conversion (safeName (g.argument c f).1.source) (g.argument c f).1.nullable))
      (Emitted.ofArgument g c f) := by
  have hname : Shows (safeName (g.argument c f).1.name) [.safe (g.argument c f).1.name] := .ofName rfl
  have hsource : Shows (safeName (g.argument c f).1.source) [.safe (g.argument c f).1.source] := .ofName rfl
  have hvalue := showsLines_value (c := c) (f := f) htargets hsource (g.argument c f).1.nullable
  rw [argumentLines, Emitted.ofArgument]
  generalize (expressionOf (g.argument c f).1.conversion (safeName (g.argument c f).1.source)
    (g.argument c f).1.nullable).lines = lines at hvalue ⊢
  cases lines with
  | nil => exact absurd rfl hvalue.1
  | cons first rest =>
    simp only [String.append_assoc]
    exact ShowsLines.glue hname block_equals rfl (by decide) hvalue

end

/-! ## Functions -/

section

variable {g : Mapper.Setting} {c : ClassId} {target : Ref}

theorem function_draft (g : Mapper.Setting) (c : ClassId) (target : Ref) : (g.draft c target).function =
    ⟨c, (TypeParams.ofOption (g.project.decl c).typeParams).asFunctionDeclaration,
      g.project.nestedPath c ++ (TypeParams.ofOption (g.project.decl c).typeParams).asArguments, g.naming.functionName,
      target.qualifiedName ++ (TypeParams.ofOption (g.project.decl c).typeParams).asArguments,
      if (g.project.decl c).isEnum then .enumWhen (g.arms c target)
      else .construct target.qualifiedName ((g.project.decl c).visibleFields.map fun f => (g.argument c f).1)⟩ := by
  rw [Mapper.Setting.draft]
  cases (g.project.decl c).isEnum with
  | true => rfl
  | false =>
    simp only [Bool.false_eq_true, if_false, List.map_map]
    rfl

theorem signature_draft (g : Mapper.Setting) (c : ClassId) (target : Ref) :
    let typeParams := TypeParams.ofOption (g.project.decl c).typeParams
    (FunctionCode.ofFunction (g.draft c target).function).signature =
      "fun " ++ (if typeParams.asFunctionDeclaration.isEmpty then "" else typeParams.asFunctionDeclaration ++ " ") ++
        (g.project.nestedPath c ++ typeParams.asArguments) ++ "." ++ g.naming.functionName ++ "(): " ++
        (target.qualifiedName ++ typeParams.asArguments) ++ " = " := by
  rw [function_draft]
  rfl

theorem exists_signature (g : Mapper.Setting) (c : ClassId) (target : Ref) : ∃ text,
    (FunctionCode.ofFunction (g.draft c target).function).signature = text ++ " = " ∧
      Shows text (Emitted.ofSignature g c target) := by
  rw [signature_draft, Emitted.ofSignature]
  generalize TypeParams.ofOption (g.project.decl c).typeParams = typeParams
  have hreceiver : Shows (g.project.nestedPath c ++ typeParams.asArguments)
      (Emitted.dotted .bare (g.project.nestedNames c) ++ [.behind typeParams.asArguments]) := (shows_bare _).behind _
  have hreturns : Shows (target.qualifiedName ++ typeParams.asArguments)
      (Emitted.dotted .bare target.path ++ [.behind typeParams.asArguments]) := (shows_bare _).behind _
  have hcall : Block "(): " [.mark '(', .mark ')', .mark ':'] :=
    fun _ _ h => .mark (by decide) (.mark (by decide) (.mark (by decide) (.blank (by decide) h)))
  have hname : Shows (g.naming.functionName ++ ("(): " ++ (target.qualifiedName ++ typeParams.asArguments))) _ :=
    (Shows.ofName (e := .bare g.naming.functionName) rfl).glue hcall rfl (by decide) hreturns
  have hrest := hreceiver.glue block_period rfl (by decide) hname
  have hfun : Shows "fun" [.word "fun"] := .ofWord (by decide)
  by_cases hparams : typeParams.asFunctionDeclaration.isEmpty
  · have hsignature := hfun.glue block_space rfl (by decide) hrest
    simp only [if_pos hparams]
    refine ⟨_, ?_, hsignature⟩
    simp only [String.append_assoc]
    rfl
  · have hsignature := hfun.glue block_space rfl (by decide)
      ((Shows.ofText typeParams.asFunctionDeclaration).glue block_space rfl (by decide) hrest)
    simp only [if_neg hparams]
    refine ⟨_, ?_, hsignature⟩
    simp only [String.append_assoc]
    rfl

theorem FunctionCode.fragments_of_branches {f : FunctionCode} {w : When} (hbody : f.body = .branches w) {first : String}
    {rest : List String} (hlines : w.expression.lines = first :: rest) :
    f.fragments = ((f.signature ++ first) :: rest).map .line := by
  rw [fragments, hbody]
  simp only
  rw [hlines]
  rfl

theorem body_of_isEnum (henum : (g.project.decl c).isEnum = true) : (FunctionCode.ofFunction (g.draft c target).function).body =
    .branches ⟨"this", (g.arms c target).map fun a => ⟨safePath a.source, safePath a.target⟩, false⟩ := by
  rw [function_draft, if_pos henum]
  rfl

theorem body_of_not_isEnum (target : Ref) (henum : ¬ (g.project.decl c).isEnum = true) :
    (FunctionCode.ofFunction (g.draft c target).function).body = .call target.qualifiedName
      (((g.project.decl c).visibleFields.map fun f => (g.argument c f).1).map fun a =>
        (a.name, expressionOf a.conversion (safeName a.source) a.nullable)) := by
  rw [function_draft, if_neg henum]
  rfl

/-- The function of an enum: branches behind the signature. -/
theorem written_branches (henum : (g.project.decl c).isEnum = true) (htarget : target.path ≠ [])
    (h : ∀ e ∈ Emitted.ofFunction g c target, e.Closed ∧ e.Sound) :
    Written (FunctionCode.ofFunction (g.draft c target).function).fragments
      ((Emitted.ofFunction g c target).flatMap Emitted.lexemes) := by
  obtain ⟨signature, hsignature, hshows⟩ := exists_signature g c target
  have hthis : Shows "this" [.word "this"] := .ofWord (by decide)
  have hlines := showsLines_when hthis (shows_arms_path (g := g) (c := c) htarget) false
  obtain ⟨first, rest, hfirst⟩ := List.exists_cons_of_ne_nil hlines.1
  rw [Emitted.ofFunction, if_pos henum] at h ⊢
  rw [FunctionCode.fragments_of_branches (body_of_isEnum henum) hfirst, hsignature, String.append_assoc]
  rw [hfirst] at hlines
  exact (ShowsLines.glue hshows block_equals rfl (by decide) hlines).written h

/-- The function of a class with fields: a call, with an argument for each field, behind the signature. -/
theorem written_call (henum : ¬ (g.project.decl c).isEnum = true)
    (htargets : ∀ d r, g.table.ref? d = some r → r.path ≠ []) (h : ∀ e ∈ Emitted.ofFunction g c target, e.Closed ∧ e.Sound) :
    Written (FunctionCode.ofFunction (g.draft c target).function).fragments
      ((Emitted.ofFunction g c target).flatMap Emitted.lexemes) := by
  obtain ⟨signature, hsignature, hshows⟩ := exists_signature g c target
  have hbody := body_of_not_isEnum target henum
  rw [Emitted.ofFunction, if_neg henum, FunctionCode.trails, hbody, hsignature] at h ⊢
  rw [FunctionCode.fragments, hbody, hsignature]
  simp only [List.map_map] at h ⊢
  obtain ⟨hhead, hcall⟩ := List.forall_mem_append.mp h
  obtain ⟨htarget, harguments⟩ := List.forall_mem_append.mp (List.forall_mem_cons.mp hcall).2
  have hlisted := (List.forall_mem_append.mp (List.forall_mem_cons.mp harguments).2).1
  have hbefore : Shows (signature ++ (" = " ++ target.qualifiedName)) _ :=
    hshows.glue block_equals rfl (by decide) (shows_bare target.path)
  have hgood : ∀ e ∈ Emitted.ofSignature g c target ++ ([Lexeme.mark '='].map Emitted.token ++
      Emitted.dotted Emitted.bare target.path), e.Closed ∧ e.Sound := by
    rw [List.forall_mem_append]
    exact ⟨hhead, List.forall_mem_cons.mpr ⟨⟨trivial, trivial⟩, htarget⟩⟩
  have hitems := forall₂_of_listed hlisted fun f _ hf => (showsLines_argument (g := g) (c := c) htargets).item hf
  have hwritten := written_listing (hbefore hgood).piece (List.forall₂_map_left_iff.mpr hitems) .empty
  rw [String.append_assoc] at h ⊢
  rw [List.flatMap_append, List.flatMap_cons, List.flatMap_append, List.flatMap_cons, List.flatMap_append, lexemes_commas]
  rw [List.flatMap_append, List.flatMap_append, lexemes_tokens, List.append_assoc, List.append_assoc] at hwritten
  exact hwritten

/-- **A function is cut into its pieces**, when these are fit for where they stand. -/
theorem written_ofFunction (htargets : ∀ d r, g.table.ref? d = some r → r.path ≠ []) (htarget : target.path ≠ [])
    (h : ∀ e ∈ Emitted.ofFunction g c target, e.Closed ∧ e.Sound) :
    Written (FunctionCode.ofFunction (g.draft c target).function).fragments
      ((Emitted.ofFunction g c target).flatMap Emitted.lexemes) := by
  by_cases henum : (g.project.decl c).isEnum
  · exact written_branches henum htarget h
  · exact written_call henum htargets h

end

end Counterpart.Code
