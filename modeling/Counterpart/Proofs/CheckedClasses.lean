/-
Reading classes with checks. The reader goes back where a member turns out to be no class, and reads it again to skip it.
-/
import Counterpart.Proofs.CheckedParameters

namespace Counterpart.Kotlin

open Text

namespace TokenSpans

open Reader

variable {source : String} (toks : TokenSpans)

/-! ## Skipping members -/

/-- Whether a declaration comes next. -/
def startsDeclaration : Reader source Bool := do
  match ← toks.nameAt 0 with
  | some word => do
    let last ← toks.tokenBefore
    if word = "class" && last.any (TokenSpan.isMark ':') then return false
    else if declarationWords.contains word then return true
    else toks.atModifier
  | none => return false

/-- Skips up to where a member ends, and up to an opening brace too when `stopAtBrace` is set. -/
def skipToDeclaration (toks : TokenSpans) (stopAtBrace : Bool) : Reader source Unit := do
  let t ← toks.tokenAt 0
  if t.isEnd || t.isMark '\x7d' || t.isMark ';' || t.isMark '@' || (stopAtBrace && t.isMark '\x7b') then return ()
  else if ← toks.startsDeclaration then return ()
  else do
    toks.skipNext
    toks |>.skipToDeclaration stopAtBrace
partial_fixpoint

def skipMember : Reader source Unit := do
  toks.skipNext
  toks.skipToDeclaration false

/-! ## Class headers -/

/-- The modifiers before a declaration. -/
def modifiers (toks : TokenSpans) : Reader source (List String) := do
  if (← toks.tokenAt 0).isMark '@' then do
    let _ ← toks.annotationName
    toks |>.modifiers
  else if ← toks.atModifier then do
    let word ← textOf (← toks.advance)
    return word :: (← toks |>.modifiers)
  else if (← toks.atWord "fun") && (← toks.nameAt 1) == some "interface" then do
    let _ ← toks.advance
    toks |>.modifiers
  else return []
partial_fixpoint

/-- The kind of class that the next token declares after the given modifiers. -/
def classKind (modifiers : List String) : Reader source (Option ClassKind) := do
  let word ← toks.nameAt 0
  if word == some "class" then
    if modifiers.contains "data" then return some .data
    else if modifiers.contains "enum" then return some .enum
    else if modifiers.contains "annotation" then return some .annotationClass
    else if modifiers.contains "value" || modifiers.contains "inline" then return some .value
    else return some .plain
  else if word == some "interface" then return some .interface
  else if word == some "object" then return some .object
  else return none

/-- The name of a class after its keyword; none for an object without one. -/
def classNamed (kind : ClassKind) (keyword : TokenSpan) : Reader source (Option TokenSpan) := do
  let t ← toks.tokenAt 0
  if (← toks.nameAt 0).any fun word => !declarationWords.contains word then return some (← toks.advance)
  else if kind = .object then return none
  else refuse (.namelessClass (← textOf keyword)) t.start t.stop

/-- How many angle brackets are open behind a token. -/
def anglesBehind (t : TokenSpan) (depth : Nat) : Reader source Nat :=
  if t.isMark '<' then return depth + 1 else if t.isMark '>' then less depth else return depth

/-- Goes on to where the angle brackets are closed of which `depth` are open. -/
def closeAngles (toks : TokenSpans) (opener : TokenSpan) (depth : Nat) : Reader source Unit := do
  if depth = 0 then return ()
  else do
    let t ← toks.tokenAt 0
    if t.isEnd || t.isMark '\x7b' || t.isMark ')' then refuse (.unclosed "<") opener.start opener.stop
    else do
      let depth ← anglesBehind t depth
      toks.skipNext
      toks |>.closeAngles opener depth
partial_fixpoint

/-- The type parameters as written, if they come next. -/
def typeParameters : Reader source (Option String) := do
  let opener ← toks.tokenAt 0
  if opener.isMark '<' then do
    let _ ← toks.advance
    toks.closeAngles opener 1
    return some (← toks.textFrom opener.start)
  else return none

def skipSupertypes : Reader source Unit := do
  if ← toks.eat ':' then toks.skipToDeclaration true
  else if ← toks.atWord "where" then toks.skipToDeclaration true
  else return ()

/-! ## Enum entries -/

def entryArguments : Reader source (Option String) := do
  if (← toks.tokenAt 0).isMark '(' then return some (← toks.captureBalanced) else return none

def skipEntryBody : Reader source Unit := do
  if (← toks.tokenAt 0).isMark '\x7b' then toks.skipBalanced else return ()

/-- The rest of the entry that a name starts. -/
def enumEntry (t : TokenSpan) : Reader source EnumEntry := do
  let name ← textOf t
  let args ← toks.entryArguments
  toks.skipEntryBody
  return ⟨Name.unquote name, args⟩

/-- The entries at the start of an enum body. -/
def enumEntries (toks : TokenSpans) : Reader source (List EnumEntry) := do
  toks.annotations
  let t ← toks.tokenAt 0
  if t.isMark ';' then do
    let _ ← toks.advance
    return []
  else if t.isMark '\x7d' then return []
  else if t.isName then do
    let entry ← toks.enumEntry (← toks.advance)
    if ← toks.eat ',' then return entry :: (← toks |>.enumEntries)
    else do
      let _ ← toks.eat ';'
      return [entry]
  else refuse .missingEnumEntry t.start t.stop
partial_fixpoint

def entriesOf (kind : ClassKind) : Reader source (List EnumEntry) :=
  if kind = .enum then toks.enumEntries else return []

/-! ## Classes -/

mutual

/-- A class with its modifiers; none when something else comes next, and the position is then anywhere behind it. -/
def classTree (toks : TokenSpans) : Reader source (Option ClassTree) := do
  match ← toks.classKind (← toks.modifiers) with
  | some kind => do
    match ← toks.classNamed kind (← toks.advance) with
    | some token => do
      let name := Name.unquote (← textOf token)
      let typeParams ← toks.typeParameters
      let fields ← toks.primaryConstructor
      toks.skipSupertypes
      let (entries, nested) ← toks |>.classBody kind name
      return some ⟨name, kind, typeParams, fields, entries, nested, token.start⟩
    | none => return none
  | none => return none
partial_fixpoint

/-- The body in braces, if it comes next. -/
def classBody (toks : TokenSpans) (kind : ClassKind) (name : String) : Reader source (List EnumEntry × List ClassTree) := do
  let opener ← toks.tokenAt 0
  if opener.isMark '\x7b' then do
    let _ ← toks.advance
    let entries ← toks.entriesOf kind
    let nested ← toks |>.members
    if ← toks.eat '\x7d' then return (entries, nested) else refuse (.unclosedBody name) opener.start opener.stop
  else return ([], [])
partial_fixpoint

/-- The classes among the members up to a closing brace or the end. -/
def members (toks : TokenSpans) : Reader source (List ClassTree) := do
  let t ← toks.tokenAt 0
  if t.isEnd || t.isMark '\x7d' then return []
  else if t.isMark ';' then do
    let _ ← toks.advance
    toks |>.members
  else do
    let start ← get
    match ← toks |>.classTree with
    | some c => return c :: (← toks |>.members)
    | none => do
      set start
      toks.skipMember
      toks |>.members
partial_fixpoint

end

/-! ## Sources -/

def file : Reader source SourceUnit := do
  toks.annotations
  let package ← toks.package
  let imports ← toks.imports
  let classes ← toks.members
  let t ← toks.tokenAt 0
  if t.isEnd then return ⟨package, imports, classes⟩ else refuse (.unexpected '\x7d') t.start t.stop

end TokenSpans

/-- What a source declares: it is cut into tokens, and these are read from the first one on. -/
def Reader.sourceUnit {source : String} : Reader source SourceUnit := do
  let toks ← tokenize
  set 0
  TokenSpans.file toks

namespace Tracks

variable {source : String} {s : TokenStream} {t : Token} {ts : List Token} (hs : s.Lossless source)
include hs

/-! ## Skipping members -/

theorem ends_startsDeclaration (hts : t :: ts <:+ s.tokens) {afterColon : Bool}
    (hcolon : t.text = "class" → (s.behind (t :: ts)).any (Token.isMark ':') = afterColon) :
    ((s.spans source).startsDeclaration : Reader source Bool).Ends (s.index (t :: ts))
      (.ok (startsDeclaration afterColon t ts, s.index (t :: ts))) := by
  rw [TokenSpans.startsDeclaration, Reader.Ends.bind_iff (ends_nameAt hs hts 0), List.getElem?_cons_zero, Option.filter_some,
    startsDeclaration]
  by_cases hname : t.isName = true
  · have hlast : ((s.behind (t :: ts)).map Token.bounds).any (TokenSpan.isMark ':') =
        (s.behind (t :: ts)).any (Token.isMark ':') := by
      cases s.behind (t :: ts) <;> rfl
    have hclass : (t.text = "class" && (s.behind (t :: ts)).any (Token.isMark ':')) = (afterColon && t.text == "class") := by
      rw [Bool.and_comm]
      by_cases h : t.text = "class"
      · simp [h, hcolon h]
      · simp [h]
    rw [if_pos hname, hname, Bool.true_and]
    dsimp only [Option.map_some]
    rw [Reader.Ends.bind_iff (ends_tokenBefore hts), hlast, hclass]
    split_ifs with hafter hword
    · rw [hafter]
      exact .pure _ _
    · rw [Bool.of_not_eq_true hafter, hword, Bool.true_or]
      exact .pure _ _
    · rw [Bool.of_not_eq_true hafter, Bool.of_not_eq_true hword, Bool.false_or]
      exact ends_atModifier hs hts
  · rw [if_neg hname, Bool.of_not_eq_true hname, Bool.false_and, Bool.false_and]
    exact .pure _ _

theorem skipToDeclaration (stopAtBrace afterColon : Bool) (ts : List Token) (hts : ts <:+ s.tokens)
    (hcolon : ∀ t ∈ ts.head?, t.text = "class" → (s.behind ts).any (Token.isMark ':') = afterColon) :
    Tracks s ((s.spans source).skipToDeclaration stopAtBrace : Reader source Unit) ts
      (Kotlin.skipToDeclaration stopAtBrace afterColon ts) := by
  rw [TokenSpans.skipToDeclaration]
  refine .peek hts ?_
  cases ts with
  | nil =>
    rw [Kotlin.skipToDeclaration]
    exact .done _ _
  | cons t ts =>
    rw [ahead_zero, isEnd_bounds, Bool.false_or, isMark_bounds, isMark_bounds, isMark_bounds, isMark_bounds,
      Kotlin.skipToDeclaration]
    by_cases hstop : (t.isMark '\x7d' || t.isMark ';' || t.isMark '@' || (stopAtBrace && t.isMark '\x7b')) = true
    · rw [if_pos hstop, hstop, Bool.true_or, if_pos rfl]
      exact .done _ _
    · rw [if_neg hstop, Bool.of_not_eq_true hstop, Bool.false_or]
      refine step (ends_startsDeclaration hs hts (hcolon t rfl)) (List.suffix_refl _) ?_
      split
      · exact .done _ _
      · refine .bind (skipNext hs hts) fun _ rest h hskip hrest => ?_
        obtain ⟨u, hbehind, -, hcolon⟩ := behind_of_skipOne hts hskip
        refine .relabel (fun _ => ⟨_, rfl⟩) (skipToDeclaration stopAtBrace (t.isMark ':') rest (hrest.trans hts) fun _ _ _ => ?_)
        rw [hbehind, Option.any_some, hcolon]
termination_by ts.length
decreasing_by all_goals grind

theorem skipMember (hts : t :: ts <:+ s.tokens) :
    Tracks s ((s.spans source).skipMember : Reader source Unit) (t :: ts) (Kotlin.skipMember t ts) := by
  rw [TokenSpans.skipMember, Kotlin.skipMember]
  refine .bind (skipNext hs hts) fun _ rest h hskip hrest => ?_
  obtain ⟨u, hbehind, -, hcolon⟩ := behind_of_skipOne hts hskip
  refine .relabel (fun _ => ⟨_, rfl⟩) (skipToDeclaration hs false (t.isMark ':') rest (hrest.trans hts) fun _ _ _ => ?_)
  rw [hbehind, Option.any_some, hcolon]

/-! ## Class headers -/

theorem modifiers (ts : List Token) (hts : ts <:+ s.tokens) :
    Tracks s ((s.spans source).modifiers : Reader source (List String)) ts (Kotlin.modifiers ts) := by
  rw [TokenSpans.modifiers]
  refine .peek hts ?_
  cases ts with
  | nil =>
    rw [Kotlin.modifiers]
    exact step (ends_atModifier hs hts) (List.suffix_refl _) (.word hs hts (.name hs hts (.done _ _)))
  | cons t ts =>
    have hsuffix := (List.suffix_cons t ts).trans hts
    rw [ahead_zero, isMark_bounds, Kotlin.modifiers]
    split
    · refine .bind (annotationName hs hts) fun _ rest _ _ hrest => ?_
      exact .relabel (fun _ => ⟨_, rfl⟩) (modifiers rest (hrest.trans hts))
    refine step (ends_atModifier hs hts) (List.suffix_refl _) ?_
    rw [List.head?_cons, Option.any_some, List.tail_cons]
    split
    · refine .advance hts (.text hs (hts.subset List.mem_cons_self) ?_)
      exact .bind (modifiers ts hsuffix) fun _ _ _ _ _ => .done _ _
    refine .word hs hts (.name hs hts ?_)
    rw [List.head?_cons, Option.any_some, List.getElem?_cons_succ, nameText_beq, ← List.head?_eq_getElem?]
    split
    · exact .advance hts (.relabel (fun _ => ⟨_, rfl⟩) (modifiers ts hsuffix))
    · exact .done _ _
termination_by ts.length

theorem closeAngles {opener : Token} (hopener : opener ∈ s.tokens) (depth : Nat) (ts : List Token) (hts : ts <:+ s.tokens) :
    Tracks s ((s.spans source).closeAngles opener.bounds depth : Reader source Unit) ts
      (Kotlin.closeAngles opener depth ts) := by
  rw [TokenSpans.closeAngles]
  cases ts with
  | nil =>
    rw [Kotlin.closeAngles]
    split
    · exact .done _ _
    · exact .peek hts (.refuseAt hs hopener _)
  | cons t ts =>
    rw [Kotlin.closeAngles]
    split
    · exact .done _ _
    next hdepth =>
      obtain ⟨n, rfl⟩ := Nat.exists_eq_add_one_of_ne_zero hdepth
      refine .peek hts ?_
      rw [ahead_zero, isEnd_bounds, Bool.false_or, isMark_bounds, isMark_bounds]
      split
      · exact .refuseAt hs hopener _
      have hcount : (TokenSpans.anglesBehind t.bounds (n + 1) : Reader source Nat).Ends (s.index (t :: ts))
          (.ok (if t.isMark '<' then n + 1 + 1 else if t.isMark '>' then n + 1 - 1 else n + 1, s.index (t :: ts))) := by
        rw [TokenSpans.anglesBehind, isMark_bounds, isMark_bounds]
        split_ifs
        · exact .pure _ _
        · exact .less _
        · exact .pure _ _
      refine step hcount (List.suffix_refl _) (.bind (skipNext hs hts) fun _ rest _ _ hrest => ?_)
      exact .relabel (fun _ => ⟨_, rfl⟩) (closeAngles hopener _ rest (hrest.trans hts))
termination_by ts.length
decreasing_by all_goals grind

theorem typeParameters (hts : ts <:+ s.tokens) :
    Tracks s ((s.spans source).typeParameters : Reader source (Option String)) ts (Kotlin.typeParameters ts) := by
  rw [TokenSpans.typeParameters, Kotlin.typeParameters]
  refine .peek hts ?_
  cases ts with
  | nil => exact .done _ _
  | cons t ts =>
    have hsuffix := (List.suffix_cons t ts).trans hts
    rw [ahead_zero, isMark_bounds, takeMark]
    by_cases hless : t.isMark '<' = true
    · rw [if_pos hless, if_pos hless]
      refine .advance hts (.bind (closeAngles hs (hts.subset List.mem_cons_self) 1 ts hsuffix) fun _ rest h _ hrest => ?_)
      exact step (ends_textFrom hs hts (hrest.trans (List.suffix_cons t ts)) h) (List.suffix_refl _) (.done _ _)
    · rw [if_neg hless, if_neg hless]
      exact .done _ _

theorem skipSupertypes (hts : ts <:+ s.tokens) :
    Tracks s ((s.spans source).skipSupertypes : Reader source Unit) ts (Kotlin.skipSupertypes ts) := by
  have hmark := eat source hts ':'
  rw [TokenSpans.skipSupertypes, Kotlin.skipSupertypes]
  generalize htake : takeMark ':' ts = p at hmark
  obtain ⟨found, us, h⟩ := p
  refine .after hmark fun hsuffix => ?_
  cases found with
  | true =>
    obtain ⟨t, rfl, hcolon⟩ := takeMark_true htake
    refine .relabel (fun _ => ⟨_, rfl⟩) (skipToDeclaration hs true true us (hsuffix.trans hts) fun _ _ _ => ?_)
    rw [TokenStream.behind_cons hts, Option.any_some, hcolon]
  | false =>
    cases takeMark_false htake
    rw [if_neg Bool.false_ne_true]
    refine .word hs hts ?_
    dsimp only
    split
    next hwhere =>
      -- the word `where` starts no declaration, whatever stands behind it
      refine skipToDeclaration hs true false ts hts fun t ht hclass => ?_
      rw [Option.mem_def] at ht
      simp [ht, Token.isWord, hclass] at hwhere
    next => exact .done _ _

/-! ## Enum entries -/

theorem entryArguments (hts : ts <:+ s.tokens) :
    Tracks s ((s.spans source).entryArguments : Reader source (Option String)) ts (Kotlin.entryArguments ts) := by
  rw [TokenSpans.entryArguments]
  refine .peek hts ?_
  cases ts with
  | nil => exact .done _ _
  | cons t ts =>
    rw [ahead_zero, isMark_bounds, Kotlin.entryArguments]
    split
    next =>
      have hcapture := captureBalanced hs hts
      cases hgroup : skipGroup t ts with
      | error f =>
        rw [hgroup] at hcapture
        exact Reader.Ends.bind_error hcapture _
      | ok p =>
        rw [hgroup] at hcapture
        exact .after hcapture fun _ => .done _ _
    next => exact .done _ _

theorem skipEntryBody (hts : ts <:+ s.tokens) :
    Tracks s ((s.spans source).skipEntryBody : Reader source Unit) ts (Kotlin.skipEntryBody ts) := by
  rw [TokenSpans.skipEntryBody]
  refine .peek hts ?_
  cases ts with
  | nil => exact .done _ _
  | cons t ts =>
    rw [ahead_zero, isMark_bounds, Kotlin.skipEntryBody]
    split
    · exact .relabel (fun _ => ⟨_, rfl⟩) (skipBalanced hs hts)
    · exact .done _ _

theorem enumEntry (ht : t ∈ s.tokens) (hts : ts <:+ s.tokens) :
    Tracks s ((s.spans source).enumEntry t.bounds : Reader source EnumEntry) ts (Kotlin.enumEntry t ts) := by
  rw [TokenSpans.enumEntry, Kotlin.enumEntry]
  refine .text hs ht (.bind (entryArguments hs hts) fun args rest _ _ hrest => ?_)
  exact .bind (skipEntryBody hs (hrest.trans hts)) fun _ _ _ _ _ => .done _ _

theorem enumEntries (ts : List Token) (hts : ts <:+ s.tokens) :
    Tracks s ((s.spans source).enumEntries : Reader source (List EnumEntry)) ts (Kotlin.enumEntries ts) := by
  rw [TokenSpans.enumEntries, Kotlin.enumEntries]
  refine .bind (annotations hs ts hts) fun _ rest h₁ _ hrest => ?_
  have hrest := hrest.trans hts
  refine .peek hrest ?_
  cases rest with
  | nil => exact .refuseAtEnd hs _
  | cons t us =>
    have hus := (List.suffix_cons t us).trans hrest
    rw [ahead_zero, isMark_bounds, isMark_bounds, isName_bounds]
    dsimp only
    split
    · exact .advance hrest (.done _ _)
    split
    · exact .done _ _
    split
    next =>
      refine .advance hrest (.bind (enumEntry hs (hrest.subset List.mem_cons_self) hus) fun entry vs h₂ _ hvs => ?_)
      have hvs := hvs.trans hus
      have hcomma := eat source hvs ','
      dsimp only
      generalize htake : takeMark ',' vs = p at hcomma
      obtain ⟨found, ws, h₃⟩ := p
      refine .after hcomma fun hws => ?_
      cases found with
      | true => exact .bind (enumEntries ws (hws.trans hvs)) fun _ _ _ _ _ => .done _ _
      | false =>
        cases takeMark_false htake
        exact .after (eat source hvs ';') fun _ => .done _ _
    next => exact .refuseAt hs (hrest.subset List.mem_cons_self) _
termination_by ts.length
decreasing_by all_goals grind

theorem entriesOf (kind : ClassKind) (hts : ts <:+ s.tokens) :
    Tracks s ((s.spans source).entriesOf kind : Reader source (List EnumEntry)) ts (Kotlin.entriesOf kind ts) := by
  rw [TokenSpans.entriesOf, Kotlin.entriesOf]
  split
  · exact enumEntries hs ts hts
  · exact .done _ _

/-! ## Classes -/

theorem ends_classKind (words : List String) (hts : ts <:+ s.tokens) :
    ((s.spans source).classKind words : Reader source (Option ClassKind)).Ends (s.index ts)
      (.ok (ts.head?.bind (ClassKind.ofKeyword? words), s.index ts)) := by
  rw [TokenSpans.classKind, Reader.Ends.bind_iff (ends_nameAt hs hts 0)]
  cases ts with
  | nil => exact .pure _ _
  | cons t ts =>
    rw [List.getElem?_cons_zero, nameText_beq, nameText_beq, nameText_beq, Option.any_some, Option.any_some, Option.any_some,
      List.head?_cons, Option.bind_some, ClassKind.ofKeyword?]
    split_ifs <;> exact .pure _ _

end Tracks

/-- The name of a class is the next token. -/
theorem className_ok {kind : ClassKind} {keyword name : Token} {ts rest : List Token} {h}
    (hname : className kind keyword ts = .ok (some ⟨name, rest, h⟩)) : ts = name :: rest ∧ name.isName = true := by
  cases ts with
  | nil =>
    rw [className] at hname
    split at hname <;> cases hname
  | cons t ts =>
    rw [className] at hname
    split_ifs at hname with hword
    · cases hname
      exact ⟨rfl, (Bool.and_eq_true_iff.mp hword).1⟩
    · cases hname

/-- The same for readers that may find nothing, wherever they are then. -/
def TracksIfAny {source : String} {α : Type} {n : Nat} (s : TokenStream) (x : Reader source (Option α)) (ts : List Token) :
    Except Fault (Option (Parsed α n)) → Prop
  | .ok (some p) => p.rest <:+ ts ∧ x.Ends (s.index ts) (.ok (some p.value, s.index p.rest))
  | .ok none => ∃ pos, x.Ends (s.index ts) (.ok (none, pos))
  | .error f => x.Ends (s.index ts) (.error (f.toError s.size))

namespace TracksIfAny

variable {source : String} {s : TokenStream} {α β : Type} {m n : Nat} {t : Token} {ts rest : List Token}
variable {x : Reader source α} {k : α → Reader source (Option β)} {y : Except Fault (Parsed α m)}
variable {z : Except Fault (Option (Parsed β n))}

theorem step {a : α} (hx : x.Ends (s.index ts) (.ok (a, s.index rest))) (hrest : rest <:+ ts) (hk : TracksIfAny s (k a) rest z) :
    TracksIfAny s (x >>= k) ts z := by
  match z, hk with
  | .ok (some p), hk => exact ⟨hk.1.trans hrest, (Reader.Ends.bind_iff hx).mpr hk.2⟩
  | .ok none, hk =>
    obtain ⟨pos, hk⟩ := hk
    exact ⟨pos, (Reader.Ends.bind_iff hx).mpr hk⟩
  | .error f, hk =>
    have hk : (k a).Ends (s.index rest) (.error (f.toError s.size)) := hk
    exact (Reader.Ends.bind_iff hx).mpr hk

theorem bind {f : Parsed α m → Except Fault (Option (Parsed β n))} (hx : Tracks s x ts y)
    (hk : ∀ a rest h, rest <:+ ts → TracksIfAny s (k a) rest (f ⟨a, rest, h⟩)) : TracksIfAny s (x >>= k) ts (y >>= f) := by
  cases y with
  | ok p => exact step hx.2 hx.1 (hk p.value p.rest p.rest_lt hx.1)
  | error e => exact Reader.Ends.bind_error hx k

theorem none : TracksIfAny s (pure Option.none : Reader source (Option α)) ts (.ok (Option.none : Option (Parsed α n))) :=
  ⟨_, .pure _ _⟩

theorem some (a : α) (h : ts.length < n) :
    TracksIfAny s (pure (Option.some a) : Reader source (Option α)) ts (.ok (Option.some (⟨a, ts, h⟩ : Parsed α n))) :=
  ⟨List.suffix_refl ts, .pure _ _⟩

end TracksIfAny

namespace Tracks

variable {source : String} {s : TokenStream} {t : Token} {ts : List Token} (hs : s.Lossless source)
include hs

theorem classNamed (kind : ClassKind) {keyword : Token} (hkeyword : keyword ∈ s.tokens) (hts : ts <:+ s.tokens) :
    TracksIfAny s ((s.spans source).classNamed kind keyword.bounds : Reader source (Option TokenSpan)) ts
      ((className kind keyword ts).map (Option.map (Parsed.map Token.bounds))) := by
  rw [TokenSpans.classNamed]
  refine .step (ends_tokenAt hts 0) (List.suffix_refl ts) (.step (ends_nameAt hs hts 0) (List.suffix_refl ts) ?_)
  cases ts with
  | nil =>
    rw [className]
    change TracksIfAny s (if kind = .object then _ else _) _ _
    split
    · exact .none
    · exact .step (ends_textOf hs hkeyword _) (List.suffix_refl _) (ends_refuse_end hs _ _)
  | cons t ts =>
    have hword : (((t :: ts)[0]?.filter Token.isName).map Token.text).any (fun word => !declarationWords.contains word) =
        (t.isName && !declarationWords.contains t.text) := by
      rw [List.getElem?_cons_zero, Option.filter_some]
      cases t.isName <;> rfl
    rw [hword, className]
    split
    · exact .step (ends_advance hts) (List.suffix_cons t ts) (.some _ _)
    split
    · exact .none
    · exact .step (ends_textOf hs hkeyword _) (List.suffix_refl _) (ends_refuse hs (hts.subset List.mem_cons_self) _ _)

omit hs

mutual

theorem classTree (hs : s.Lossless source) (ts : List Token) (hts : ts <:+ s.tokens) :
    TracksIfAny s ((s.spans source).classTree : Reader source (Option ClassTree)) ts (Kotlin.classTree ts) := by
  rw [TokenSpans.classTree, Kotlin.classTree]
  refine .bind (modifiers hs ts hts) fun words rest h₁ hrest => ?_
  have hrest := hrest.trans hts
  refine .step (ends_classKind hs words hrest) (List.suffix_refl _) ?_
  cases rest with
  | nil => exact .none
  | cons keyword us =>
    have hus := (List.suffix_cons keyword us).trans hrest
    have hkeyword := hrest.subset List.mem_cons_self
    dsimp only [List.head?_cons, Option.bind_some]
    cases hkind : ClassKind.ofKeyword? words keyword with
    | none => exact .none
    | some kind =>
      refine .step (ends_advance hrest) (List.suffix_cons keyword us) ?_
      have hnamed := classNamed hs kind hkeyword hus
      dsimp only
      cases hname : className kind keyword us with
      | error f =>
        rw [hname] at hnamed
        exact Reader.Ends.bind_error hnamed _
      | ok found =>
        rw [hname] at hnamed
        cases found with
        | none =>
          obtain ⟨pos, hnamed⟩ := hnamed
          exact ⟨pos, (Reader.Ends.bind_iff hnamed).mpr (.pure _ _)⟩
        | some p =>
          obtain ⟨name, vs, h₂⟩ := p
          have hvs := hnamed.1.trans hus
          obtain ⟨rfl, -⟩ := className_ok hname
          refine .step hnamed.2 hnamed.1 (.step (ends_textOf hs (hus.subset List.mem_cons_self) _) (List.suffix_refl _) ?_)
          refine .bind (typeParameters hs hvs) fun params vs₃ h₃ hsuffix₃ => ?_
          have hvs₃ := hsuffix₃.trans hvs
          refine .bind (primaryConstructor hs hvs₃) fun fields vs₄ h₄ hsuffix₄ => ?_
          have hvs₄ := hsuffix₄.trans hvs₃
          refine .bind (skipSupertypes hs hvs₄) fun _ vs₅ h₅ hsuffix₅ => ?_
          have hvs₅ := hsuffix₅.trans hvs₄
          exact .bind (classBody hs kind (Name.unquote name.text) vs₅ hvs₅) fun _ _ _ _ => .some _ _
termination_by 2 * ts.length
decreasing_by all_goals grind

theorem classBody (hs : s.Lossless source) (kind : ClassKind) (name : String) (ts : List Token) (hts : ts <:+ s.tokens) :
    Tracks s ((s.spans source).classBody kind name : Reader source (List EnumEntry × List ClassTree)) ts
      (Kotlin.classBody kind name ts) := by
  rw [TokenSpans.classBody]
  refine .peek hts ?_
  cases ts with
  | nil =>
    rw [Kotlin.classBody]
    exact .done _ _
  | cons opener ts =>
    have hsuffix := (List.suffix_cons opener ts).trans hts
    rw [ahead_zero, isMark_bounds, Kotlin.classBody]
    split
    next =>
      refine .advance hts (.bind (entriesOf hs kind hsuffix) fun entries vs h₁ _ hvs => ?_)
      have hvs := hvs.trans hsuffix
      refine .bind (members hs vs hvs) fun nested ws h₂ _ hws => ?_
      have hws := hws.trans hvs
      have hclose := eat source hws '\x7d'
      dsimp only
      generalize takeMark '\x7d' ws = p at hclose
      obtain ⟨found, rest, h⟩ := p
      refine .after hclose fun _ => ?_
      cases found with
      | true => exact .done _ _
      | false => exact .refuseAt hs (hts.subset List.mem_cons_self) _
    next => exact .done _ _
termination_by 2 * ts.length
decreasing_by all_goals grind

theorem members (hs : s.Lossless source) (ts : List Token) (hts : ts <:+ s.tokens) :
    Tracks s ((s.spans source).members : Reader source (List ClassTree)) ts (Kotlin.members ts) := by
  rw [TokenSpans.members]
  refine .peek hts ?_
  cases ts with
  | nil =>
    rw [Kotlin.members]
    exact .done _ _
  | cons t ts =>
    have hsuffix := (List.suffix_cons t ts).trans hts
    rw [ahead_zero, isEnd_bounds, Bool.false_or, isMark_bounds, isMark_bounds, Kotlin.members]
    split
    · exact .done _ _
    split
    · exact .advance hts (.relabel (fun _ => ⟨_, rfl⟩) (members hs ts hsuffix))
    refine step (.get _) (List.suffix_refl _) ?_
    have hclass := classTree hs (t :: ts) hts
    cases hc : Kotlin.classTree (t :: ts) with
    | error f =>
      rw [hc] at hclass
      exact Reader.Ends.bind_error hclass _
    | ok c =>
      cases c with
      | none =>
        rw [hc] at hclass
        obtain ⟨pos, hclass⟩ := hclass
        refine of_ends_iff ?_ fun r => (Reader.Ends.bind_iff hclass).trans (Reader.Ends.bind_iff (.set _ _))
        refine .bind (skipMember hs hts) fun _ rest _ _ hrest => ?_
        exact .relabel (fun _ => ⟨_, rfl⟩) (members hs rest (hrest.trans hts))
      | some p =>
        obtain ⟨c, rest, h⟩ := p
        rw [hc] at hclass
        refine step hclass.2 hclass.1 ?_
        exact .bind (members hs rest (hclass.1.trans hts)) fun _ _ _ _ _ => .done _ _
termination_by 2 * ts.length + 1
decreasing_by all_goals grind

end

end Tracks

end Counterpart.Kotlin
