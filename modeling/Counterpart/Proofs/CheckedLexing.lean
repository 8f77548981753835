/-
Cutting a source with checks. Here the source is read character by character, with a position, a function for each kind of
literal that calls the others, and counts of open comments and braces. No check fails, and the tokens are those that the machines
over the characters give (`ends_tokenize`).
-/
import Counterpart.Proofs.Checks

namespace Counterpart.Kotlin

open Text Lexer

/-- A token as its kind and where it stands; no kind stands for the end of the source. -/
structure TokenSpan where
  kind? : Option TokenKind
  start : Nat
  stop : Nat
deriving DecidableEq

def Token.bounds (t : Token) : TokenSpan := ⟨some t.kind, t.start, t.stop⟩

namespace Reader

variable {source : String}

/-- A source to be read. -/
abbrev Source := String

/-! ## Characters -/

/-- The characters from the position on. -/
def upcoming : Reader source (List Char) := do
  match charsFrom? (← get) source.toList with
  | some cs => return cs
  | none => throw (.broken .slice)

def peek : Reader source (Option Char) := return (← upcoming).head?

def second : Reader source (Option Char) := return (← upcoming)[1]?

/-- Goes over one character; stays at the end. -/
def bump : Reader source Unit := do
  match ← peek with
  | some c => modify (· + c.utf8Size)
  | none => return ()

/-- Refuses the source for a part that is opened at `start`. -/
def unterminated {α : Type} (what : Delimited) (start : Nat) : Reader source α :=
  refuse (.unterminated what) start (start + what.openingSize)

/-! ## Comments -/

namespace Source

/-- Goes to the end of the line. -/
def skipLine (source : Source) : Reader source Unit := do
  match ← peek with
  | some c => if c = '\n' then return () else do bump; source |>.skipLine
  | none => return ()
partial_fixpoint

/-- A block comment, with so many comments open. -/
def commentRest (source : Source) (start depth : Nat) : Reader source Unit := do
  match ← peek, ← second with
  | some '/', some '*' => do bump; bump; source |>.commentRest start (depth + 1)
  | some '*', some '/' => do
    let depth ← less depth
    bump
    bump
    if depth = 0 then return () else source |>.commentRest start depth
  | some _, _ => do bump; source |>.commentRest start depth
  | none, _ => unterminated .blockComment start
partial_fixpoint

def skipComment (source : Source) : Reader source Unit := do source.commentRest (← get) 0

/-! ## Literals -/

/-- The rest of a character literal. -/
def characterRest (source : Source) (start : Nat) : Reader source Unit := do
  match ← peek with
  | some '\'' => bump
  | some '\\' => do bump; bump; source |>.characterRest start
  | some '\n' => unterminated .character start
  | some _ => do bump; source |>.characterRest start
  | none => unterminated .character start
partial_fixpoint

def character (source : Source) : Reader source Unit := do
  let start ← get
  bump
  source.characterRest start

/-- The quotes behind those that end a raw string. -/
def moreQuotes (source : Source) : Reader source Unit := do
  if (← peek) = some '"' then do bump; source |>.moreQuotes else return ()
partial_fixpoint

mutual

/-- A string, raw or not. -/
def string (source : Source) : Reader source Unit := do
  let start ← get
  if ['"', '"', '"'].isPrefixOf (← upcoming) then do
    modify (· + 3)
    source |>.rawRest start
  else do
    bump
    source |>.stringRest start
partial_fixpoint

def stringRest (source : Source) (start : Nat) : Reader source Unit := do
  match ← peek with
  | some '"' => bump
  | some '\\' => do bump; bump; source |>.stringRest start
  | some '\n' => unterminated .string start
  | some '$' =>
    if (← second) = some '\x7b' then do source |>.template; source |>.stringRest start
    else do bump; source |>.stringRest start
  | some _ => do bump; source |>.stringRest start
  | none => unterminated .string start
partial_fixpoint

def rawRest (source : Source) (start : Nat) : Reader source Unit := do
  if ['"', '"', '"'].isPrefixOf (← upcoming) then do
    modify (· + 3)
    source.moreQuotes
  else
    match ← peek with
    | some '$' =>
      if (← second) = some '\x7b' then do source |>.template; source |>.rawRest start
      else do bump; source |>.rawRest start
    | some _ => do bump; source |>.rawRest start
    | none => unterminated .rawString start
partial_fixpoint

/-- A template in a string. -/
def template (source : Source) : Reader source Unit := do
  let start ← get
  bump
  bump
  source |>.templateRest start 1
partial_fixpoint

/-- A template with so many braces open. -/
def templateRest (source : Source) (start depth : Nat) : Reader source Unit :=
  if depth = 0 then return ()
  else do
    match ← peek with
    | some '\x7b' => do bump; source |>.templateRest start (depth + 1)
    | some '\x7d' => do
      let depth ← less depth
      bump
      source |>.templateRest start depth
    | some '"' => do source |>.string; source |>.templateRest start depth
    | some '\'' => do source.character; source |>.templateRest start depth
    | some _ => do bump; source |>.templateRest start depth
    | none => unterminated .template start
partial_fixpoint

end

/-! ## Tokens -/

/-- The rest of a quoted identifier. -/
def quotedRest (source : Source) (start : Nat) : Reader source Unit := do
  match ← peek with
  | some '\x60' => bump
  | some '\n' => unterminated .quotedName start
  | some _ => do bump; source |>.quotedRest start
  | none => unterminated .quotedName start
partial_fixpoint

def nameRest (source : Source) : Reader source Unit := do
  if (← peek).any isNameChar then do bump; source |>.nameRest else return ()
partial_fixpoint

/-- A number; a dot belongs to it when a digit follows. -/
def number (source : Source) : Reader source Unit := do
  match ← peek with
  | some c => if isNameChar c || (c == '.' && (← second).any Char.isDigit) then do bump; source |>.number else return ()
  | none => return ()
partial_fixpoint

/-- The token that starts with `c`, which is the next character. -/
def token (source : Source) (c : Char) : Reader source TokenKind := do
  let start ← get
  if c = '"' then do source.string; return .string
  else if c = '\'' then do source.character; return .character
  else if c = '\x60' then do
    bump
    source.quotedRest start
    return .name
  else if c.isDigit then do source.number; return .number
  else if isNameStart c then do source.nameRest; return .name
  else if c = '-' && (← second) = some '>' then do
    bump
    bump
    return .arrow
  else do
    bump
    return .mark c

/-- The tokens from the position on. -/
def tokensFrom (source : Source) : Reader source (List TokenSpan) := do
  match ← peek with
  | none => return []
  | some c =>
    let start ← get
    if isBlank c then do bump; source |>.tokensFrom
    else if c = '/' && (← second) = some '/' then do source.skipLine; source |>.tokensFrom
    else if c = '/' && (← second) = some '*' then do source.skipComment; source |>.tokensFrom
    else do
      let kind ← source.token c
      let stop ← get
      return ⟨some kind, start, stop⟩ :: (← source |>.tokensFrom)
partial_fixpoint

end Source

open Source

/-- Goes over a first line for the shell. -/
def skipShellLine : Reader source Unit := if ['#', '!'].isPrefixOf source.toList then skipLine source else return ()

/-- The end of the source as a token. -/
def endBounds (source : String) : TokenSpan := ⟨none, source.utf8ByteSize, source.utf8ByteSize⟩

/-- The tokens of the source, with its end behind them. -/
def tokenize : Reader source (List TokenSpan) := do
  skipShellLine
  return (← tokensFrom source) ++ [endBounds source]

/-! ## What comes next -/

section Next

variable {pos : Nat} {c d : Char} {cs : List Char}

theorem ends_upcoming (h : At source pos cs) : Ends (upcoming : Reader source _) pos (.ok (cs, pos)) := by
  rw [upcoming, (Ends.get pos).bind_iff, show charsFrom? pos source.toList = some cs from h]
  exact .pure cs pos

theorem ends_peek (h : At source pos cs) : Ends (peek : Reader source _) pos (.ok (cs.head?, pos)) := by
  rw [peek, (ends_upcoming h).bind_iff]
  exact .pure _ pos

theorem ends_second (h : At source pos cs) : Ends (second : Reader source _) pos (.ok (cs[1]?, pos)) := by
  rw [second, (ends_upcoming h).bind_iff]
  exact .pure _ pos

theorem ends_bump (h : At source pos (c :: cs)) : Ends (bump : Reader source _) pos (.ok ((), pos + c.utf8Size)) := by
  rw [bump, (ends_peek h).bind_iff]
  exact .modify _ pos

theorem ends_bump_end (h : At source pos []) : Ends (bump : Reader source _) pos (.ok ((), pos)) := by
  rw [bump, (ends_peek h).bind_iff]
  exact .pure () pos

/-- The opening mark of a part that can be refused stands in the source. -/
def Opened (source : String) (what : Delimited) (opened : Nat) : Prop := InSource source ⟨opened, what.openingSize⟩

theorem opened_of_at {what : Delimited} {ds : List Char} (h : At source pos cs) (h' : At source (pos + what.openingSize) ds) :
    Opened source what pos := h.inSource h'

theorem ends_unterminated {α : Type} {what : Delimited} {opened : Nat} (h : Opened source what opened) (pos : Nat) :
    Ends (unterminated what opened : Reader source α) pos (.error (Lexer.unterminated what opened)) := by
  have hsize : opened + what.openingSize - opened = what.openingSize := Nat.add_sub_cancel_left ..
  have hrefuse : Ends (refuse (.unterminated what) opened (opened + what.openingSize) : Reader source α) pos _ :=
    .refuse (Nat.le_add_right ..) (by rw [hsize]; exact h) _ pos
  rwa [hsize] at hrefuse

end Next

/-! ## Readers and machines -/

/-- The reader does what a machine over the characters does: it refuses the source when the machine does, and otherwise it
goes over some characters, which the machine counts before it goes on with the others. -/
def Passes (x : Reader source Unit) (pos : Nat) (cs : List Char) (machine : Except SyntaxError Nat)
    (after : Nat → List Char → Except SyntaxError Nat) : Prop :=
  (∃ e, x.Ends pos (.error e) ∧ machine = .error e) ∨
    ∃ front rest, cs = front ++ rest ∧ x.Ends pos (.ok ((), pos + byteSize front)) ∧
      machine = (· + front.length) <$> after (pos + byteSize front) rest

namespace Passes

variable {x y : Reader source Unit} {pos : Nat} {cs : List Char} {machine machine' : Except SyntaxError Nat}
  {after middle : Nat → List Char → Except SyntaxError Nat}

theorem refused {e : SyntaxError} (h : x.Ends pos (.error e)) : Passes x pos cs (.error e) after := .inl ⟨e, h, rfl⟩

/-- Going over some characters and stopping there. -/
theorem done (front : List Char) {pos' : Nat} (hpos : pos' = pos + byteSize front) (h : x.Ends pos (.ok ((), pos')))
    (hmachine : machine = (· + front.length) <$> after pos' cs) : Passes x pos (front ++ cs) machine after := by
  subst hpos
  exact .inr ⟨front, cs, rfl, h, hmachine⟩

/-- Going over some characters first. -/
theorem across (front : List Char) {pos' : Nat} (hpos : pos' = pos + byteSize front) (h : Passes y pos' cs machine' after)
    (hx : ∀ r, y.Ends pos' r → x.Ends pos r) (hmachine : machine = (· + front.length) <$> machine') :
    Passes x pos (front ++ cs) machine after := by
  subst hpos
  obtain ⟨e, hy, he⟩ | ⟨front', rest, rfl, hy, hk⟩ := h
  · exact .inl ⟨e, hx _ hy, by rw [hmachine, he]; rfl⟩
  · refine .inr ⟨front ++ front', rest, (List.append_assoc ..).symm, ?_, ?_⟩
    · rw [byteSize_append, ← Nat.add_assoc]
      exact hx _ hy
    · rw [byteSize_append, ← Nat.add_assoc, List.length_append, hmachine, hk]
      cases after (pos + byteSize front + byteSize front') rest with
      | error e => rfl
      | ok n =>
        refine congrArg Except.ok ?_
        show n + front'.length + front.length = n + (front.length + front'.length)
        omega

/-- One reader after the other. -/
theorem andThen (h : Passes x pos cs machine middle)
    (hy : ∀ front rest, cs = front ++ rest → Passes y (pos + byteSize front) rest (middle (pos + byteSize front) rest) after) :
    Passes (do x; y) pos cs machine after := by
  obtain ⟨e, hx, rfl⟩ | ⟨front, rest, rfl, hx, rfl⟩ := h
  · exact refused (hx.bind_error _)
  · exact (hy front rest rfl).across front rfl (fun r hr => hx.bind_iff.mpr hr) rfl

end Passes

/-! ## Comments pass -/

section Comments

variable {pos : Nat} {cs : List Char}

/-- To the end of the line, where the machine goes on between tokens. -/
theorem passes_skipLine (h : At source pos cs) :
    Passes (skipLine source) pos cs (gapLength .lineComment pos cs) (gapLength .between) := by
  induction cs generalizing pos with
  | nil =>
    refine .done [] rfl ?_ (by simp [gapLength])
    rw [skipLine, (ends_peek h).bind_iff]
    exact .pure () pos
  | cons c cs ih =>
    by_cases hc : c = '\n'
    · subst hc
      refine .done [] rfl ?_ ?_
      · rw [skipLine, (ends_peek h).bind_iff]
        exact .pure () pos
      · have hbreak : '\n'.utf8Size = 1 := by decide
        rw [gapLength_between_blank (c := '\n') (by decide)]
        simp [gapLength, byteSize, hbreak]
    · refine (ih h.next).across [c] rfl (fun r hr => ?_) (by simp [gapLength])
      rw [skipLine, (ends_peek h).bind_iff]
      simp only [List.head?_cons, if_neg hc]
      exact (ends_bump h).bind_iff.mpr hr

theorem ends_skipLine_cons {β : Type} {y : Reader source β} {c : Char} (h : At source pos (c :: cs)) (hc : c ≠ '\n')
    {r : Except SyntaxError (β × Nat)} (hr : (do skipLine source; y).Ends (pos + c.utf8Size) r) :
    (do skipLine source; y).Ends pos r := by
  rw [skipLine, bind_assoc, (ends_peek h).bind_iff]
  simp only [List.head?_cons, if_neg hc, bind_assoc]
  exact (ends_bump h).bind_iff.mpr hr

theorem ends_skipComment_open {β : Type} {y : Reader source β} (h : At source pos ('/' :: '*' :: cs))
    {r : Except SyntaxError (β × Nat)} (hr : (do commentRest source pos 1; y).Ends (pos + 2) r) :
    (do skipComment source; y).Ends pos r := by
  rw [skipComment, bind_assoc, (Ends.get pos).bind_iff, commentRest, bind_assoc, (ends_peek h).bind_iff,
    bind_assoc, (ends_second h).bind_iff]
  simp only [List.head?_cons, List.getElem?_cons_succ, List.getElem?_cons_zero, bind_assoc]
  exact (ends_bump h).bind_iff.mpr ((ends_bump h.next).bind_iff.mpr hr)

/-- To the end of a block comment and the comments inside it. -/
theorem passes_commentRest {opened inner : Nat} (hopened : Opened source .blockComment opened) (h : At source pos cs) :
    Passes (commentRest source opened (inner + 1)) pos cs (gapLength (.blockComment opened inner) pos cs)
      (gapLength .between) := by
  induction hlen : cs.length using Nat.strongRecOn generalizing pos cs inner with
  | ind len ih =>
    cases cs with
    | nil =>
      rw [gapLength]
      refine .refused ?_
      rw [commentRest, (ends_peek h).bind_iff, (ends_second h).bind_iff]
      exact ends_unterminated hopened pos
    | cons c cs =>
      by_cases hopen : ∃ ds, c = '/' ∧ cs = '*' :: ds
      · obtain ⟨ds, rfl, rfl⟩ := hopen
        refine (ih _ (by simp at hlen; omega) h.next.next rfl).across ['/', '*'] rfl (fun r hr => ?_) (by simp [gapLength]; rfl)
        rw [commentRest, (ends_peek h).bind_iff, (ends_second h).bind_iff]
        exact (ends_bump h).bind_iff.mpr ((ends_bump h.next).bind_iff.mpr hr)
      · by_cases hclose : ∃ ds, c = '*' ∧ cs = '/' :: ds
        · obtain ⟨ds, rfl, rfl⟩ := hclose
          have hstep : ∀ r,
              (do bump; bump; if inner = 0 then return () else commentRest source opened inner : Reader source Unit).Ends pos r →
                (commentRest source opened (inner + 1)).Ends pos r := by
            intro r hr
            rw [commentRest, (ends_peek h).bind_iff, (ends_second h).bind_iff]
            exact (Ends.less pos).bind_iff.mpr hr
          cases inner with
          | zero =>
            refine .done ['*', '/'] rfl (hstep _ ?_) (by simp [gapLength]; rfl)
            exact (ends_bump h).bind_iff.mpr ((ends_bump h.next).bind_iff.mpr (.pure () _))
          | succ inner =>
            refine (ih _ (by simp at hlen; omega) h.next.next rfl).across ['*', '/'] rfl (fun r hr => hstep r ?_)
              (by simp [gapLength]; rfl)
            exact (ends_bump h).bind_iff.mpr ((ends_bump h.next).bind_iff.mpr hr)
        · have hmachine : gapLength (.blockComment opened inner) pos (c :: cs) =
              (· + 1) <$> gapLength (.blockComment opened inner) (pos + c.utf8Size) cs := by
            rw [gapLength]
            · exact fun ds hc hds => hopen ⟨ds, hc, hds⟩
            · exact fun ds _ hc hds => hclose ⟨ds, hc, hds⟩
            · exact fun _ ds _ hc hds => hclose ⟨ds, hc, hds⟩
          refine (ih _ (by simp at hlen; omega) h.next rfl).across [c] rfl (fun r hr => ?_) hmachine
          rw [commentRest, (ends_peek h).bind_iff, (ends_second h).bind_iff]
          split
          next hc hd =>
            obtain ⟨ds, rfl⟩ : ∃ ds, cs = '*' :: ds := by cases cs <;> simp_all
            exact absurd ⟨ds, Option.some.inj hc, rfl⟩ hopen
          next hc hd =>
            obtain ⟨ds, rfl⟩ : ∃ ds, cs = '/' :: ds := by cases cs <;> simp_all
            exact absurd ⟨ds, Option.some.inj hc, rfl⟩ hclose
          next => exact (ends_bump h).bind_iff.mpr hr
          next hc => cases hc

end Comments

/-! ## Literals pass -/

section Literals

variable {pos opened : Nat} {cs : List Char}

theorem passes_characterRest (up : List OpenPart) (hopened : Opened source .character opened) (h : At source pos cs) :
    Passes (characterRest source opened) pos cs (literalLength (.character opened :: up) pos cs)
      (literalLength up) := by
  induction hlen : cs.length using Nat.strongRecOn generalizing pos cs with
  | ind len ih =>
    cases cs with
    | nil =>
      rw [literalLength]
      refine .refused ?_
      rw [characterRest, (ends_peek h).bind_iff]
      exact ends_unterminated hopened pos
    | cons c cs =>
      have hrest := ih cs.length (by simp at hlen; omega) h.next rfl
      by_cases hend : c = '\''
      · subst hend
        refine .done ['\''] rfl ?_ (by simp [literalLength]; rfl)
        rw [characterRest, (ends_peek h).bind_iff]
        exact ends_bump h
      · by_cases hbreak : c = '\n'
        · subst hbreak
          rw [literalLength]
          refine .refused ?_
          rw [characterRest, (ends_peek h).bind_iff]
          exact ends_unterminated hopened pos
        · by_cases hescape : c = '\\'
          · subst hescape
            cases cs with
            | nil =>
              rw [literalLength]
              refine .refused ?_
              rw [characterRest, (ends_peek h).bind_iff]
              refine (ends_bump h).bind_iff.mpr ((ends_bump_end h.next).bind_iff.mpr ?_)
              rw [characterRest, (ends_peek h.next).bind_iff]
              exact ends_unterminated hopened _
            | cons d cs =>
              have hnext : At source (pos + 1 + d.utf8Size) cs := h.next.next
              refine (ih cs.length (by simp at hlen; omega) hnext rfl).across ['\\', d] (Nat.add_assoc ..) (fun r hr => ?_)
                (by simp [literalLength])
              rw [characterRest, (ends_peek h).bind_iff]
              exact (ends_bump h).bind_iff.mpr ((ends_bump h.next).bind_iff.mpr hr)
          · refine hrest.across [c] rfl (fun r hr => ?_) (by simp [literalLength, hescape])
            rw [characterRest, (ends_peek h).bind_iff]
            split <;> simp_all
            exact (ends_bump h).bind_iff.mpr hr

/-- The readers of strings and templates do what the machine does, on texts shorter than `n`. -/
structure PassesBelow (source : String) (n : Nat) : Prop where
  string : ∀ {pos : Nat} {cs : List Char}, cs.length < n → At source pos cs → ∀ (opened : Nat) (up : List OpenPart),
    Opened source .string opened →
      Passes (stringRest source opened) pos cs (literalLength (.string opened :: up) pos cs) (literalLength up)
  raw : ∀ {pos : Nat} {cs : List Char}, cs.length < n → At source pos cs → ∀ (opened : Nat) (up : List OpenPart),
    Opened source .rawString opened →
      Passes (rawRest source opened) pos cs (literalLength (.rawString opened :: up) pos cs) (literalLength up)
  template : ∀ {pos : Nat} {cs : List Char}, cs.length < n → At source pos cs → ∀ (opened inner : Nat) (up : List OpenPart),
    Opened source .template opened →
      Passes (templateRest source opened (inner + 1)) pos cs (literalLength (.template opened inner :: up) pos cs)
        (literalLength up)

variable {n : Nat}

/-- A part that is opened, read to its end, and what comes then. -/
theorem passes_part {part : OpenPart} {x rest y : Reader source Unit} {up : List OpenPart}
    {after : Nat → List Char → Except SyntaxError Nat} (front : List Char) {pos' : Nat} (hpos : pos' = pos + byteSize front)
    (h : At source pos' cs) (hrest : Passes rest pos' cs (literalLength (part :: up) pos' cs) (literalLength up))
    (hx : ∀ r, (do rest; y).Ends pos' r → (do x; y).Ends pos r)
    (hy : ∀ {pos' : Nat} {rest : List Char}, rest.length ≤ cs.length → At source pos' rest →
      Passes y pos' rest (literalLength up pos' rest) after) :
    Passes (do x; y) pos (front ++ cs) ((· + front.length) <$> literalLength (part :: up) pos' cs) after := by
  have hinside : Passes (do rest; y) pos' cs (literalLength (part :: up) pos' cs) after := by
    refine hrest.andThen fun front' rest' hsplit => ?_
    subst hsplit
    exact hy (by simp) h.drop_append
  exact hinside.across front hpos hx rfl

section Parts

variable (ih : PassesBelow source n) (up : List OpenPart) (hlt : cs.length < n) {y : Reader source Unit}
  {after : Nat → List Char → Except SyntaxError Nat}
  (hy : ∀ {pos' : Nat} {rest : List Char}, rest.length ≤ cs.length → At source pos' rest →
    Passes y pos' rest (literalLength up pos' rest) after)
include hy

theorem passes_character (h : At source pos ('\'' :: cs)) :
    Passes (do character source; y) pos ('\'' :: cs) ((· + 1) <$> literalLength (.character pos :: up) (pos + 1) cs) after := by
  refine passes_part ['\''] rfl h.next (passes_characterRest up (opened_of_at h h.next) h.next) (fun r hr => ?_) hy
  rw [character, bind_assoc, (Ends.get pos).bind_iff, bind_assoc, (ends_bump h).bind_iff]
  exact hr

include ih hlt

theorem passes_template (h : At source pos ('$' :: '\x7b' :: cs)) :
    Passes (do template source; y) pos ('$' :: '\x7b' :: cs)
      ((· + 2) <$> literalLength (.template pos 0 :: up) (pos + 2) cs) after := by
  refine passes_part ['$', '\x7b'] rfl h.next.next (ih.template hlt h.next.next pos 0 up (opened_of_at h h.next.next))
    (fun r hr => ?_) hy
  rw [template, bind_assoc, (Ends.get pos).bind_iff, bind_assoc, (ends_bump h).bind_iff, bind_assoc, (ends_bump h.next).bind_iff]
  exact hr

theorem passes_string (h : At source pos ('"' :: cs)) (hquotes : ∀ ds, cs ≠ '"' :: '"' :: ds) :
    Passes (do string source; y) pos ('"' :: cs) ((· + 1) <$> literalLength (.string pos :: up) (pos + 1) cs) after := by
  refine passes_part ['"'] rfl h.next (ih.string hlt h.next pos up (opened_of_at h h.next)) (fun r hr => ?_) hy
  have hprefix : ¬['"', '"', '"'].isPrefixOf ('"' :: cs) = true := by
    intro hprefix
    obtain ⟨ds, hds⟩ := List.isPrefixOf_iff_prefix.mp hprefix
    exact hquotes ds (List.cons.inj hds).2.symm
  rw [string, bind_assoc, (Ends.get pos).bind_iff, bind_assoc, (ends_upcoming h).bind_iff, if_neg hprefix, bind_assoc,
    (ends_bump h).bind_iff]
  exact hr

theorem passes_rawString (h : At source pos ('"' :: '"' :: '"' :: cs)) :
    Passes (do string source; y) pos ('"' :: '"' :: '"' :: cs) ((· + 3) <$> literalLength (.rawString pos :: up) (pos + 3) cs)
      after := by
  refine passes_part ['"', '"', '"'] rfl h.next.next.next (ih.raw hlt h.next.next.next pos up (opened_of_at h h.next.next.next))
    (fun r hr => ?_) hy
  have hprefix : ['"', '"', '"'].isPrefixOf ('"' :: '"' :: '"' :: cs) = true := rfl
  rw [string, bind_assoc, (Ends.get pos).bind_iff, bind_assoc, (ends_upcoming h).bind_iff, if_pos hprefix, bind_assoc,
    (Ends.modify _ pos).bind_iff]
  exact hr

end Parts

/-- The three quotes that end a raw string, and all others behind them. -/
theorem passes_lastQuotes (opened : Nat) (up : List OpenPart) (h : At source pos ('"' :: '"' :: '"' :: cs)) :
    Passes (do modify (· + 3); moreQuotes source : Reader source Unit) pos ('"' :: '"' :: '"' :: cs)
      (literalLength (.rawString opened :: up) pos ('"' :: '"' :: '"' :: cs)) (literalLength up) := by
  induction cs generalizing pos with
  | nil =>
    have hbehind : At source (pos + 3) [] := h.next.next.next
    refine .done ['"', '"', '"'] rfl ((Ends.modify _ pos).bind_iff.mpr ?_) (by simp [literalLength]; rfl)
    rw [moreQuotes, (ends_peek hbehind).bind_iff]
    exact .pure () _
  | cons c cs ih =>
    have hbehind : At source (pos + 3) (c :: cs) := h.next.next.next
    by_cases hc : c = '"'
    · subst hc
      have hnext : At source (pos + 1) ('"' :: '"' :: '"' :: cs) := h.next
      have hpos : pos + 1 = pos + byteSize ['"'] := rfl
      refine (ih hnext).across ['"'] hpos (fun r hr => ?_) (by simp [literalLength])
      have hsame : pos + 1 + 3 = pos + 3 + 1 := by omega
      rw [(Ends.modify _ _).bind_iff, hsame] at hr
      rw [(Ends.modify _ _).bind_iff, moreQuotes, (ends_peek hbehind).bind_iff]
      exact (ends_bump hbehind).bind_iff.mpr hr
    · have hmachine : literalLength (.rawString opened :: up) pos ('"' :: '"' :: '"' :: c :: cs) =
          (· + 3) <$> literalLength up (pos + 3) (c :: cs) := by
        rw [literalLength]
        intro ds hds
        exact hc (List.cons.inj hds).1
      refine .done ['"', '"', '"'] rfl ((Ends.modify _ pos).bind_iff.mpr ?_) hmachine
      rw [moreQuotes, (ends_peek hbehind).bind_iff, if_neg (by simpa using hc)]
      exact .pure () _

/-- A dollar sign without a brace behind it starts no template. -/
theorem ends_noTemplate (h : At source pos ('$' :: cs)) (hno : cs.head? ≠ some '\x7b') {x y : Reader source Unit}
    {r : Except SyntaxError (Unit × Nat)} (hy : y.Ends pos r) :
    (do if (← second) = some '\x7b' then x else y : Reader source Unit).Ends pos r := by
  refine (ends_second h).bind_iff.mpr ?_
  rw [List.getElem?_cons_succ, ← List.head?_eq_getElem?, if_neg hno]
  exact hy

theorem passes_stringRest (ih : PassesBelow source n) (up : List OpenPart) (hopened : Opened source .string opened)
    (hle : cs.length ≤ n) (h : At source pos cs) :
    Passes (stringRest source opened) pos cs (literalLength (.string opened :: up) pos cs) (literalLength up) := by
  cases cs with
  | nil =>
    rw [literalLength]
    refine .refused ?_
    rw [stringRest, (ends_peek h).bind_iff]
    exact ends_unterminated hopened pos
  | cons c cs =>
    simp only [List.length_cons] at hle
    by_cases hend : c = '"'
    · subst hend
      refine .done ['"'] rfl ?_ (by simp [literalLength]; rfl)
      rw [stringRest, (ends_peek h).bind_iff]
      exact ends_bump h
    · by_cases hbreak : c = '\n'
      · subst hbreak
        rw [literalLength]
        refine .refused ?_
        rw [stringRest, (ends_peek h).bind_iff]
        exact ends_unterminated hopened pos
      · by_cases hescape : c = '\\'
        · subst hescape
          cases cs with
          | nil =>
            rw [literalLength]
            refine .refused ?_
            rw [stringRest, (ends_peek h).bind_iff]
            refine (ends_bump h).bind_iff.mpr ((ends_bump_end h.next).bind_iff.mpr ?_)
            rw [stringRest, (ends_peek h.next).bind_iff]
            exact ends_unterminated hopened _
          | cons d cs =>
            have hnext : At source (pos + 1 + d.utf8Size) cs := h.next.next
            refine (ih.string (by simp at hle; omega) hnext opened up hopened).across ['\\', d] (Nat.add_assoc ..)
              (fun r hr => ?_) (by simp [literalLength])
            rw [stringRest, (ends_peek h).bind_iff]
            exact (ends_bump h).bind_iff.mpr ((ends_bump h.next).bind_iff.mpr hr)
        · by_cases htemplate : c = '$' ∧ cs.head? = some '\x7b'
          · obtain ⟨rfl, hhead⟩ := htemplate
            obtain ⟨ds, rfl⟩ := List.head?_eq_some_iff.mp hhead
            have hinside := passes_template ih (.string opened :: up) (by simp at hle; omega)
              (fun hlt h => ih.string (by simp at hle; omega) h opened up hopened) h
            rw [literalLength]
            refine hinside.across [] rfl (fun r hr => ?_) (by simp)
            rw [stringRest, (ends_peek h).bind_iff]
            exact (ends_second h).bind_iff.mpr hr
          · have hmachine : literalLength (.string opened :: up) pos (c :: cs) =
                (· + 1) <$> literalLength (.string opened :: up) (pos + c.utf8Size) cs :=
              literalLength_string_char (by simp [hend, hbreak, hescape]) fun hc hhead => htemplate ⟨hc, hhead⟩
            refine (ih.string hle h.next opened up hopened).across [c] rfl (fun r hr => ?_) hmachine
            have hbump : (do bump; stringRest source opened : Reader source Unit).Ends pos r := (ends_bump h).bind_iff.mpr hr
            rw [stringRest, (ends_peek h).bind_iff]
            by_cases hdollar : c = '$'
            · subst hdollar
              exact ends_noTemplate h (fun hhead => htemplate ⟨rfl, hhead⟩) hbump
            · split <;> simp_all

theorem passes_rawRest (ih : PassesBelow source n) (up : List OpenPart) (hopened : Opened source .rawString opened)
    (hle : cs.length ≤ n) (h : At source pos cs) :
    Passes (rawRest source opened) pos cs (literalLength (.rawString opened :: up) pos cs) (literalLength up) := by
  by_cases hquotes : ['"', '"', '"'].isPrefixOf cs = true
  · obtain ⟨ds, rfl⟩ := List.isPrefixOf_iff_prefix.mp hquotes
    refine (passes_lastQuotes opened up h).across [] rfl (fun r hr => ?_) (by simp)
    rw [rawRest, (ends_upcoming h).bind_iff, if_pos hquotes]
    exact hr
  · have hrest : ∀ r, (do match ← peek with
          | some '$' =>
            if (← second) = some '\x7b' then do template source; rawRest source opened else do bump; rawRest source opened
          | some _ => do bump; rawRest source opened
          | none => unterminated .rawString opened : Reader source Unit).Ends pos r →
        (rawRest source opened).Ends pos r := by
      intro r hr
      rw [rawRest, (ends_upcoming h).bind_iff, if_neg hquotes]
      exact hr
    cases cs with
    | nil =>
      rw [literalLength]
      refine .refused (hrest _ ?_)
      rw [(ends_peek h).bind_iff]
      exact ends_unterminated hopened pos
    | cons c cs =>
      simp only [List.length_cons] at hle
      by_cases htemplate : c = '$' ∧ cs.head? = some '\x7b'
      · obtain ⟨rfl, hhead⟩ := htemplate
        obtain ⟨ds, rfl⟩ := List.head?_eq_some_iff.mp hhead
        have hinside := passes_template ih (.rawString opened :: up) (by simp at hle; omega)
          (fun hlt h => ih.raw (by simp at hle; omega) h opened up hopened) h
        rw [literalLength]
        refine hinside.across [] rfl (fun r hr => hrest r ?_) (by simp)
        rw [(ends_peek h).bind_iff]
        exact (ends_second h).bind_iff.mpr hr
      · have hend : c = '"' → ∀ ds, cs ≠ '"' :: '"' :: ds := by
          rintro rfl ds rfl
          simp at hquotes
        have hmachine : literalLength (.rawString opened :: up) pos (c :: cs) =
            (· + 1) <$> literalLength (.rawString opened :: up) (pos + c.utf8Size) cs :=
          literalLength_rawString_char hend fun hc hhead => htemplate ⟨hc, hhead⟩
        refine (ih.raw hle h.next opened up hopened).across [c] rfl (fun r hr => hrest r ?_) hmachine
        have hbump : (do bump; rawRest source opened : Reader source Unit).Ends pos r := (ends_bump h).bind_iff.mpr hr
        rw [(ends_peek h).bind_iff]
        by_cases hdollar : c = '$'
        · subst hdollar
          exact ends_noTemplate h (fun hhead => htemplate ⟨rfl, hhead⟩) hbump
        · split <;> simp_all

/-- A string in a template, and the rest of the template. -/
theorem passes_templateString (ih : PassesBelow source n) {inner : Nat} (up : List OpenPart) (hlt : cs.length < n)
    (hagain : ∀ {pos' : Nat} {rest : List Char}, rest.length < n → At source pos' rest →
      Passes (templateRest source opened (inner + 1)) pos' rest (literalLength (.template opened inner :: up) pos' rest)
        (literalLength up))
    (h : At source pos ('"' :: cs)) :
    Passes (templateRest source opened (inner + 1)) pos ('"' :: cs)
      (literalLength (.template opened inner :: up) pos ('"' :: cs)) (literalLength up) := by
  have hstep : ∀ r, (do string source; templateRest source opened (inner + 1) : Reader source Unit).Ends pos r →
      (templateRest source opened (inner + 1)).Ends pos r := by
    intro r hr
    rw [templateRest, if_neg (Nat.succ_ne_zero inner), (ends_peek h).bind_iff]
    exact hr
  by_cases hquotes : ∃ ds, cs = '"' :: '"' :: ds
  · obtain ⟨ds, rfl⟩ := hquotes
    have hinside := passes_rawString ih (.template opened inner :: up) (by simp at hlt; omega)
      (fun hle h => hagain (by simp at hlt; omega) h) h
    refine hinside.across [] rfl hstep ?_
    simp [literalLength]
  · have hinside := passes_string ih (.template opened inner :: up) hlt (fun hle h => hagain (by omega) h) h
      fun ds hds => hquotes ⟨ds, hds⟩
    refine hinside.across [] rfl hstep ?_
    rw [literalLength]
    · simp
    · exact fun ds hds => hquotes ⟨ds, hds⟩

theorem passes_templateRest (ih : PassesBelow source n) {inner : Nat} (up : List OpenPart)
    (hopened : Opened source .template opened) (hle : cs.length ≤ n) (h : At source pos cs) :
    Passes (templateRest source opened (inner + 1)) pos cs (literalLength (.template opened inner :: up) pos cs)
      (literalLength up) := by
  have hpos : ¬inner + 1 = 0 := Nat.succ_ne_zero inner
  have hagain : ∀ {pos' : Nat} {rest : List Char}, rest.length < n → At source pos' rest →
      Passes (templateRest source opened (inner + 1)) pos' rest
        (literalLength (.template opened inner :: up) pos' rest) (literalLength up) :=
    fun hlt h => ih.template hlt h opened inner up hopened
  cases cs with
  | nil =>
    rw [literalLength]
    refine .refused ?_
    rw [templateRest, if_neg hpos, (ends_peek h).bind_iff]
    exact ends_unterminated hopened pos
  | cons c cs =>
    simp only [List.length_cons] at hle
    by_cases hopen : c = '\x7b'
    · subst hopen
      refine (ih.template hle h.next opened (inner + 1) up hopened).across ['\x7b'] rfl (fun r hr => ?_)
        (by simp [literalLength]; rfl)
      rw [templateRest, if_neg hpos, (ends_peek h).bind_iff]
      exact (ends_bump h).bind_iff.mpr hr
    · by_cases hclose : c = '\x7d'
      · subst hclose
        have hstep : ∀ r, (templateRest source opened inner).Ends (pos + 1) r →
            (templateRest source opened (inner + 1)).Ends pos r := by
          intro r hr
          rw [templateRest, if_neg hpos, (ends_peek h).bind_iff]
          exact (Ends.less pos).bind_iff.mpr ((ends_bump h).bind_iff.mpr hr)
        cases inner with
        | zero =>
          refine .done ['\x7d'] rfl (hstep _ ?_) (by simp [literalLength]; rfl)
          rw [templateRest, if_pos rfl]
          exact .pure () _
        | succ inner =>
          exact (ih.template hle h.next opened inner up hopened).across ['\x7d'] rfl hstep (by simp [literalLength]; rfl)
      · by_cases hquote : c = '"'
        · subst hquote
          exact passes_templateString ih up hle hagain h
        · by_cases happostrophe : c = '\''
          · subst happostrophe
            have hinside := passes_character (.template opened inner :: up) (fun hlt h => hagain (by omega) h) h
            refine hinside.across [] rfl (fun r hr => ?_) (by simp [literalLength])
            rw [templateRest, if_neg hpos, (ends_peek h).bind_iff]
            exact hr
          · have hmachine : literalLength (.template opened inner :: up) pos (c :: cs) =
                (· + 1) <$> literalLength (.template opened inner :: up) (pos + c.utf8Size) cs :=
              literalLength_template_char (by simp [hopen, hclose, hquote, happostrophe])
            refine (hagain hle h.next).across [c] rfl (fun r hr => ?_) hmachine
            have hbump : (do bump; templateRest source opened (inner + 1) : Reader source Unit).Ends pos r :=
              (ends_bump h).bind_iff.mpr hr
            rw [templateRest, if_neg hpos, (ends_peek h).bind_iff]
            split <;> simp_all

/-- **The readers of strings and templates** do what the machine over a stack of open parts does. -/
theorem passesBelow (source : String) (n : Nat) : PassesBelow source n := by
  induction n with
  | zero => exact ⟨nofun, nofun, nofun⟩
  | succ n ih =>
    refine ⟨fun hlt h opened up hopened => ?_, fun hlt h opened up hopened => ?_, fun hlt h opened inner up hopened => ?_⟩
    · exact passes_stringRest ih up hopened (by omega) h
    · exact passes_rawRest ih up hopened (by omega) h
    · exact passes_templateRest ih up hopened (by omega) h

end Literals

/-! ## Tokens are cut -/

section Cutting

variable {pos : Nat} {c : Char} {cs : List Char}

/-- A literal that is read on its own ends where the machine says. -/
theorem Passes.ends {x : Reader source Unit} {machine : Except SyntaxError Nat} (h : Passes x pos cs machine (literalLength [])) :
    x.Ends pos ((fun n => ((), pos + byteSize (cs.take n))) <$> machine) := by
  obtain ⟨e, hx, rfl⟩ | ⟨front, rest, rfl, hx, rfl⟩ := h
  · exact hx
  · have hall : literalLength [] (pos + byteSize front) rest = .ok 0 := by rw [literalLength]
    have hresult : (fun n => ((), pos + byteSize ((front ++ rest).take n))) <$> (· + front.length) <$>
        literalLength [] (pos + byteSize front) rest = .ok ((), pos + byteSize front) := by
      rw [hall]
      simp [Functor.map, Except.map]
    rw [hresult]
    exact hx

theorem ends_nameRest (h : At source pos cs) :
    (nameRest source).Ends pos (.ok ((), pos + byteSize (cs.takeWhile isNameChar))) := by
  induction cs generalizing pos with
  | nil =>
    rw [nameRest, (ends_peek h).bind_iff]
    exact .pure () pos
  | cons c cs ih =>
    rw [nameRest, (ends_peek h).bind_iff]
    by_cases hc : isNameChar c
    · rw [List.takeWhile_cons_of_pos hc, byteSize, ← Nat.add_assoc, if_pos (by simpa using hc), (ends_bump h).bind_iff]
      exact ih h.next
    · rw [List.takeWhile_cons_of_neg hc, if_neg (by simpa using hc)]
      exact .pure () pos

theorem numberLength_cons (c : Char) (cs : List Char) :
    numberLength (c :: cs) =
      if isNameChar c || (c == '.' && cs.head?.any Char.isDigit) then numberLength cs + 1 else 0 := by
  have hdot : isNameChar '.' = false := by decide
  by_cases hc : c = '.'
  · subst hc
    cases cs with
    | nil => simp [numberLength, hdot]
    | cons d ds => simp [numberLength, hdot]
  · have hne : (c == '.') = false := by simpa using hc
    rw [numberLength, hne, Bool.false_and, Bool.or_false]
    intro d ds hdot
    exact absurd hdot hc

theorem ends_number (h : At source pos cs) :
    (number source).Ends pos (.ok ((), pos + byteSize (cs.take (numberLength cs)))) := by
  induction cs generalizing pos with
  | nil =>
    rw [number, (ends_peek h).bind_iff]
    exact .pure () pos
  | cons c cs ih =>
    have hsecond : (c :: cs)[1]? = cs.head? := by cases cs <;> rfl
    rw [number, (ends_peek h).bind_iff, numberLength_cons]
    refine (ends_second h).bind_iff.mpr ?_
    rw [hsecond]
    split
    · rw [List.take_succ_cons, byteSize, ← Nat.add_assoc, (ends_bump h).bind_iff]
      exact ih h.next
    · exact .pure () pos

theorem ends_quotedRest {opened : Nat} (hopened : Opened source .quotedName opened) (h : At source pos cs) :
    (quotedRest source opened).Ends pos
      ((fun n => ((), pos + byteSize (cs.take n))) <$> quotedNameLength opened cs) := by
  induction cs generalizing pos with
  | nil =>
    rw [quotedRest, (ends_peek h).bind_iff]
    exact ends_unterminated hopened pos
  | cons c cs ih =>
    rw [quotedRest, (ends_peek h).bind_iff]
    by_cases hbreak : c = '\n'
    · subst hbreak
      exact ends_unterminated hopened pos
    · by_cases hend : c = '\x60'
      · subst hend
        exact ends_bump h
      · have hrest : (do bump; quotedRest source opened : Reader source Unit).Ends pos
            ((fun n => ((), pos + c.utf8Size + byteSize (cs.take n))) <$> quotedNameLength opened cs) :=
          (ends_bump h).bind_iff.mpr (ih h.next)
        have hlength : quotedNameLength opened (c :: cs) = (· + 1) <$> quotedNameLength opened cs := by
          rw [quotedNameLength]
          · exact hbreak
          · exact hend
        have hresult : (fun n => ((), pos + byteSize ((c :: cs).take n))) <$> quotedNameLength opened (c :: cs) =
            (fun n => ((), pos + c.utf8Size + byteSize (cs.take n))) <$> quotedNameLength opened cs := by
          rw [hlength]
          cases quotedNameLength opened cs with
          | error e => rfl
          | ok n => simp [Functor.map, Except.map, byteSize, Nat.add_assoc]
        rw [hresult]
        split <;> simp_all

/-- A literal as a token. -/
theorem ends_literal {x : Reader source Unit} {kind : TokenKind} {machine : Except SyntaxError Nat}
    (h : Passes (do x; return ()) pos (c :: cs) ((· + 1) <$> machine) (literalLength [])) :
    (do x; return kind : Reader source TokenKind).Ends pos
      ((fun r => (r.1, pos + byteSize (c :: cs.take r.2))) <$> (kind, ·) <$> machine) := by
  have hx : x.Ends pos ((fun n => ((), pos + byteSize ((c :: cs).take n))) <$> (· + 1) <$> machine) := by
    have h := h.ends
    rwa [bind_pure_unit] at h
  cases machine with
  | error e => exact hx.bind_error _
  | ok n => exact hx.bind_iff.mpr (.pure kind _)

/-- Where no part is open, there is nothing to read. -/
theorem passes_nothing (pos : Nat) (cs : List Char) :
    Passes (pure () : Reader source Unit) pos cs (literalLength [] pos cs) (literalLength []) :=
  .done [] rfl (.pure () pos) (by simp [literalLength])

theorem ends_stringToken (h : At source pos ('"' :: cs)) :
    (do string source; return .string : Reader source TokenKind).Ends pos
      ((fun r => (r.1, pos + byteSize ('"' :: cs.take r.2))) <$> lexeme pos '"' cs) := by
  have hbelow := passesBelow source (cs.length + 1)
  by_cases hquotes : ∃ ds, cs = '"' :: '"' :: ds
  · obtain ⟨ds, rfl⟩ := hquotes
    have hlexeme : lexeme pos '"' ('"' :: '"' :: ds) =
        (TokenKind.string, ·) <$> (· + 2) <$> literalLength [.rawString pos] (pos + 3) ds := by
      unfold lexeme
      simp
    have hraw := passes_rawString hbelow [] (by simp; omega) (fun _ _ => passes_nothing _ _) h
    rw [hlexeme]
    refine ends_literal ?_
    simpa using hraw
  · have hlexeme : lexeme pos '"' cs = (TokenKind.string, ·) <$> literalLength [.string pos] (pos + 1) cs := by
      unfold lexeme
      rw [if_pos (by simp)]
      split
      next ds => exact absurd ⟨ds, rfl⟩ hquotes
      next => rfl
    rw [hlexeme]
    exact ends_literal (passes_string hbelow [] (by omega) (fun _ _ => passes_nothing _ _) h fun ds hds => hquotes ⟨ds, hds⟩)

theorem ends_characterToken (h : At source pos ('\'' :: cs)) :
    (do character source; return .character : Reader source TokenKind).Ends pos
      ((fun r => (r.1, pos + byteSize ('\'' :: cs.take r.2))) <$> lexeme pos '\'' cs) := by
  have hlexeme : lexeme pos '\'' cs = (TokenKind.character, ·) <$> literalLength [.character pos] (pos + 1) cs := by
    unfold lexeme
    simp
  rw [hlexeme]
  exact ends_literal (passes_character [] (fun _ _ => passes_nothing _ _) h)

theorem ends_quotedToken (h : At source pos ('\x60' :: cs)) :
    (do bump; quotedRest source pos; return .name : Reader source TokenKind).Ends pos
      ((fun r => (r.1, pos + byteSize ('\x60' :: cs.take r.2))) <$> lexeme pos '\x60' cs) := by
  have hlexeme : lexeme pos '\x60' cs = (TokenKind.name, ·) <$> quotedNameLength pos cs := by
    unfold lexeme
    simp
  have hrest := ends_quotedRest (opened_of_at h h.next) h.next
  rw [hlexeme, (ends_bump h).bind_iff]
  cases hlength : quotedNameLength pos cs with
  | error e =>
    rw [hlength] at hrest
    exact hrest.bind_error _
  | ok n =>
    rw [hlength] at hrest
    refine hrest.bind_iff.mpr ?_
    rw [Nat.add_assoc]
    exact .pure _ _

/-- **A token** is cut as its first character says. -/
theorem ends_token (h : At source pos (c :: cs)) :
    (token source c).Ends pos ((fun r => (r.1, pos + byteSize (c :: cs.take r.2))) <$> lexeme pos c cs) := by
  rw [token, (Ends.get pos).bind_iff]
  by_cases hstring : c = '"'
  · subst hstring
    exact ends_stringToken h
  rw [if_neg hstring]
  by_cases hcharacter : c = '\''
  · subst hcharacter
    exact ends_characterToken h
  rw [if_neg hcharacter]
  by_cases hquoted : c = '\x60'
  · subst hquoted
    exact ends_quotedToken h
  rw [if_neg hquoted]
  unfold lexeme
  simp only [beq_iff_eq, if_neg hstring, if_neg hcharacter, if_neg hquoted]
  by_cases hdigit : c.isDigit = true
  · have hfirst : isNameChar c = true := by
      by_contra hname
      rw [isDigit_of_not_isNameChar (Bool.not_eq_true _ ▸ hname)] at hdigit
      cases hdigit
    have hnumber := ends_number h
    rw [numberLength_cons, hfirst, Bool.true_or, if_pos rfl, List.take_succ_cons] at hnumber
    rw [if_pos hdigit, if_pos hdigit]
    exact hnumber.bind_iff.mpr (.pure _ _)
  rw [if_neg hdigit, if_neg hdigit]
  by_cases hname : isNameStart c = true
  · have hrest := ends_nameRest h
    rw [List.takeWhile_cons_of_pos (isNameChar_of_isNameStart hname), ← take_length_takeWhile isNameChar cs] at hrest
    rw [if_pos hname, if_pos hname]
    exact hrest.bind_iff.mpr (.pure _ _)
  rw [if_neg hname, if_neg hname, (ends_second h).bind_iff]
  have hsecond : (c :: cs)[1]? = cs.head? := by cases cs <;> rfl
  rw [hsecond]
  by_cases harrow : c = '-' ∧ cs.head? = some '>'
  · obtain ⟨rfl, hhead⟩ := harrow
    obtain ⟨ds, rfl⟩ : ∃ ds, cs = '>' :: ds := by cases cs <;> simp_all
    exact (ends_bump h).bind_iff.mpr ((ends_bump h.next).bind_iff.mpr (.pure _ _))
  · rw [if_neg (by simpa using harrow), if_neg (by simpa using harrow)]
    exact (ends_bump h).bind_iff.mpr (.pure _ _)

end Cutting

/-! ## Sources are cut -/

section Sources

variable {state state' : GapState} {pos pos' : Nat} {cs : List Char}

/-- Where the tokens of a text stand that starts at an offset. -/
def boundsFrom (state : GapState) (pos : Nat) (cs : List Char) : Except SyntaxError (List TokenSpan) :=
  (fun p => p.1.map Token.bounds) <$> tokens state pos cs

/-- The first token stands behind the gap, and the others behind it. -/
theorem boundsFrom_eq {n : Nat} {c : Char} {rest : List Char} (hgap : gapLength state pos cs = .ok n)
    (hdrop : cs.drop n = c :: rest) (hpos : pos' = pos + byteSize (cs.take n)) :
    boundsFrom state pos cs = (do
      let (kind, m) ← lexeme pos' c rest
      return ⟨some kind, pos', pos' + byteSize (c :: rest.take m)⟩ ::
        (← boundsFrom .between (pos' + byteSize (c :: rest.take m)) (rest.drop m))) := by
  subst hpos
  rw [boundsFrom, tokens, hgap]
  simp only [bind, Except.bind]
  split
  next hnil => simp [hdrop] at hnil
  next d ds hcons =>
    obtain ⟨rfl, rfl⟩ := List.cons.inj (hdrop.symm.trans hcons)
    cases lexeme (pos + byteSize (cs.take n)) c rest with
    | error e => rfl
    | ok r =>
      obtain ⟨kind, m⟩ := r
      simp only [boundsFrom]
      cases tokens .between (pos + byteSize (cs.take n) + byteSize (c :: rest.take m)) (rest.drop m) with
      | error e => rfl
      | ok p =>
        have hstop : ∀ gap start, (⟨kind, String.ofList (c :: rest.take m), gap, start⟩ : Token).bounds =
            ⟨some kind, start, start + byteSize (c :: rest.take m)⟩ := by
          intro gap start
          rw [Token.bounds, Token.stop, byteSize_eq]
        simp only [Functor.map, Except.map, pure, Except.pure, List.map_cons, hstop]

/-- Going over a part of the gap does not change where the tokens stand. -/
theorem boundsFrom_gap (front : List Char) (hpos : pos' = pos + byteSize front)
    (h : gapLength state pos (front ++ cs) = (· + front.length) <$> gapLength state' pos' cs) :
    boundsFrom state pos (front ++ cs) = boundsFrom state' pos' cs := by
  subst hpos
  cases hgap : gapLength state' (pos + byteSize front) cs with
  | error e =>
    rw [hgap] at h
    rw [boundsFrom, boundsFrom, tokens, tokens, h, hgap]
    rfl
  | ok n =>
    have hall : gapLength state pos (front ++ cs) = .ok (n + front.length) := by rw [h, hgap]; rfl
    have hdrop : (front ++ cs).drop (n + front.length) = cs.drop n := by rw [Nat.add_comm, List.drop_length_add_append]
    have hsize : pos + byteSize front + byteSize (cs.take n) = pos + byteSize ((front ++ cs).take (n + front.length)) := by
      rw [Nat.add_comm n, List.take_length_add_append, byteSize_append, Nat.add_assoc]
    cases hrest : cs.drop n with
    | nil =>
      rw [boundsFrom, boundsFrom, tokens_eq_nil hall (hdrop.trans hrest), tokens_eq_nil hgap hrest]
      rfl
    | cons c rest => rw [boundsFrom_eq hall (hdrop.trans hrest) hsize, boundsFrom_eq hgap hrest rfl]

/-- Where the tokens stand when the rest of the text is read. -/
def readFrom (source : String) (state : GapState) (pos : Nat) (cs : List Char) : Except SyntaxError (List TokenSpan × Nat) :=
  (fun ts => (ts, source.utf8ByteSize)) <$> boundsFrom state pos cs

/-- A part of the gap is gone over, then the rest is read. -/
theorem ends_tokensFrom_gap {x : Reader source Unit} {machine : Except SyntaxError Nat} (front : List Char)
    (hpos : pos' = pos + byteSize front) (h : At source pos' cs) (hx : Passes x pos' cs machine (gapLength .between))
    (hgap : gapLength state pos (front ++ cs) = (· + front.length) <$> machine)
    (hread : ∀ {pos' : Nat} {rest : List Char}, rest.length ≤ cs.length → At source pos' rest →
      (tokensFrom source).Ends pos' (readFrom source .between pos' rest)) :
    (do x; tokensFrom source : Reader source _).Ends pos' (readFrom source state pos (front ++ cs)) := by
  subst hpos
  obtain ⟨e, hx, rfl⟩ | ⟨front', rest, rfl, hx, rfl⟩ := hx
  · have hall : readFrom source state pos (front ++ cs) = .error e := by
      rw [readFrom, boundsFrom, tokens, hgap]
      rfl
    rw [hall]
    exact hx.bind_error _
  · have hall : boundsFrom state pos (front ++ (front' ++ rest)) =
        boundsFrom .between (pos + byteSize front + byteSize front') rest := by
      rw [← List.append_assoc] at hgap ⊢
      refine boundsFrom_gap _ (by rw [byteSize_append, Nat.add_assoc]) (hgap.trans ?_)
      cases gapLength .between (pos + byteSize front + byteSize front') rest with
      | error e => rfl
      | ok n => simp [Functor.map, Except.map]; omega
    rw [readFrom, hall]
    exact hx.bind_iff.mpr (hread (by simp) h.drop_append)

/-- A token is cut, then the rest is read. -/
theorem ends_tokensFrom_token {c : Char} (h : At source pos (c :: cs)) (hgap : gapLength .between pos (c :: cs) = .ok 0)
    (hread : ∀ {pos' : Nat} {rest : List Char}, rest.length ≤ cs.length → At source pos' rest →
      (tokensFrom source).Ends pos' (readFrom source .between pos' rest)) :
    (do
      let kind ← token source c
      let stop ← get
      return ⟨some kind, pos, stop⟩ :: (← tokensFrom source) : Reader source (List TokenSpan)).Ends pos
      (readFrom source .between pos (c :: cs)) := by
  have htoken := ends_token h
  have hstart : pos = pos + byteSize ((c :: cs).take 0) := rfl
  rw [readFrom, boundsFrom_eq hgap rfl hstart]
  cases hlexeme : lexeme pos c cs with
  | error e =>
    rw [hlexeme] at htoken
    exact htoken.bind_error _
  | ok r =>
    obtain ⟨kind, m⟩ := r
    have hstop : At source (pos + byteSize (c :: cs.take m)) (cs.drop m) := h.drop (m + 1)
    have hrest := hread (by simp) hstop
    rw [hlexeme] at htoken
    refine htoken.bind_iff.mpr ((Ends.get _).bind_iff.mpr ?_)
    rw [readFrom] at hrest
    cases hbounds : boundsFrom .between (pos + byteSize (c :: cs.take m)) (cs.drop m) with
    | error e =>
      rw [hbounds] at hrest
      simp only [bind, Except.bind, hbounds]
      exact hrest.bind_error _
    | ok ts =>
      rw [hbounds] at hrest
      simp only [bind, Except.bind, hbounds]
      exact hrest.bind_iff.mpr (.pure _ _)

theorem ends_tokensFrom (h : At source pos cs) :
    (tokensFrom source).Ends pos (readFrom source .between pos cs) := by
  induction hlen : cs.length using Nat.strongRecOn generalizing pos cs with
  | ind len ih =>
    cases cs with
    | nil =>
      have hsize : source.utf8ByteSize = pos := h.size
      have hnil : readFrom source .between pos [] = .ok ([], pos) := by
        have hgap : gapLength .between pos [] = .ok 0 := by
          rw [gapLength]
          intro _ _ hstate
          cases hstate
        rw [readFrom, boundsFrom, tokens_eq_nil hgap rfl, hsize]
        rfl
      rw [hnil, tokensFrom, (ends_peek h).bind_iff]
      exact .pure [] pos
    | cons c cs =>
      have hread : ∀ {pos' : Nat} {rest : List Char}, rest.length ≤ cs.length → At source pos' rest →
          (tokensFrom source).Ends pos' (readFrom source .between pos' rest) :=
        fun hle h => ih _ (by simp at hlen; omega) h rfl
      rw [tokensFrom, (ends_peek h).bind_iff]
      refine (Ends.get pos).bind_iff.mpr ?_
      by_cases hblank : isBlank c = true
      · have hnone : Passes (pure () : Reader source Unit) (pos + c.utf8Size) cs (gapLength .between (pos + c.utf8Size) cs)
            (gapLength .between) := .done [] rfl (.pure () _) (by simp; rfl)
        have hrest := ends_tokensFrom_gap [c] rfl h.next hnone (gapLength_between_blank hblank pos cs) hread
        rw [if_pos hblank]
        refine (ends_bump h).bind_iff.mpr ?_
        rwa [(Ends.pure () _).bind_iff] at hrest
      rw [if_neg hblank]
      refine (ends_second h).bind_iff.mpr ?_
      by_cases hline : ∃ ds, c = '/' ∧ cs = '/' :: ds
      · obtain ⟨ds, rfl, rfl⟩ := hline
        have hgap : gapLength .between pos ('/' :: '/' :: ds) = (· + 2) <$> gapLength .lineComment (pos + 2) ds := by
          rw [gapLength]
        have hrest := ends_tokensFrom_gap ['/', '/'] rfl h.next.next (passes_skipLine h.next.next) hgap
          fun hle h => hread (by simp; omega) h
        rw [if_pos (by simp)]
        exact ends_skipLine_cons h (by decide) (ends_skipLine_cons h.next (by decide) hrest)
      by_cases hblock : ∃ ds, c = '/' ∧ cs = '*' :: ds
      · obtain ⟨ds, rfl, rfl⟩ := hblock
        have hopened : Opened source .blockComment pos := opened_of_at h h.next.next
        have hgap : gapLength .between pos ('/' :: '*' :: ds) = (· + 2) <$> gapLength (.blockComment pos 0) (pos + 2) ds := by
          rw [gapLength]
        have hrest := ends_tokensFrom_gap ['/', '*'] rfl h.next.next (passes_commentRest hopened h.next.next) hgap
          fun hle h => hread (by simp; omega) h
        rw [if_neg (by simp)]
        refine (ends_second h).bind_iff.mpr ?_
        rw [if_pos (by simp)]
        exact ends_skipComment_open h hrest
      have hsecond : (c :: cs)[1]? = cs.head? := by cases cs <;> rfl
      have hno : ∀ d, (¬∃ ds, c = '/' ∧ cs = d :: ds) → ¬(decide (c = '/') && decide ((c :: cs)[1]? = some d)) = true := by
        intro d hd hboth
        rw [hsecond, Bool.and_eq_true, decide_eq_true_eq, decide_eq_true_eq, List.head?_eq_some_iff] at hboth
        obtain ⟨hc, ds, hds⟩ := hboth
        exact hd ⟨ds, hc, hds⟩
      have hgap : gapLength .between pos (c :: cs) = .ok 0 := by
        rw [gapLength, if_neg hblank]
        · exact fun ds hc hds => hline ⟨ds, hc, hds⟩
        · exact fun ds hc hds => hblock ⟨ds, hc, hds⟩
      rw [if_neg (hno _ hline)]
      refine (ends_second h).bind_iff.mpr ?_
      rw [if_neg (hno _ hblock)]
      exact ends_tokensFrom_token h hgap hread

/-- **Cutting a source**: no check fails, and the tokens stand where those of the stream stand, or the source is refused for the
same reason. -/
theorem ends_tokenize (source : String) : (tokenize : Reader source _).Ends 0
    ((fun s => (s.tokens.map Token.bounds ++ [endBounds source], source.utf8ByteSize)) <$> TokenStream.ofSource source) := by
  have hstart := At.start source
  have hread : (do skipShellLine; tokensFrom source : Reader source _).Ends 0
      (readFrom source (if ['#', '!'].isPrefixOf source.toList then .lineComment else .between) 0 source.toList) := by
    rw [skipShellLine]
    split
    · exact ends_tokensFrom_gap [] rfl hstart (passes_skipLine hstart) (by simp) fun _ h => ends_tokensFrom h
    · exact (Ends.pure () 0).bind_iff.mpr (ends_tokensFrom hstart)
  have htokenize :
      (tokenize : Reader source _) = (do skipShellLine; tokensFrom source) >>= fun ts => pure (ts ++ [endBounds source]) := by
    rw [tokenize, bind_assoc]
  rw [htokenize, TokenStream.ofSource]
  rw [readFrom, boundsFrom] at hread
  generalize (if ['#', '!'].isPrefixOf source.toList then GapState.lineComment else .between) = state at hread ⊢
  cases htokens : tokens state 0 source.toList with
  | error e =>
    rw [htokens] at hread
    simp only [bind, Except.bind]
    exact hread.bind_error _
  | ok p =>
    rw [htokens] at hread
    simp only [bind, Except.bind]
    exact hread.bind_iff.mpr (.pure _ _)

end Sources

end Reader

end Counterpart.Kotlin
