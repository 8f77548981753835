/-
Reading tokens with checks. Here the position of a reader is an index into the tokens of a source, with the end of the source as
the last of them; texts are cut out of the source. `Tracks` says that such a reader does what a reader of the list of the tokens
that are left does, and that no check fails.
-/
import Counterpart.Proofs.CheckedLexing

namespace Counterpart.Kotlin

open Text

namespace TokenSpan

def isMark (c : Char) (t : TokenSpan) : Bool := t.kind? == some (.mark c)

def isName (t : TokenSpan) : Bool := t.kind? == some .name

def isEnd (t : TokenSpan) : Bool := t.kind?.isNone

/-- Whether the token opens a group. -/
def opens (t : TokenSpan) : Bool := t.isMark '(' || t.isMark '[' || t.isMark '\x7b'

/-- The bracket that the token is, when it closes a group. -/
def closing? (t : TokenSpan) : Option Char :=
  if t.isMark ')' then some ')' else if t.isMark ']' then some ']' else if t.isMark '\x7d' then some '\x7d' else none

/-- The bracket that closes the group which the token opens. -/
def closer (t : TokenSpan) : Char := if t.isMark '(' then ')' else if t.isMark '[' then ']' else '\x7d'

end TokenSpan

def Reader.textOf {source : String} (t : TokenSpan) : Reader source String := slice t.start t.stop

/-- The tokens of a source with its end behind them. -/
abbrev TokenSpans := List TokenSpan

namespace TokenSpans

open Reader

variable {source : String} (toks : TokenSpans)

/-! ## Tokens -/

/-- The token so many places further on; the last one stays the next when there are no more. -/
def tokenAt (n : Nat) : Reader source TokenSpan := do
  let last ← less toks.length
  match toks[min ((← get) + n) last]? with
  | some t => return t
  | none => throw (.broken .index)

/-- Takes the next token; the end of the source is not taken. -/
def advance : Reader source TokenSpan := do
  let t ← toks.tokenAt 0
  if t.isEnd then return t
  else do
    modify (· + 1)
    return t

/-- The token before the position, if there is one. -/
def tokenBefore : Reader source (Option TokenSpan) := do
  let pos ← get
  if pos = 0 then return none
  else
    match toks[pos - 1]? with
    | some t => return some t
    | none => throw (.broken .index)

/-- Where the token before the position ends. -/
def endBefore : Reader source Nat := return ((← toks.tokenBefore).map (·.stop)).getD 0

/-- The text from an offset on to the end of the token before the position. -/
def textFrom (start : Nat) : Reader source String := do slice start (← toks.endBefore)

/-- The text of a name so many places further on. -/
def nameAt (n : Nat) : Reader source (Option String) := do
  let t ← toks.tokenAt n
  if t.isName then return some (← textOf t) else return none

def atWord (word : String) : Reader source Bool := return (← toks.nameAt 0) == some word

/-- Takes a mark, if it comes next. -/
def eat (c : Char) : Reader source Bool := do
  if (← toks.tokenAt 0).isMark c then do
    let _ ← toks.advance
    return true
  else return false

/-- Takes a word, if it comes next. -/
def eatWord (word : String) : Reader source Bool := do
  if ← toks.atWord word then do
    let _ ← toks.advance
    return true
  else return false

/-- Takes a mark that must come next. -/
def expect (role : MarkRole) : Reader source Unit := do
  if ← toks.eat role.mark then return ()
  else do
    let t ← toks.tokenAt 0
    refuse (.missingMark role) t.start t.stop

/-- Takes a name that must come next. -/
def expectName (role : NameRole) : Reader source String := do
  let t ← toks.tokenAt 0
  if t.isName then do
    let _ ← toks.advance
    textOf t
  else refuse (.missingName role) t.start t.stop

/-! ## Groups -/

/-- Goes on to where the brackets of `opened` are closed, innermost first. -/
def closeAll (toks : TokenSpans) : (opened : List TokenSpan) → Reader source Unit
  | [] => return ()
  | top :: up => do
    let t ← toks.advance
    if t.opens then toks |>.closeAll (t :: top :: up)
    else
      match t.closing? with
      | some c => if c = top.closer then toks |>.closeAll up else refuse (.mismatched c top.closer) t.start t.stop
      | none => if t.isEnd then do refuse (.unclosed (← textOf top)) top.start top.stop else toks |>.closeAll (top :: up)
partial_fixpoint

/-- Skips the group that the next token opens. -/
def skipBalanced : Reader source Unit := do
  let opener ← toks.advance
  toks.closeAll [opener]

/-- The text of the group that the next token opens. -/
def captureBalanced : Reader source String := do
  let start := (← toks.tokenAt 0).start
  toks.skipBalanced
  toks.textFrom start

/-- Skips a token, or a group. -/
def skipNext : Reader source Unit := do
  let t ← toks.tokenAt 0
  if t.opens then toks.skipBalanced
  else if t.isMark ')' then refuse (.unexpected ')') t.start t.stop
  else if t.isMark ']' then refuse (.unexpected ']') t.start t.stop
  else do
    let _ ← toks.advance
    return ()

/-! ## Names -/

/-- The name with the segments that follow. -/
def moreNames (toks : TokenSpans) (name : String) : Reader source String := do
  if (← toks.tokenAt 0).isMark '.' && (← toks.tokenAt 1).isName then do
    let _ ← toks.advance
    let segment ← toks.advance
    toks |>.moreNames (name ++ "." ++ (← textOf segment))
  else return name
partial_fixpoint

def dotted (role : NameRole) : Reader source String := do
  toks.moreNames (← toks.expectName role)

end TokenSpans

/-! ## What is left -/

/-- The tokens of a stream with the end of its source, by where they stand. -/
def TokenStream.spans (s : TokenStream) (source : String) : TokenSpans :=
  s.tokens.map Token.bounds ++ [Reader.endBounds source]

/-- The index of the first of the tokens that are left. -/
def TokenStream.index (s : TokenStream) (ts : List Token) : Nat := s.tokens.length - ts.length

/-- The token so many places further on; the end of the source when there are no more. -/
def ahead (source : String) (ts : List Token) (n : Nat) : TokenSpan := (ts[n]?.map Token.bounds).getD (Reader.endBounds source)

section Bounds

variable (t : Token) (c : Char) (source : String)

@[simp] theorem isMark_bounds : t.bounds.isMark c = t.isMark c := rfl

@[simp] theorem isName_bounds : t.bounds.isName = t.isName := rfl

@[simp] theorem isEnd_bounds : t.bounds.isEnd = false := rfl

@[simp] theorem isMark_endBounds : (Reader.endBounds source).isMark c = false := rfl

@[simp] theorem isName_endBounds : (Reader.endBounds source).isName = false := rfl

@[simp] theorem isEnd_endBounds : (Reader.endBounds source).isEnd = true := rfl

theorem isMark_eq : t.isMark c = decide (t.kind = .mark c) := rfl

theorem opens_bounds : t.bounds.opens = t.closer?.isSome := by
  simp only [TokenSpan.opens, isMark_bounds, isMark_eq, Token.closer?]
  split <;> simp_all

theorem closing?_bounds : t.bounds.closing? = t.closing? := by
  simp only [TokenSpan.closing?, isMark_bounds, isMark_eq, decide_eq_true_eq, Token.closing?]
  split_ifs with hparen hbracket hbrace
  · rw [hparen]
    rfl
  · rw [hbracket]
    rfl
  · rw [hbrace]
    rfl
  · split <;> simp_all

theorem closer_bounds : t.bounds.closer = t.closer?.getD '\x7d' := by
  simp only [TokenSpan.closer, isMark_bounds, isMark_eq, decide_eq_true_eq, Token.closer?]
  split_ifs with hparen hbracket
  · rw [hparen]
    rfl
  · rw [hbracket]
    rfl
  · split <;> simp_all

@[simp] theorem ahead_nil (n : Nat) : ahead source [] n = Reader.endBounds source := rfl

@[simp] theorem ahead_zero (ts : List Token) : ahead source (t :: ts) 0 = t.bounds := rfl

@[simp] theorem ahead_succ (ts : List Token) (n : Nat) : ahead source (t :: ts) (n + 1) = ahead source ts n := rfl

end Bounds

theorem takeMark_true {c : Char} {ts us : List Token} {h} (htake : takeMark c ts = ⟨true, us, h⟩) :
    ∃ t, ts = t :: us ∧ t.isMark c = true := by
  cases ts with
  | nil => cases htake
  | cons t ts =>
    rw [takeMark] at htake
    split at htake
    next hmark =>
      cases htake
      exact ⟨t, rfl, hmark⟩
    next => cases htake

theorem takeMark_false {c : Char} {ts us : List Token} {h} (htake : takeMark c ts = ⟨false, us, h⟩) : us = ts := by
  cases ts with
  | nil =>
    cases htake
    rfl
  | cons t ts =>
    rw [takeMark] at htake
    split at htake
    next => cases htake
    next =>
      cases htake
      rfl

theorem takeWord_false {word : String} {ts us : List Token} {h} (htake : takeWord word ts = ⟨false, us, h⟩) : us = ts := by
  cases ts with
  | nil =>
    cases htake
    rfl
  | cons t ts =>
    rw [takeWord] at htake
    split at htake
    next => cases htake
    next =>
      cases htake
      rfl

theorem nameText_beq (t? : Option Token) (word : String) :
    ((t?.filter Token.isName).map Token.text == some word) = t?.any (Token.isWord word) := by
  cases t? with
  | none => rfl
  | some t =>
    rw [Option.filter_some, Option.any_some, Token.isWord]
    cases t.isName <;> simp

theorem Token.not_isName_of_isMark {t : Token} {c : Char} (h : t.isMark c = true) : t.isName = false := by
  rw [Token.isName, kind_of_isMark h]
  rfl

theorem dropUseSite_of_isMark {t : Token} {c : Char} (h : t.isMark c = true) (ts : List Token) :
    dropUseSite (t :: ts) = .keep () (t :: ts) := by
  cases ts with
  | nil => rfl
  | cons u us => rw [dropUseSite, Token.not_isName_of_isMark h, Bool.false_and, Bool.false_and, if_neg Bool.false_ne_true]

/-! ## Where tokens stand -/

namespace TokenStream

variable {source : String} {s : TokenStream} {t : Token} {ts us : List Token}

theorem length_spans : (s.spans source).length = s.tokens.length + 1 := by
  rw [spans, List.length_append, List.length_map]
  rfl

theorem index_append (front : List Token) (h : s.tokens = front ++ ts) : s.index ts = front.length := by
  rw [index, h, List.length_append]
  omega

theorem index_cons (h : t :: ts <:+ s.tokens) : s.index ts = s.index (t :: ts) + 1 := by
  have := h.length_le
  simp only [index, List.length_cons] at this ⊢
  omega

theorem index_nil : s.index [] = s.tokens.length := Nat.sub_zero _

theorem spans_ahead (h : ts <:+ s.tokens) (n : Nat) :
    (s.spans source)[min (s.index ts + n) s.tokens.length]? = some (ahead source ts n) := by
  obtain ⟨front, hfront⟩ := h
  rw [index_append front hfront.symm, spans, ← hfront, List.map_append, List.append_assoc, ahead]
  by_cases hn : n < ts.length
  · have hmin : min (front.length + n) (front ++ ts).length = (front.map Token.bounds).length + n := by
      rw [List.length_append, List.length_map]
      omega
    rw [hmin, List.getElem?_append_right (Nat.le_add_right _ _), Nat.add_sub_cancel_left,
      List.getElem?_append_left (by simpa using hn), List.getElem?_map, List.getElem?_eq_getElem hn]
    rfl
  · have hmin : min (front.length + n) (front ++ ts).length = (front.map Token.bounds ++ ts.map Token.bounds).length := by
      simp only [List.length_append, List.length_map]
      omega
    rw [hmin, ← List.append_assoc, List.getElem?_concat_length, List.getElem?_eq_none (by omega)]
    rfl

theorem spans_drop (h : ts <:+ s.tokens) :
    (s.spans source).drop (s.index ts) = ts.map Token.bounds ++ [Reader.endBounds source] := by
  obtain ⟨front, hfront⟩ := h
  have hlength : front.length = (front.map Token.bounds).length := (List.length_map _).symm
  rw [index_append front hfront.symm, spans, ← hfront, List.map_append, List.append_assoc, hlength, List.drop_left]

/-- The token before those that are left. -/
def behind (s : TokenStream) (ts : List Token) : Option Token := (s.tokens.take (s.index ts)).getLast?

theorem behind_append (front : List Token) (h : s.tokens = front ++ ts) : s.behind ts = front.getLast? := by
  rw [behind, index_append front h, h, List.take_left]

theorem behind_cons (h : t :: ts <:+ s.tokens) : s.behind ts = some t := by
  obtain ⟨front, hfront⟩ := h
  rw [behind_append (front ++ [t]) (by simp [hfront]), List.getLast?_concat]

/-- Where the token before those that are left ends. -/
def stopBehind (s : TokenStream) (ts : List Token) : Nat := ((s.behind ts).map Token.stop).getD 0

end TokenStream

namespace TokenStream.Lossless

variable {source : String} {s : TokenStream} {t : Token} {ts rest : List Token} (hs : s.Lossless source)
include hs

theorem stopBehind_append (front : List Token) (h : s.tokens = front ++ ts) :
    s.stopBehind ts = (writtenOut front).utf8ByteSize := by
  rw [stopBehind, behind_append front h]
  obtain rfl | ⟨before, t, rfl⟩ := List.eq_nil_or_concat' front
  · rfl
  · rw [List.getLast?_concat, Option.map_some, Option.getD_some, Token.stop, hs.placed before t ts (by simp [h])]
    simp only [writtenOut, List.map_append, List.map_cons, List.map_nil, String.join_append, String.join_cons,
      String.join_nil, String.append_empty, String.utf8ByteSize_append]
    omega

/-- A token is adjacent to the one before when it starts where that one ends. -/
theorem start_eq_stopBehind (h : t :: ts <:+ s.tokens) : (t.start = s.stopBehind (t :: ts)) ↔ t.isAdjacent = true := by
  obtain ⟨front, hfront⟩ := h
  rw [hs.stopBehind_append front hfront.symm, hs.placed front t ts hfront.symm, String.utf8ByteSize_append, Token.isAdjacent,
    String.isEmpty_iff, ← String.utf8ByteSize_eq_zero_iff]
  omega

theorem slice_token (ht : t ∈ s.tokens) : slice? source t.start t.stop = some t.text := by
  obtain ⟨before, after, hsplit⟩ := List.append_of_mem ht
  have hsource : source = (writtenOut before ++ t.gap) ++ t.text ++ (writtenOut after ++ s.tail) := by
    rw [← hs.whole, TokenStream.source, hsplit, List.map_append, List.map_cons, String.join_append, String.join_cons]
    simp only [writtenOut, String.append_assoc]
  rw [Token.stop, hs.placed _ _ _ hsplit]
  exact slice?_eq hsource

/-- What stands in the source from a token on to the end of the one before `rest`. -/
theorem slice_between {us : List Token} (h : us <:+ s.tokens) (hrest : rest <:+ us) (hlt : rest.length < us.length) :
    slice? source (ahead source us 0).start (s.stopBehind rest) = some (verbatimBetween us rest) := by
  obtain ⟨lead, hlead⟩ := h
  obtain ⟨_ | ⟨t, middle⟩, rfl⟩ := hrest
  · exact absurd hlt (Nat.lt_irrefl _)
  have hlength : ((t :: middle) ++ rest).length - rest.length = (t :: middle).length := by
    rw [List.length_append, Nat.add_sub_cancel_right]
  have hverbatim := verbatim_eq t middle
  have hsource : source = (writtenOut lead ++ t.gap) ++ Token.verbatim (t :: middle) ++ (writtenOut rest ++ s.tail) := by
    rw [← hs.whole, TokenStream.source, ← hlead, List.map_append, List.map_append, String.join_append,
      String.join_append, hverbatim]
    simp only [writtenOut, String.append_assoc]
  have hstop : s.stopBehind rest = (writtenOut lead ++ t.gap).utf8ByteSize + (Token.verbatim (t :: middle)).utf8ByteSize := by
    rw [hs.stopBehind_append (lead ++ t :: middle) (by simp [← hlead]), writtenOut, List.map_append, String.join_append,
      hverbatim]
    simp only [writtenOut, String.utf8ByteSize_append]
    omega
  rw [verbatimBetween, hlength, List.take_left, hstop, List.cons_append, ahead_zero]
  change slice? source t.start _ = _
  rw [hs.placed lead t (middle ++ rest) hlead.symm]
  exact slice?_eq hsource

theorem inSource_token (ht : t ∈ s.tokens) : InSource source ⟨t.start, t.stop - t.start⟩ := by
  have h := hs.boundaries t ht
  rwa [InSource, Nat.add_sub_cancel' (Nat.le_of_lt (hs.nonempty t ht))]

end TokenStream.Lossless

theorem inSource_end (source : String) : InSource source ⟨source.utf8ByteSize, 0⟩ :=
  ⟨String.Pos.Raw.isValid_rawEndPos, String.Pos.Raw.isValid_rawEndPos⟩

/-! ## Readers of tokens -/

/-- The reader of a source does what is done with the tokens that are left: it gives the same and leaves the same, or refuses the
source for the same. -/
def Tracks {source : String} {α : Type} {n : Nat} (s : TokenStream) (x : Reader source α) (ts : List Token) :
    Except Fault (Parsed α n) → Prop
  | .ok p => p.rest <:+ ts ∧ x.Ends (s.index ts) (.ok (p.value, s.index p.rest))
  | .error f => x.Ends (s.index ts) (.error (f.toError s.size))

namespace Tracks

variable {source : String} {s : TokenStream} {α β : Type} {m n : Nat} {t : Token} {ts rest : List Token}
variable {x : Reader source α} {k : α → Reader source β} {y : Except Fault (Parsed α m)} {z : Except Fault (Parsed β n)}

theorem done (a : α) (h : ts.length < n) : Tracks s (pure a : Reader source α) ts (.ok (⟨a, ts, h⟩ : Parsed α n)) :=
  ⟨List.suffix_refl ts, .pure a _⟩

/-- What comes after a value. -/
theorem step {a : α} (hx : x.Ends (s.index ts) (.ok (a, s.index rest))) (hrest : rest <:+ ts) (hk : Tracks s (k a) rest z) :
    Tracks s (x >>= k) ts z := by
  cases z with
  | ok p => exact ⟨hk.1.trans hrest, (Reader.Ends.bind_iff hx).mpr hk.2⟩
  | error f =>
    have hk : (k a).Ends (s.index rest) (.error (f.toError s.size)) := hk
    exact (Reader.Ends.bind_iff hx).mpr hk

theorem after {a : α} {h : rest.length < m} (hx : Tracks s x ts (.ok (⟨a, rest, h⟩ : Parsed α m)))
    (hk : rest <:+ ts → Tracks s (k a) rest z) : Tracks s (x >>= k) ts z := step hx.2 hx.1 (hk hx.1)

theorem bind {f : Parsed α m → Except Fault (Parsed β n)} (hx : Tracks s x ts y)
    (hk : ∀ a rest h, y = .ok ⟨a, rest, h⟩ → rest <:+ ts → Tracks s (k a) rest (f ⟨a, rest, h⟩)) :
    Tracks s (x >>= k) ts (y >>= f) := by
  cases y with
  | ok p => exact step hx.2 hx.1 (hk p.value p.rest p.rest_lt rfl hx.1)
  | error e => exact Reader.Ends.bind_error hx k

theorem of_ok_bind {x : Reader source β} {p : Parsed α m} {f : Parsed α m → Except Fault (Parsed β n)}
    (h : Tracks s x ts (f p)) : Tracks s x ts (.ok p >>= f) := h

/-- The same with another bound. -/
theorem relabel {f : Parsed α m → Except Fault (Parsed α n)} (hf : ∀ p, ∃ h, f p = .ok ⟨p.value, p.rest, h⟩)
    (hx : Tracks s x ts y) : Tracks s x ts (y >>= f) := by
  cases y with
  | ok p =>
    obtain ⟨_, hp⟩ := hf p
    refine of_ok_bind ?_
    rw [hp]
    exact hx
  | error e => exact hx

/-- A reader with the same outcomes does the same. -/
theorem of_ends_iff {x' : Reader source α} (hx : Tracks s x ts y) (h : ∀ r, x'.Ends (s.index ts) r ↔ x.Ends (s.index ts) r) :
    Tracks s x' ts y := by
  cases y with
  | ok p => exact ⟨hx.1, (h _).mpr hx.2⟩
  | error f =>
    have hx : x.Ends (s.index ts) (.error (f.toError s.size)) := hx
    exact (h _).mpr hx

/-! ### Tokens -/

theorem ends_tokenAt (hts : ts <:+ s.tokens) (n : Nat) :
    ((s.spans source).tokenAt n : Reader source TokenSpan).Ends (s.index ts) (.ok (ahead source ts n, s.index ts)) := by
  rw [TokenSpans.tokenAt, TokenStream.length_spans, Reader.Ends.bind_iff (.less _), Reader.Ends.bind_iff (.get _),
    TokenStream.spans_ahead hts]
  exact .pure _ _

theorem peek {k : TokenSpan → Reader source β} (hts : ts <:+ s.tokens) {n : Nat} (hk : Tracks s (k (ahead source ts n)) ts z) :
    Tracks s ((s.spans source).tokenAt n >>= k) ts z := step (ends_tokenAt hts n) (List.suffix_refl ts) hk

theorem ends_advance (hts : t :: ts <:+ s.tokens) :
    ((s.spans source).advance : Reader source TokenSpan).Ends (s.index (t :: ts)) (.ok (t.bounds, s.index ts)) := by
  rw [TokenSpans.advance, Reader.Ends.bind_iff (ends_tokenAt hts 0), ahead_zero, isEnd_bounds, if_neg Bool.false_ne_true,
    Reader.Ends.bind_iff (.modify _ _), TokenStream.index_cons hts]
  exact .pure _ _

theorem ends_advance_nil : ((s.spans source).advance : Reader source TokenSpan).Ends (s.index [])
    (.ok (Reader.endBounds source, s.index [])) := by
  rw [TokenSpans.advance, Reader.Ends.bind_iff (ends_tokenAt List.nil_suffix 0), ahead_nil, isEnd_endBounds, if_pos rfl]
  exact .pure _ _

theorem advance {k : TokenSpan → Reader source β} (hts : t :: ts <:+ s.tokens) (hk : Tracks s (k t.bounds) ts z) :
    Tracks s ((s.spans source).advance >>= k) (t :: ts) z := step (ends_advance hts) (List.suffix_cons t ts) hk

theorem ends_tokenBefore (hts : ts <:+ s.tokens) :
    ((s.spans source).tokenBefore : Reader source (Option TokenSpan)).Ends (s.index ts)
      (.ok ((s.behind ts).map Token.bounds, s.index ts)) := by
  obtain ⟨front, hfront⟩ := hts
  rw [TokenSpans.tokenBefore, Reader.Ends.bind_iff (.get _), TokenStream.behind_append front hfront.symm,
    TokenStream.index_append front hfront.symm]
  obtain rfl | ⟨before, t, rfl⟩ := List.eq_nil_or_concat' front
  · exact .pure _ _
  · have hspans : (s.spans source)[(before ++ [t]).length - 1]? = some t.bounds := by
      simp [TokenStream.spans, ← hfront]
    rw [if_neg (by simp), hspans, List.getLast?_concat]
    exact .pure _ _

theorem ends_endBefore (hts : ts <:+ s.tokens) : ((s.spans source).endBefore : Reader source Nat).Ends (s.index ts)
    (.ok (s.stopBehind ts, s.index ts)) := by
  rw [TokenSpans.endBefore, Reader.Ends.bind_iff (ends_tokenBefore hts), TokenStream.stopBehind, Option.map_map]
  exact .pure _ _

theorem ends_refuse (hs : s.Lossless source) (ht : t ∈ s.tokens) (cause : Cause) (pos : Nat) :
    (Reader.refuse cause t.start t.stop : Reader source α).Ends pos (.error (Fault.toError s.size ⟨cause, some t⟩)) := by
  have hends := Reader.Ends.refuse (α := α) (Nat.le_of_lt (hs.nonempty t ht)) (hs.inSource_token ht) cause pos
  rwa [Token.stop, Nat.add_sub_cancel_left] at hends

theorem refuseAt (hs : s.Lossless source) (ht : t ∈ s.tokens) (cause : Cause) :
    Tracks s (Reader.refuse cause t.start t.stop : Reader source α) ts (.error ⟨cause, some t⟩ : Except Fault (Parsed α n)) :=
  ends_refuse hs ht cause _

theorem ends_refuse_end (hs : s.Lossless source) (cause : Cause) (pos : Nat) :
    (Reader.refuse cause (Reader.endBounds source).start (Reader.endBounds source).stop : Reader source α).Ends pos
      (.error (Fault.toError s.size ⟨cause, none⟩)) := by
  have hends := Reader.Ends.refuse (α := α) (Nat.le_refl source.utf8ByteSize) (by rw [Nat.sub_self]; exact inSource_end source)
    cause pos
  rw [Nat.sub_self] at hends
  rw [Fault.toError, hs.size]
  exact hends

theorem refuseAtEnd (hs : s.Lossless source) (cause : Cause) :
    Tracks s (Reader.refuse cause (Reader.endBounds source).start (Reader.endBounds source).stop : Reader source α) ts
      (.error ⟨cause, none⟩ : Except Fault (Parsed α n)) := ends_refuse_end hs cause _

theorem ends_textOf (hs : s.Lossless source) (ht : t ∈ s.tokens) (pos : Nat) :
    (Reader.textOf t.bounds : Reader source String).Ends pos (.ok (t.text, pos)) := .slice (hs.slice_token ht) pos

theorem text {k : String → Reader source β} (hs : s.Lossless source) (ht : t ∈ s.tokens) (hk : Tracks s (k t.text) ts z) :
    Tracks s (Reader.textOf t.bounds >>= k) ts z := step (ends_textOf hs ht _) (List.suffix_refl ts) hk

theorem ends_textFrom (hs : s.Lossless source) {us : List Token} (hus : us <:+ s.tokens) (hrest : rest <:+ us)
    (hlt : rest.length < us.length) : ((s.spans source).textFrom (ahead source us 0).start : Reader source String).Ends
      (s.index rest) (.ok (verbatimBetween us rest, s.index rest)) := by
  rw [TokenSpans.textFrom, Reader.Ends.bind_iff (ends_endBefore (hrest.trans hus))]
  exact .slice (hs.slice_between hus hrest hlt) _

theorem ends_nameAt (hs : s.Lossless source) (hts : ts <:+ s.tokens) (n : Nat) :
    ((s.spans source).nameAt n : Reader source (Option String)).Ends (s.index ts)
      (.ok ((ts[n]?.filter Token.isName).map Token.text, s.index ts)) := by
  rw [TokenSpans.nameAt, Reader.Ends.bind_iff (ends_tokenAt hts n), ahead]
  cases ht : ts[n]? with
  | none => exact .pure _ _
  | some t =>
    rw [Option.map_some, Option.getD_some, isName_bounds, Option.filter_some]
    split
    next =>
      have hmem := hts.subset (List.mem_of_getElem? ht)
      rw [Reader.Ends.bind_iff (ends_textOf hs hmem _)]
      exact .pure _ _
    next => exact .pure _ _

theorem name {k : Option String → Reader source β} (hs : s.Lossless source) (hts : ts <:+ s.tokens) {n : Nat}
    (hk : Tracks s (k ((ts[n]?.filter Token.isName).map Token.text)) ts z) :
    Tracks s ((s.spans source).nameAt n >>= k) ts z := step (ends_nameAt hs hts n) (List.suffix_refl ts) hk

theorem word {k : Bool → Reader source β} (hs : s.Lossless source) (hts : ts <:+ s.tokens) {w : String}
    (hk : Tracks s (k (ts.head?.any (Token.isWord w))) ts z) : Tracks s ((s.spans source).atWord w >>= k) ts z := by
  rw [TokenSpans.atWord, bind_assoc]
  refine .name hs hts ?_
  rw [nameText_beq, ← List.head?_eq_getElem?, pure_bind]
  exact hk

/-! ### Marks and names -/

theorem eat (source : String) (hts : ts <:+ s.tokens) (c : Char) :
    Tracks s ((s.spans source).eat c : Reader source Bool) ts (.ok (takeMark c ts)) := by
  refine .peek hts ?_
  cases ts with
  | nil => exact .done _ _
  | cons t ts =>
    rw [ahead_zero, isMark_bounds, takeMark]
    split
    · exact .advance hts (.done _ _)
    · exact .done _ _

theorem eat_next {k : Bool → Reader source β} {c : Char} (hts : t :: ts <:+ s.tokens) (h : t.isMark c = true)
    (hk : Tracks s (k true) ts z) : Tracks s ((s.spans source).eat c >>= k) (t :: ts) z := by
  have hmark := eat source hts c
  rw [takeMark, if_pos h] at hmark
  exact .after hmark fun _ => hk

theorem eat_none {k : Bool → Reader source β} {c : Char} (hts : t :: ts <:+ s.tokens) (h : ¬t.isMark c = true)
    (hk : Tracks s (k false) (t :: ts) z) : Tracks s ((s.spans source).eat c >>= k) (t :: ts) z := by
  have hmark := eat source hts c
  rw [takeMark, if_neg h] at hmark
  exact .after hmark fun _ => hk

section

variable (hs : s.Lossless source) (hts : ts <:+ s.tokens)
include hs hts

theorem eatWord (word : String) :
    Tracks s ((s.spans source).eatWord word : Reader source Bool) ts (.ok (takeWord word ts)) := by
  refine .word hs hts ?_
  cases ts with
  | nil => exact .done _ _
  | cons t ts =>
    rw [List.head?_cons, Option.any_some, takeWord]
    split
    · exact .advance hts (.done _ _)
    · exact .done _ _

theorem expect (role : MarkRole) :
    Tracks s ((s.spans source).expect role : Reader source Unit) ts (expectMark role ts) := by
  rw [TokenSpans.expect]
  cases ts with
  | nil => exact .after (eat source hts role.mark) fun _ => .peek hts (.refuseAtEnd hs _)
  | cons t ts =>
    rw [expectMark]
    split
    next h => exact .eat_next hts h (.done _ _)
    next h => exact .eat_none hts h (.peek hts (.refuseAt hs (hts.subset List.mem_cons_self) _))

theorem expectName (role : NameRole) :
    Tracks s ((s.spans source).expectName role : Reader source String) ts (simpleName role ts) := by
  rw [TokenSpans.expectName]
  refine .peek hts ?_
  cases ts with
  | nil => exact .refuseAtEnd hs _
  | cons t ts =>
    have ht := hts.subset List.mem_cons_self
    rw [ahead_zero, isName_bounds, simpleName]
    split
    · exact .advance hts ⟨List.suffix_refl ts, ends_textOf hs ht _⟩
    · exact .refuseAt hs ht _

end

/-! ### Groups -/

/-- Closing groups, in the positions of the reader. -/
theorem ends_closeAll (hs : s.Lossless source) (opened ts : List Token) (hopened : ∀ o ∈ opened, o ∈ s.tokens)
    (hts : ts <:+ s.tokens) : ((s.spans source).closeAll (opened.map Token.bounds) : Reader source Unit).Ends (s.index ts)
      ((fun rest => ((), s.index rest)) <$> (closeGroup opened ts).mapError (Fault.toError s.size)) := by
  fun_induction closeGroup opened ts with
  | case1 ts =>
    rw [List.map_nil, TokenSpans.closeAll]
    exact .pure _ _
  | case2 top up =>
    have htop := hopened top List.mem_cons_self
    rw [List.map_cons, TokenSpans.closeAll, Reader.Ends.bind_iff ends_advance_nil]
    change Reader.Ends (Reader.textOf top.bounds >>= _) _ _
    rw [Reader.Ends.bind_iff (ends_textOf hs htop _)]
    exact ends_refuse hs htop _ _
  | case3 top up t ts hopens ih =>
    have hsuffix := (List.suffix_cons t ts).trans hts
    rw [List.map_cons, TokenSpans.closeAll, Reader.Ends.bind_iff (ends_advance hts), opens_bounds, if_pos hopens]
    exact ih (List.forall_mem_cons.mpr ⟨hts.subset List.mem_cons_self, hopened⟩) hsuffix
  | case4 top up t ts hopens hclosing ih =>
    have hsuffix := (List.suffix_cons t ts).trans hts
    rw [List.map_cons, TokenSpans.closeAll, Reader.Ends.bind_iff (ends_advance hts), opens_bounds, if_neg hopens, closing?_bounds,
      hclosing]
    exact ih hopened hsuffix
  | case5 top up t ts hopens expected hclosing ih =>
    have hsuffix := (List.suffix_cons t ts).trans hts
    rw [List.map_cons, TokenSpans.closeAll, Reader.Ends.bind_iff (ends_advance hts), opens_bounds, if_neg hopens, closing?_bounds,
      hclosing, closer_bounds]
    simp only [expected, ↓reduceIte]
    exact ih (List.forall_mem_cons.mp hopened).2 hsuffix
  | case6 top up t ts hopens c hclosing expected hne =>
    rw [List.map_cons, TokenSpans.closeAll, Reader.Ends.bind_iff (ends_advance hts), opens_bounds, if_neg hopens, closing?_bounds,
      hclosing, closer_bounds]
    simp only [expected] at hne
    simp only [hne, ↓reduceIte]
    exact ends_refuse hs (hts.subset List.mem_cons_self) _ _

section

variable (hs : s.Lossless source) (hts : t :: ts <:+ s.tokens)
include hs hts

theorem eatWord_next {k : Bool → Reader source β} {word : String} (h : t.isWord word = true)
    (hk : Tracks s (k true) ts z) : Tracks s ((s.spans source).eatWord word >>= k) (t :: ts) z := by
  have hword := eatWord hs hts word
  rw [takeWord, if_pos h] at hword
  exact .after hword fun _ => hk

theorem eatWord_none {k : Bool → Reader source β} {word : String} (h : ¬t.isWord word = true)
    (hk : Tracks s (k false) (t :: ts) z) : Tracks s ((s.spans source).eatWord word >>= k) (t :: ts) z := by
  have hword := eatWord hs hts word
  rw [takeWord, if_neg h] at hword
  exact .after hword fun _ => hk

theorem skipBalanced : Tracks s ((s.spans source).skipBalanced : Reader source Unit) (t :: ts) (skipGroup t ts) := by
  have hends := ends_closeAll hs [t] ts (by simpa using hts.subset List.mem_cons_self) ((List.suffix_cons t ts).trans hts)
  rw [TokenSpans.skipBalanced]
  refine .advance hts ?_
  rw [skipGroup]
  split
  next rest hclose =>
    rw [hclose] at hends
    exact ⟨closeGroup_suffix hclose, hends⟩
  next f hclose =>
    rw [hclose] at hends
    exact hends

theorem captureBalanced : Tracks s ((s.spans source).captureBalanced : Reader source String) (t :: ts)
    ((skipGroup t ts).map fun p => p.map fun _ => verbatimBetween (t :: ts) p.rest) := by
  have hskip := skipBalanced hs hts
  rw [TokenSpans.captureBalanced]
  refine .peek hts ?_
  cases hgroup : skipGroup t ts with
  | error f =>
    rw [hgroup] at hskip
    exact Reader.Ends.bind_error hskip _
  | ok p =>
    have hrest := (skipGroup_suffix hgroup).trans (List.suffix_cons t ts)
    rw [hgroup] at hskip
    exact .after hskip fun _ => ⟨List.suffix_refl _, ends_textFrom hs hts hrest p.rest_lt⟩

theorem skipNext : Tracks s ((s.spans source).skipNext : Reader source Unit) (t :: ts) (skipOne t ts) := by
  have ht := hts.subset List.mem_cons_self
  rw [TokenSpans.skipNext]
  refine .peek hts ?_
  rw [ahead_zero, opens_bounds, isMark_bounds, isMark_bounds, skipOne]
  split_ifs
  · exact skipBalanced hs hts
  · exact .refuseAt hs ht _
  · exact .refuseAt hs ht _
  · exact .advance hts (.done _ _)

end

/-! ### Names -/

section

variable (hs : s.Lossless source)
include hs

theorem moreNames (segments : String) (ts : List Token) (hts : ts <:+ s.tokens) :
    Tracks s ((s.spans source).moreNames segments : Reader source String) ts (.ok (moreSegments segments ts)) := by
  rw [TokenSpans.moreNames]
  refine .peek hts (.peek hts ?_)
  cases ts with
  | nil => exact .done _ _
  | cons dot us =>
    cases us with
    | nil =>
      rw [ahead_succ, ahead_nil, isName_endBounds, Bool.and_false, if_neg Bool.false_ne_true, moreSegments]
      · exact .done _ _
      · simp
    | cons t ts =>
      have hsuffix := (List.suffix_cons dot _).trans hts
      rw [ahead_zero, ahead_succ, ahead_zero, isMark_bounds, isName_bounds, moreSegments]
      split
      · refine .advance hts (.advance hsuffix (.text hs (hsuffix.subset List.mem_cons_self) ?_))
        exact moreNames _ ts ((List.suffix_cons t ts).trans hsuffix)
      · exact .done _ _

theorem dotted (role : NameRole) (hts : ts <:+ s.tokens) :
    Tracks s ((s.spans source).dotted role : Reader source String) ts (dottedName role ts) := by
  have hname := expectName hs hts role
  rw [TokenSpans.dotted]
  cases ts with
  | nil => exact Reader.Ends.bind_error hname _
  | cons t ts =>
    rw [simpleName] at hname
    rw [dottedName]
    split
    next h =>
      rw [if_pos h] at hname
      exact .after hname fun _ => moreNames hs _ _ ((List.suffix_cons t ts).trans hts)
    next h =>
      rw [if_neg h] at hname
      exact Reader.Ends.bind_error hname _

end

end Tracks

/-! ## The token behind -/

/-- A group ends with a closing bracket. -/
theorem closeGroup_ends {opener : Token} {up ts rest : List Token} (h : closeGroup (opener :: up) ts = .ok rest) :
    ∃ front closer, ts = front ++ closer :: rest ∧ closer.closing?.isSome := by
  generalize hopened : opener :: up = opened at h
  fun_induction closeGroup opened ts generalizing opener up with
  | case1 => cases hopened
  | case2 => cases h
  | case3 top up' t ts _ ih =>
    obtain ⟨front, closer, hts, hcloser⟩ := ih rfl h
    exact ⟨t :: front, closer, congrArg (t :: ·) hts, hcloser⟩
  | case4 top up' t ts _ _ ih =>
    obtain ⟨front, closer, hts, hcloser⟩ := ih rfl h
    exact ⟨t :: front, closer, congrArg (t :: ·) hts, hcloser⟩
  | case5 top up' t ts _ c hclosing =>
    rename_i ih
    cases up' with
    | nil =>
      rw [closeGroup] at h
      cases h
      exact ⟨[], t, rfl, by rw [hclosing]; rfl⟩
    | cons =>
      obtain ⟨front, closer, hts, hcloser⟩ := ih rfl h
      exact ⟨t :: front, closer, congrArg (t :: ·) hts, hcloser⟩
  | case6 => cases h

theorem Token.not_isName_of_isBracket {t : Token} (h : t.isBracket = true) : t.isName = false ∧ t.isMark ':' = false := by
  constructor
  · by_contra hname
    rw [isBracket_of_isName (Bool.of_not_eq_false hname)] at h
    cases h
  · by_contra hmark
    rw [isBracket_of_isMark (Bool.of_not_eq_false hmark) (by decide)] at h
    cases h

/-- Behind what is skipped stands a token that is a name, or a colon, just when the first one skipped is. -/
theorem behind_of_skipOne {s : TokenStream} {t : Token} {ts rest : List Token} {h} (hts : t :: ts <:+ s.tokens)
    (hskip : skipOne t ts = .ok ⟨(), rest, h⟩) :
    ∃ u, s.behind rest = some u ∧ u.isName = t.isName ∧ u.isMark ':' = t.isMark ':' := by
  rw [skipOne] at hskip
  split at hskip
  next hopens =>
    rw [skipGroup] at hskip
    split at hskip
    next hclose =>
      cases hskip
      obtain ⟨front, closer, rfl, hcloser⟩ := closeGroup_ends hclose
      have hbehind : s.behind rest = some closer :=
        TokenStream.behind_cons (((List.suffix_append front _).trans (List.suffix_cons t _)).trans hts)
      obtain ⟨hname, hcolon⟩ := Token.not_isName_of_isBracket (t := t) (by rw [Token.isBracket, hopens, Bool.true_or])
      obtain ⟨hname', hcolon'⟩ := Token.not_isName_of_isBracket (t := closer) (by rw [Token.isBracket, hcloser, Bool.or_true])
      exact ⟨closer, hbehind, by rw [hname, hname'], by rw [hcolon, hcolon']⟩
    next => cases hskip
  next =>
    split_ifs at hskip
    cases hskip
    exact ⟨t, TokenStream.behind_cons hts, rfl, rfl⟩

end Counterpart.Kotlin
