/-
Quoted strings of TOML, on one line or in a block between triple quotes. A string is cut out first and decoded then.
`extent_length` and `blockExtent_length` say that one takes up at least its closing quotes.
-/
import Counterpart.Text.Split

namespace Counterpart.Toml

/-- What may stand in strings and comments: no control character but the tab. -/
def isPrintable (c : Char) : Bool :=
  c == '\t' || (32 ≤ c.toNat && c.toNat != 127)

/-! ## Extent -/

/-- A text cut after the quote that ends a string on one line. -/
def extent (quote : Char) (escapes : Bool) : List Char → Option (List Char × List Char)
  | [] => none
  | c :: cs =>
    if c = quote then some ([], cs)
    else if c = '\n' then none
    else if escapes && c = '\\' then
      match cs with
      | [] => none
      | d :: cs => if d = '\n' then none else (extent quote escapes cs).map fun r => (c :: d :: r.1, r.2)
    else (extent quote escapes cs).map fun r => (c :: r.1, r.2)

/-- A text cut after the three quotes that end a string. One or two more quotes before them belong to the string. -/
def blockExtent (quote : Char) (escapes : Bool) : List Char → Option (List Char × List Char)
  | [] => none
  | c :: cs =>
    if c = quote && cs.take 2 == [quote, quote] then
      let more := ((cs.drop 2).take 2).takeWhile (· == quote)
      some (more, cs.drop (2 + more.length))
    else if escapes && c = '\\' then
      match cs with
      | [] => none
      | d :: cs => (blockExtent quote escapes cs).map fun r => (c :: d :: r.1, r.2)
    else (blockExtent quote escapes cs).map fun r => (c :: r.1, r.2)

theorem extent_length {quote : Char} {escapes : Bool} {cs : List Char} {r : List Char × List Char}
    (h : extent quote escapes cs = some r) : r.2.length < cs.length := by
  fun_induction extent quote escapes cs generalizing r with
  | case1 => simp at h
  | case2 => cases h; simp
  | case3 => simp at h
  | case4 => simp at h
  | case5 => simp at h
  | case6 c d cs _ _ _ _ ih =>
    obtain ⟨s, hs, rfl⟩ := Option.map_eq_some_iff.1 h
    have := ih hs
    simp only [List.length_cons]
    omega
  | case7 c cs _ _ _ ih =>
    obtain ⟨s, hs, rfl⟩ := Option.map_eq_some_iff.1 h
    have := ih hs
    simp only [List.length_cons]
    omega

theorem blockExtent_length {quote : Char} {escapes : Bool} {cs : List Char} {r : List Char × List Char}
    (h : blockExtent quote escapes cs = some r) : r.2.length < cs.length := by
  fun_induction blockExtent quote escapes cs generalizing r with
  | case1 => simp at h
  | case2 cs _ _ =>
    cases h
    simp only [List.length_drop, List.length_cons]
    omega
  | case3 => simp at h
  | case4 c d cs _ _ ih =>
    obtain ⟨s, hs, rfl⟩ := Option.map_eq_some_iff.1 h
    have := ih hs
    simp only [List.length_cons]
    omega
  | case5 c cs _ _ ih =>
    obtain ⟨s, hs, rfl⟩ := Option.map_eq_some_iff.1 h
    have := ih hs
    simp only [List.length_cons]
    omega

/-! ## Value -/

/-- The value of a hexadecimal digit. -/
def hexValue? (c : Char) : Option Nat :=
  if c.isDigit then some (c.toNat - 48)
  else if 'a' ≤ c ∧ c ≤ 'f' then some (c.toNat - 87)
  else if 'A' ≤ c ∧ c ≤ 'F' then some (c.toNat - 55)
  else none

/-- The character whose code point the digits give. -/
def codePoint? (digits : List Char) : Option Char := do
  let values ← digits.mapM hexValue?
  let n := values.foldl (fun n v => 16 * n + v) 0
  if n < 0xD800 ∨ (0xDFFF < n ∧ n < 0x110000) then some (Char.ofNat n) else none

/-- The character that a letter after a backslash stands for. -/
def escaped? : Char → Option Char
  | 'b' => some '\x08'
  | 't' => some '\t'
  | 'n' => some '\n'
  | 'f' => some '\x0c'
  | 'r' => some '\r'
  | 'e' => some '\x1b'
  | '"' => some '"'
  | '\\' => some '\\'
  | _ => none

/-- What a backslash at the end of a line leaves: everything from the next character that is no blank and no line
break. -/
def skipLines : List Char → List Char
  | [] => []
  | '\r' :: '\n' :: cs => skipLines cs
  | c :: cs => if c = ' ' ∨ c = '\t' ∨ c = '\n' then skipLines cs else c :: cs

theorem length_skipLines (cs : List Char) : (skipLines cs).length ≤ cs.length := by
  fun_induction skipLines cs with
  | case1 => exact Nat.le_refl _
  | case2 cs ih => simp only [List.length_cons]; omega
  | case3 c cs _ _ ih => exact Nat.le_succ_of_le ih
  | case4 => exact Nat.le_refl _

/-- Whether only blanks stand before the next line break. -/
def endsLine (cs : List Char) : Bool :=
  match cs.dropWhile fun c => c == ' ' || c == '\t' with
  | '\n' :: _ => true
  | '\r' :: '\n' :: _ => true
  | _ => false

/-- The value of a string that is written with escapes. -/
def unescape : List Char → Option (List Char)
  | [] => some []
  | '\\' :: 'u' :: a :: b :: c :: d :: cs => do return (← codePoint? [a, b, c, d]) :: (← unescape cs)
  | '\\' :: 'U' :: a :: b :: c :: d :: e :: f :: g :: h :: cs => do
    return (← codePoint? [a, b, c, d, e, f, g, h]) :: (← unescape cs)
  | '\\' :: 'x' :: a :: b :: cs => do return (← codePoint? [a, b]) :: (← unescape cs)
  | '\\' :: cs =>
    if endsLine cs then unescape (skipLines cs)
    else match cs with
      | [] => none
      | c :: cs => do return (← escaped? c) :: (← unescape cs)
  | '\r' :: '\n' :: cs => (unescape cs).map ('\r' :: '\n' :: ·)
  | c :: cs => if isPrintable c || c = '\n' then (unescape cs).map (c :: ·) else none
termination_by cs => cs.length
decreasing_by
  · simp only [List.length_cons]; omega
  · simp only [List.length_cons]; omega
  · simp only [List.length_cons]; omega
  · exact Nat.lt_succ_of_le (length_skipLines _)
  · simp only [List.length_cons]; omega
  · simp only [List.length_cons]; omega
  · exact Nat.lt_succ_self _

/-- The value of a string that is written as it is: a line break keeps its form. -/
def literal : List Char → Option (List Char)
  | [] => some []
  | '\r' :: '\n' :: cs => (literal cs).map ('\r' :: '\n' :: ·)
  | c :: cs => if isPrintable c || c = '\n' then (literal cs).map (c :: ·) else none

/-- The value of a string with the given quotes. -/
def decode (quote : Char) (raw : List Char) : Option String :=
  (if quote = '"' then unescape raw else literal raw).map String.ofList

/-! ## Both -/

/-- A text without a line break at its start. -/
def dropBreak : List Char → List Char
  | '\n' :: cs => cs
  | '\r' :: '\n' :: cs => cs
  | cs => cs

theorem length_dropBreak (cs : List Char) : (dropBreak cs).length ≤ cs.length := by
  fun_cases dropBreak cs with
  | case1 cs => exact Nat.le_succ _
  | case2 cs => simp only [List.length_cons]; omega
  | case3 => exact Nat.le_refl _

/-- A string after its first quote: whether it is a block, its text, and what follows. -/
def stringAfter (quote : Char) (cs : List Char) : Option (Bool × List Char × List Char) :=
  if cs.take 2 == [quote, quote] then
    (blockExtent quote (quote == '"') (dropBreak (cs.drop 2))).map fun r => (true, r)
  else (extent quote (quote == '"') cs).map fun r => (false, r)

theorem stringAfter_length {quote : Char} {cs : List Char} {r : Bool × List Char × List Char}
    (h : stringAfter quote cs = some r) : r.2.2.length < cs.length + 1 := by
  unfold stringAfter at h
  split at h
  · obtain ⟨s, hs, rfl⟩ := Option.map_eq_some_iff.1 h
    have h₁ := blockExtent_length hs
    have h₂ := length_dropBreak (cs.drop 2)
    have h₃ : (cs.drop 2).length ≤ cs.length := by simp
    change s.2.length < cs.length + 1
    omega
  · obtain ⟨s, hs, rfl⟩ := Option.map_eq_some_iff.1 h
    exact Nat.lt_succ_of_lt (extent_length hs)

end Counterpart.Toml
