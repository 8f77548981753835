/-
Numbers, dates and times of TOML. Nothing reads their values, so these are only tests: `isNumber` asks for the form
alone, whatever the size of the number, while `isDateTime` also asks for a day and a time that exist.
-/
import Counterpart.Toml.Quoted

namespace Counterpart.Toml

/-! ## Digits -/

def isHexDigit (c : Char) : Bool := (hexValue? c).isSome

/-- A digit, or an underscore between digits. -/
def isFigure (c : Char) : Bool := c.isDigit || c == '_'

/-- Whether a digit stands behind every underscore, and before it too; `after` tells whether one may come first. -/
def underscoresFit (isDigit : Char → Bool) : (after : Bool) → List Char → Bool
  | _, [] => true
  | after, c :: cs =>
    if c = '_' then after && cs.head?.any isDigit && underscoresFit isDigit false cs
    else underscoresFit isDigit (isDigit c) cs

/-! ## Numbers

A sign may be followed by an underscore, so the tests are told whether there was a sign. -/

/-- Digits of a base other than ten, after the letter that names it; there may be none. -/
def isRadixNumber (isDigit : Char → Bool) (cs : List Char) : Bool :=
  cs.all (fun c => isDigit c || c == '_') && underscoresFit isDigit false cs

/-- A number without fraction and exponent. From its first underscore on it is not looked at closely: a letter that
is a hexadecimal digit can follow an underscore, and whatever is no blank can follow that. -/
def isInteger (signed : Bool) (cs : List Char) : Bool :=
  cs == ['0'] ||
    (cs.head? != some '0' && [none, some '_'].contains (cs.dropWhile Char.isDigit).head?
      && !cs.isEmpty && cs.all (fun c => c != ' ' && c != '\t') && underscoresFit isHexDigit signed cs)

/-- What follows digits, of which there must be one. -/
def afterDigits? (cs : List Char) : Option (List Char) :=
  if (cs.takeWhile isFigure).any Char.isDigit then some (cs.dropWhile isFigure) else none

/-- What follows the fraction, if there is one. -/
def afterFraction? : List Char → Option (List Char)
  | '.' :: cs => afterDigits? cs
  | cs => some cs

/-- What follows the exponent, if there is one. -/
def afterExponent? : List Char → Option (List Char)
  | [] => some []
  | c :: cs =>
    if c = 'e' ∨ c = 'E' then afterDigits? (if cs.head? = some '+' ∨ cs.head? = some '-' then cs.tail else cs)
    else some (c :: cs)

/-- Whether a zero stands before other digits. -/
def hasLeadingZero (cs : List Char) : Bool :=
  cs.head? == some '0' && 1 < ((cs.takeWhile isFigure).filter Char.isDigit).length

/-- A number with a fraction, an exponent, or both. -/
def isFloat (signed : Bool) (cs : List Char) : Bool :=
  ((afterDigits? cs).bind afterFraction?).bind afterExponent? == some []
    && !hasLeadingZero cs && underscoresFit Char.isDigit signed cs

/-- A number after its sign. -/
def isUnsignedNumber (signed : Bool) (cs : List Char) : Bool :=
  match cs with
  | '0' :: 'x' :: digits => !signed && isRadixNumber isHexDigit digits
  | '0' :: 'o' :: digits => !signed && isRadixNumber (fun c => '0' ≤ c && c ≤ '7') digits
  | '0' :: 'b' :: digits => !signed && isRadixNumber (fun c => c == '0' || c == '1') digits
  | _ =>
    [['i', 'n', 'f'], ['n', 'a', 'n']].contains cs
      || if (cs.dropWhile Char.isDigit).any fun c => c == '.' || c == 'e' || c == 'E' then isFloat signed cs
        else isInteger signed cs

/-- Whether a text has the form of a number. -/
def isNumber : List Char → Bool
  | [] => false
  | c :: cs => if c = '+' ∨ c = '-' then isUnsignedNumber true cs else isUnsignedNumber false (c :: cs)

/-! ## Dates and times -/

/-- The number that the next `width` digits give, and what follows them. -/
def figures? (width : Nat) (cs : List Char) : Option (Nat × List Char) :=
  let digits := cs.take width
  if digits.length = width && digits.all Char.isDigit then
    some (digits.foldl (fun n c => 10 * n + (c.toNat - 48)) 0, cs.drop width)
  else none

/-- What follows the character `c`. -/
def after? (c : Char) : List Char → Option (List Char)
  | [] => none
  | d :: cs => if d = c then some cs else none

/-- The days of a month. -/
def daysIn (year month : Nat) : Nat :=
  if month = 2 then if year % 4 = 0 && (year % 100 != 0 || year % 400 = 0) then 29 else 28
  else if [4, 6, 9, 11].contains month then 30 else 31

/-- What follows a date. -/
def afterDate? (cs : List Char) : Option (List Char) := do
  let (year, cs) ← figures? 4 cs
  let (month, cs) ← figures? 2 (← after? '-' cs)
  let (day, cs) ← figures? 2 (← after? '-' cs)
  if 1 ≤ month && month ≤ 12 && 1 ≤ day && day ≤ daysIn year month then some cs else none

/-- What follows an hour and a minute. -/
def afterMinutes? (cs : List Char) : Option (List Char) := do
  let (hour, cs) ← figures? 2 cs
  let (minute, cs) ← figures? 2 (← after? ':' cs)
  if hour < 24 && minute < 60 then some cs else none

/-- What follows the seconds, if there are some; a second can be inserted at the end of a minute. -/
def afterSeconds? : List Char → Option (List Char)
  | ':' :: cs => do
    let (second, cs) ← figures? 2 cs
    if second ≤ 60 then
      match cs with
      | '.' :: cs => if cs.head?.any Char.isDigit then some (cs.dropWhile Char.isDigit) else none
      | cs => some cs
    else none
  | cs => some cs

def afterTime? (cs : List Char) : Option (List Char) := (afterMinutes? cs).bind afterSeconds?

/-- What follows the distance to the mean time, if it is given. -/
def afterOffset? : List Char → Option (List Char)
  | [] => some []
  | c :: cs =>
    if c = 'Z' ∨ c = 'z' then some cs
    else if c = '+' ∨ c = '-' then afterMinutes? cs
    else some (c :: cs)

/-- Whether a text is a date, a time, or a date with a time. -/
def isDateTime (cs : List Char) : Bool :=
  afterTime? cs == some [] ||
    match afterDate? cs with
    | none => false
    | some [] => true
    | some (c :: cs) => ['T', 't', ' '].contains c && (afterTime? cs).bind afterOffset? == some []

end Counterpart.Toml
