/-
Reading tokens, and skipping bracketed groups. What a reader leaves carries a bound on its length, so that
loops over readers end. `closeGroup` follows the open brackets on a stack; `closeGroup_suffix` says that what it
leaves is an end of what it was given.
-/
import Counterpart.Kotlin.Token

namespace Counterpart.Kotlin

/-- Why tokens cannot be read, and the token that shows it; none stands for the end of the source. -/
structure Fault where
  cause : Cause
  token : Option Token
deriving DecidableEq, Repr

/-- The fault in the source positions; `size` is where the source ends. -/
def Fault.toError (size : Nat) (f : Fault) : SyntaxError :=
  ⟨f.cause, match f.token with | some t => t.span | none => ⟨size, 0⟩⟩

/-- What was read, and the tokens left: fewer than `bound`. -/
structure Parsed (α : Type) (bound : Nat) where
  value : α
  rest : List Token
  rest_lt : rest.length < bound

namespace Parsed

variable {α β : Type} {m n : Nat}

/-- The same under a weaker bound. -/
def widen (h : m ≤ n) (p : Parsed α m) : Parsed α n :=
  ⟨p.value, p.rest, Nat.lt_of_lt_of_le p.rest_lt h⟩

def map (f : α → β) (p : Parsed α n) : Parsed β n :=
  ⟨f p.value, p.rest, p.rest_lt⟩

/-- Nothing read. -/
def keep (value : α) (ts : List Token) : Parsed α (ts.length + 1) :=
  ⟨value, ts, Nat.lt_succ_self _⟩

/-- The token `t` read. -/
def taken (value : α) (t : Token) (ts : List Token) : Parsed α ((t :: ts).length + 1) :=
  ⟨value, ts, Nat.lt_succ_of_lt (Nat.lt_succ_self ts.length)⟩

/-- The same reading of tokens with `t` before them. -/
def past (t : Token) {ts : List Token} (p : Parsed α (ts.length + 1)) : Parsed α ((t :: ts).length + 1) :=
  p.widen (Nat.le_succ (ts.length + 1))

end Parsed

/-- Whether the mark `c` comes next; it is taken if so. -/
def takeMark (c : Char) (ts : List Token) : Parsed Bool (ts.length + 1) :=
  match ts with
  | t :: ts => if t.isMark c then .taken true t ts else .keep false (t :: ts)
  | [] => .keep false []

/-- Whether the word comes next; it is taken if so. -/
def takeWord (word : String) (ts : List Token) : Parsed Bool (ts.length + 1) :=
  match ts with
  | t :: ts => if t.isWord word then .taken true t ts else .keep false (t :: ts)
  | [] => .keep false []

/-- Whether the mark `c` comes next. -/
def atMark (c : Char) (ts : List Token) : Bool :=
  ts.head?.any (Token.isMark c)

/-! ## Groups -/

/-- The tokens after the brackets of `opened` are closed, innermost first, and with them every group opened on
the way. -/
def closeGroup : (opened : List Token) → List Token → Except Fault (List Token)
  | [], ts => .ok ts
  | top :: _, [] => .error ⟨.unclosed top.text, some top⟩
  | top :: up, t :: ts =>
    if t.closer?.isSome then closeGroup (t :: top :: up) ts
    else match t.closing? with
      | none => closeGroup (top :: up) ts
      | some c =>
        let expected := top.closer?.getD '\x7d'
        if c = expected then closeGroup up ts else .error ⟨.mismatched c expected, some t⟩

theorem closeGroup_suffix {opened ts rest : List Token} (h : closeGroup opened ts = .ok rest) : rest <:+ ts := by
  fun_induction closeGroup opened ts with
  | case1 ts => cases h; exact List.suffix_refl _
  | case2 => simp at h
  | case3 top up t ts _ ih => exact (ih h).trans (List.suffix_cons t ts)
  | case4 top up t ts _ _ ih => exact (ih h).trans (List.suffix_cons t ts)
  | case5 top up t ts _ _ _ ih => exact (ih h).trans (List.suffix_cons t ts)
  | case6 => simp at h

/-- The tokens after the group that `opener` opens. -/
def skipGroup (opener : Token) (ts : List Token) : Except Fault (Parsed Unit (ts.length + 1)) :=
  match h : closeGroup [opener] ts with
  | .ok rest => .ok ⟨(), rest, Nat.lt_succ_of_le (closeGroup_suffix h).length_le⟩
  | .error e => .error e

/-- The tokens after the one at the front, or after the whole group that it opens. -/
def skipOne (t : Token) (ts : List Token) : Except Fault (Parsed Unit (ts.length + 1)) :=
  if t.closer?.isSome then skipGroup t ts
  else if t.isMark ')' then .error ⟨.unexpected ')', some t⟩
  else if t.isMark ']' then .error ⟨.unexpected ']', some t⟩
  else .ok (.keep () ts)

end Counterpart.Kotlin
