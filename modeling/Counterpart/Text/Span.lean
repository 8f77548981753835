/-
Stretches of a text.
-/
namespace Counterpart.Text

/-- A stretch of a text: byte offset and length. -/
structure Span where
  offset : Nat
  length : Nat
deriving DecidableEq, Repr

end Counterpart.Text
