/-
Readers with checks. A `Reader` moves a position through a source. Whatever could leave the source or a list, or take a count
below zero, is checked first, and a check that fails stops the reader (`Stop.broken`), which no source does for a reason of its
own. A reader that does not come to an end has no outcome. `Reader.Ends` is what is proved of them: an outcome, and no check
fails.
-/
import Counterpart.Proofs.JoinedSources

namespace Counterpart.Kotlin

open Text

/-! ## Offsets -/

/-- The characters from a byte offset on; none beyond the end and inside a character. -/
def charsFrom? : (offset : Nat) → List Char → Option (List Char)
  | 0, cs => some cs
  | _ + 1, [] => none
  | n + 1, c :: cs => if c.utf8Size ≤ n + 1 then charsFrom? (n + 1 - c.utf8Size) cs else none

theorem charsFrom?_byteSize (front cs : List Char) : charsFrom? (byteSize front) (front ++ cs) = some cs := by
  induction front with
  | nil => cases cs <;> rfl
  | cons c front ih =>
    have hsize := c.utf8Size_pos
    obtain ⟨n, hn⟩ := Nat.exists_eq_add_one_of_ne_zero (Nat.ne_of_gt (Nat.add_pos_left hsize (byteSize front)))
    have hrest : n + 1 - c.utf8Size = byteSize front := by omega
    rw [byteSize, hn, List.cons_append, charsFrom?, if_pos (by omega), hrest, ih]

/-- An offset that characters are found at is the size of what is in front of them. -/
theorem charsFrom?_eq_some {offset : Nat} {cs rest : List Char} (h : charsFrom? offset cs = some rest) :
    ∃ front, cs = front ++ rest ∧ byteSize front = offset := by
  induction cs generalizing offset with
  | nil =>
    cases offset with
    | zero =>
      cases h
      exact ⟨[], rfl, rfl⟩
    | succ n => cases h
  | cons c cs ih =>
    cases offset with
    | zero =>
      cases h
      exact ⟨[], rfl, rfl⟩
    | succ n =>
      rw [charsFrom?] at h
      split at h
      · obtain ⟨front, hcs, hsize⟩ := ih h
        refine ⟨c :: front, by rw [hcs]; rfl, ?_⟩
        rw [byteSize]
        omega
      · cases h

/-- The characters between two offsets; none when one of them is no boundary, or when they are the wrong way round. -/
def slice? (source : String) (start stop : Nat) : Option String := do
  let front ← charsFrom? start source.toList
  let rest ← charsFrom? stop source.toList
  if start ≤ stop then some (String.ofList (front.take (front.length - rest.length))) else none

theorem slice?_eq {source lead middle rest : String} (h : source = lead ++ middle ++ rest) :
    slice? source lead.utf8ByteSize (lead.utf8ByteSize + middle.utf8ByteSize) = some middle := by
  have hsize : ∀ s : String, s.utf8ByteSize = byteSize s.toList := fun s => by rw [byteSize_eq, String.ofList_toList]
  have hfront : charsFrom? lead.utf8ByteSize source.toList = some (middle.toList ++ rest.toList) := by
    rw [h, String.toList_append, String.toList_append, List.append_assoc, hsize]
    exact charsFrom?_byteSize _ _
  have hrest : charsFrom? (lead.utf8ByteSize + middle.utf8ByteSize) source.toList = some rest.toList := by
    rw [h, String.toList_append, String.toList_append, hsize, hsize, ← Lexer.byteSize_append]
    exact charsFrom?_byteSize _ _
  rw [slice?, hfront, hrest]
  simp

/-- Both ends of the stretch are boundaries of the source. -/
def InSource (source : String) (s : Span) : Prop :=
  String.Pos.Raw.IsValid source ⟨s.offset⟩ ∧ String.Pos.Raw.IsValid source ⟨s.offset + s.length⟩

instance (source : String) (s : Span) : Decidable (InSource source s) := inferInstanceAs (Decidable (_ ∧ _))

/-- The characters `cs` are the end of the source from this offset on. -/
def At (source : String) (pos : Nat) (cs : List Char) : Prop := charsFrom? pos source.toList = some cs

section At

variable {source : String} {pos : Nat} {cs : List Char}

theorem At.start (source : String) : At source 0 source.toList := charsFrom?_byteSize [] _

theorem At.drop (h : At source pos cs) (n : Nat) : At source (pos + byteSize (cs.take n)) (cs.drop n) := by
  obtain ⟨front, hsource, rfl⟩ := charsFrom?_eq_some h
  have hsplit : front ++ cs = (front ++ cs.take n) ++ cs.drop n := by rw [List.append_assoc, List.take_append_drop]
  rw [At, hsource, ← Lexer.byteSize_append, hsplit]
  exact charsFrom?_byteSize _ _

theorem At.drop_append {front : List Char} (h : At source pos (front ++ cs)) : At source (pos + byteSize front) cs := by
  have h := h.drop front.length
  rwa [List.take_left, List.drop_left] at h

theorem At.next {c : Char} (h : At source pos (c :: cs)) : At source (pos + c.utf8Size) cs := h.drop 1

theorem At.isValid (h : At source pos cs) : String.Pos.Raw.IsValid source ⟨pos⟩ := by
  obtain ⟨front, hsource, rfl⟩ := charsFrom?_eq_some h
  refine String.Pos.Raw.isValid_iff_exists_append.mpr ⟨String.ofList front, String.ofList cs, ?_, ?_⟩
  · rw [← String.ofList_append, ← hsource, String.ofList_toList]
  · rw [byteSize_eq]
    rfl

theorem At.size (h : At source pos cs) : source.utf8ByteSize = pos + byteSize cs := by
  obtain ⟨front, hsource, rfl⟩ := charsFrom?_eq_some h
  rw [← Lexer.byteSize_append, ← hsource, byteSize_eq, String.ofList_toList]

/-- From one place in the source to a later one. -/
theorem At.inSource {ds : List Char} {length : Nat} (h : At source pos cs) (h' : At source (pos + length) ds) :
    InSource source ⟨pos, length⟩ := ⟨h.isValid, h'.isValid⟩

end At

/-! ## Readers -/

/-- What is checked: that a stretch of the source, an index or the place of an error is there, and that a count stays above
zero. -/
inductive Check
  | slice
  | index
  | span
  | count

/-- Why a reader of a source stops: the source is refused, and what shows why is in it; or a check fails. -/
inductive Stop (source : String)
  | refused (error : SyntaxError) (inside : InSource source error.span)
  | broken (check : Check)

/-- A reader of a source: from a position to a value and the next position, if it comes to an end. -/
abbrev Reader (source : String) : Type → Type := StateT Nat (ExceptT (Stop source) Option)

namespace Reader

variable {source : String} {α β : Type}

/-- One less than a count. -/
def less : Nat → Reader source Nat
  | 0 => throw (.broken .count)
  | n + 1 => return n

/-- The text between two offsets. -/
def slice (start stop : Nat) : Reader source String :=
  match slice? source start stop with
  | some s => return s
  | none => throw (.broken .slice)

example : ((slice 0 1 : Reader "é" String).run 0).run = some (.error (.broken .slice)) := rfl

/-- Refuses the source for what stands between two offsets. -/
def refuse (cause : Cause) (start stop : Nat) : Reader source α :=
  if h : start ≤ stop ∧ InSource source ⟨start, stop - start⟩ then throw (.refused ⟨cause, ⟨start, stop - start⟩⟩ h.2)
  else throw (.broken .span)

/-! ## Outcomes -/

/-- The reader comes to an end, without a check that fails: with a value at a position, or because it refuses the source. -/
def Ends (x : Reader source α) (pos : Nat) : Except SyntaxError (α × Nat) → Prop
  | .ok r => (x.run pos).run = some (.ok r)
  | .error e => ∃ h, (x.run pos).run = some (.error (.refused e h))

variable {x : Reader source α} {f : α → Reader source β} {pos pos' : Nat} {a : α}

theorem Ends.pure (a : α) (pos : Nat) : Ends (Pure.pure a : Reader source α) pos (.ok (a, pos)) := rfl

theorem Ends.get (pos : Nat) : Ends (MonadState.get : Reader source Nat) pos (.ok (pos, pos)) := rfl

theorem Ends.modify (g : Nat → Nat) (pos : Nat) : Ends (modify g : Reader source Unit) pos (.ok ((), g pos)) := rfl

theorem Ends.set (n pos : Nat) : Ends (MonadStateOf.set n : Reader source Unit) pos (.ok ((), n)) := rfl

/-- What comes after a value goes on from there. -/
theorem Ends.bind_iff (h : Ends x pos (.ok (a, pos'))) {r : Except SyntaxError (β × Nat)} :
    Ends (x >>= f) pos r ↔ Ends (f a) pos' r := by
  have hrun : ((x >>= f).run pos).run = ((f a).run pos').run := by
    have h : (x.run pos).run = some (.ok (a, pos')) := h
    simp [StateT.run_bind, ExceptT.run_bind, h]
  cases r <;> rw [Ends, Ends, hrun]

/-- Nothing comes after a source is refused. -/
theorem Ends.bind_error {e : SyntaxError} (h : Ends x pos (.error e)) (f : α → Reader source β) :
    Ends (x >>= f) pos (.error e) := by
  obtain ⟨hinside, h⟩ := h
  refine ⟨hinside, ?_⟩
  simp [StateT.run_bind, ExceptT.run_bind, h]

theorem Ends.less {n : Nat} (pos : Nat) : Ends (less (n + 1) : Reader source Nat) pos (.ok (n, pos)) := rfl

theorem Ends.slice {start stop : Nat} {s : String} (h : slice? source start stop = some s) (pos : Nat) :
    Ends (slice start stop : Reader source String) pos (.ok (s, pos)) := by
  rw [Reader.slice, h]
  exact .pure s pos

theorem Ends.refuse {start stop : Nat} (hle : start ≤ stop) (h : InSource source ⟨start, stop - start⟩) (cause : Cause)
    (pos : Nat) : Ends (refuse cause start stop : Reader source α) pos (.error ⟨cause, ⟨start, stop - start⟩⟩) := by
  rw [Reader.refuse, dif_pos ⟨hle, h⟩]
  exact ⟨h, rfl⟩

end Reader

end Counterpart.Kotlin
