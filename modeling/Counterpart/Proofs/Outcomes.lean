/-
What a computation that may fail came to. One of several steps that succeeds is taken apart into the successes of its steps
(`exists_of_bind_ok`, `exists_of_map_ok`), so that what a step does is said once and used by name; and a result that is evaluated
is one that was come to (`ok_of_toOption`).
-/

namespace Counterpart

variable {ε α β : Type}

theorem bind_eq_ok_iff {x : Except ε α} {f : α → Except ε β} {b : β} : x >>= f = .ok b ↔ ∃ a, x = .ok a ∧ f a = .ok b := by
  constructor
  · intro h
    cases x with
    | error e => cases h
    | ok a => exact ⟨a, rfl, h⟩
  · rintro ⟨a, rfl, h⟩
    exact h

theorem exists_of_bind_ok {x : Except ε α} {f : α → Except ε β} {b : β} (h : x >>= f = .ok b) : ∃ a, x = .ok a ∧ f a = .ok b :=
  bind_eq_ok_iff.mp h

theorem exists_of_map_ok {f : α → β} {x : Except ε α} {b : β} (h : f <$> x = .ok b) : ∃ a, x = .ok a ∧ f a = b := by
  cases x with
  | error e => cases h
  | ok a => exact ⟨a, rfl, Except.ok.inj h⟩

/-! ## Results that are evaluated -/

theorem ok_of_toOption {x : Except ε β} {b : β} (h : x.toOption = some b) : x = .ok b := by
  cases x with
  | error e => cases h
  | ok b' => cases h; rfl

theorem eq_ok_of_toOption {x : Unit × Except ε β} {b : β} (h : x.2.toOption = some b) : x = ((), .ok b) :=
  Prod.ext rfl (ok_of_toOption h)

theorem exists_of_isSome {x : α × Except ε β} (h : x.2.toOption.isSome = true) : ∃ a b, x = (a, .ok b) := by
  obtain ⟨b, hb⟩ := Option.isSome_iff_exists.mp h
  exact ⟨x.1, b, Prod.ext rfl (ok_of_toOption hb)⟩

end Counterpart
