/-
Groups that are skipped. Tokens with nested brackets close nothing that is open before them (`closeGroup_nested`), so a group is
skipped up to its own bracket.
-/
import Counterpart.Proofs.MovedTokens
import Counterpart.Proofs.Nesting

namespace Counterpart.Kotlin

variable {t opener closer : Token} {c d : Char} {body : List Token}

theorem closer?_of_closing? (h : t.closing? = some c) : t.closer? = none := by
  rw [Token.closer?, Token.kind_of_closing? h]
  unfold Token.closing? at h
  split at h <;> cases h <;> rfl

theorem Token.not_isBracket_iff : t.isBracket = false ↔ t.closer? = none ∧ t.closing? = none := by
  rw [isBracket, Bool.or_eq_false_iff, Option.isSome_eq_false_iff, Option.isSome_eq_false_iff, Option.isNone_iff_eq_none,
    Option.isNone_iff_eq_none]

theorem not_isName_of_closer? (h : t.closer? = some c) : t.isName = false := by
  obtain ⟨hkind, -⟩ | ⟨hkind, -⟩ | ⟨hkind, -⟩ := Token.kind_of_closer? h <;> rw [Token.isName, hkind] <;> rfl

theorem isMark_of_closer? (h : t.closer? = some c) (hd : d ∉ ['(', '[', '\x7b']) : t.isMark d = false := by
  rw [← Bool.not_eq_true]
  intro hmark
  simp only [List.mem_cons, List.not_mem_nil, or_false, not_or] at hd
  obtain ⟨hkind, -⟩ | ⟨hkind, -⟩ | ⟨hkind, -⟩ := Token.kind_of_closer? h <;>
    · rw [kind_of_isMark hmark] at hkind
      simp_all

theorem isMark_of_closing? (h : t.closing? = some c) : t.isMark c = true := by
  rw [Token.isMark, Token.kind_of_closing? h, beq_self_eq_true]

theorem isMark_eq_false (h : t.isMark c = true) (hd : d ≠ c) : t.isMark d = false := by
  simpa [Token.isMark, kind_of_isMark h] using hd.symm

theorem closer?_paren (h : t.isMark '(' = true) : t.closer? = some ')' := by
  simp only [Token.closer?, kind_of_isMark h]

theorem closing?_paren (h : t.isMark ')' = true) : t.closing? = some ')' := by
  simp only [Token.closing?, kind_of_isMark h]

theorem closeGroup_nested (h : Nested body) (top : Token) (up ts : List Token) :
    closeGroup (top :: up) (body ++ ts) = closeGroup (top :: up) ts := by
  induction h generalizing top up ts with
  | nil => rfl
  | plain ht _ ih =>
    obtain ⟨hcloser, hclosing⟩ := Token.not_isBracket_iff.mp ht
    rw [List.cons_append, closeGroup, if_neg (by simp [hcloser]), hclosing]
    exact ih top up ts
  | group hopener _ hcloser _ ihbody ih =>
    rw [List.cons_append, closeGroup, if_pos (by simp [hopener]), List.append_assoc, ihbody, List.cons_append, closeGroup,
      if_neg (by simp [closer?_of_closing? hcloser]), hcloser, hopener]
    simp only [Option.getD_some, if_true]
    exact ih top up ts

theorem skipGroup_nested (hopener : opener.closer? = some c) (hbody : Nested body) (hcloser : closer.closing? = some c)
    (ts : List Token) : ∃ h, skipGroup opener (body ++ closer :: ts) = .ok ⟨(), ts, h⟩ := by
  have hclose : closeGroup [opener] (body ++ closer :: ts) = .ok ts := by
    rw [closeGroup_nested hbody, closeGroup, if_neg (by simp [closer?_of_closing? hcloser]), hcloser, hopener]
    simp [closeGroup]
  obtain ⟨⟨_, us, hlt⟩, hskip, hrest⟩ := exists_skipGroup hclose
  obtain rfl : us = ts := hrest
  exact ⟨hlt, hskip⟩

theorem reading_skipOne_nested (hopener : opener.closer? = some c) (hbody : Nested body) (hcloser : closer.closing? = some c)
    (ts : List Token) : reading (skipOne opener (body ++ closer :: ts)) = .ok ((), ts) := by
  rw [skipOne, if_pos (by simp [hopener])]
  exact reading_ok_iff.mpr (skipGroup_nested hopener hbody hcloser ts)

theorem isMark_of_not_isBracket (ht : t.isBracket = false) (hc : c ∈ ['(', '[', '\x7b', ')', ']', '\x7d']) :
    t.isMark c = false := by
  rw [← Bool.not_eq_true]
  intro hmark
  obtain ⟨hcloser, hclosing⟩ := Token.not_isBracket_iff.mp ht
  simp only [List.mem_cons, List.not_mem_nil, or_false] at hc
  obtain rfl | rfl | rfl | rfl | rfl | rfl := hc <;>
    simp [Token.closer?, Token.closing?, kind_of_isMark hmark] at hcloser hclosing

theorem reading_skipOne_plain (ht : t.isBracket = false) (ts : List Token) : reading (skipOne t ts) = .ok ((), ts) := by
  rw [skipOne, if_neg (by simp [(Token.not_isBracket_iff.mp ht).1]), if_neg (by simp [isMark_of_not_isBracket ht]),
    if_neg (by simp [isMark_of_not_isBracket ht])]
  rfl

end Counterpart.Kotlin
