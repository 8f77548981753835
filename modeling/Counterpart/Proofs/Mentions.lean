/-
Mentions of a name in a text. The search passes over the characters of an occurrence that does not stand alone; this loses nothing
when all characters of the name go on with a name (`mentions_iff`), and in general no occurrence that starts outside of others
(`mentions_of_alone`).
-/
import Counterpart.Code.File
import Counterpart.Proofs.Lexemes

namespace Counterpart.Code

open Kotlin Text

/-- Whether a character before a name leaves the name free. -/
def FreeBehind (before : Option Char) : Prop := ∀ c ∈ before, continuesName c = false ∧ c ≠ '.'

/-- Whether a character behind a name leaves the name free. -/
def FreeAhead (after : Option Char) : Prop := ∀ c ∈ after, continuesName c = false

theorem standsAlone_iff {before after : Option Char} : standsAlone before after = true ↔ FreeBehind before ∧ FreeAhead after := by
  cases before <;> cases after <;> simp [standsAlone, FreeBehind, FreeAhead]

/-- A name stands alone between `u` and `v`. -/
def StandsAlone (u v : List Char) : Prop := FreeBehind u.getLast? ∧ FreeAhead v.head?

/-! ## The search -/

theorem or_getLast?_cons (c : Char) (u : List Char) (before : Option Char) :
    (c :: u).getLast?.or before = u.getLast?.or (some c) := by
  rw [List.getLast?_cons]
  cases u.getLast? <;> rfl

theorem exists_of_mentionedFrom {name cs : List Char} {skip : Nat} {before : Option Char}
    (h : mentionedFrom name skip before cs = true) :
    ∃ u v, cs = u ++ name ++ v ∧ FreeBehind (u.getLast?.or before) ∧ FreeAhead v.head? := by
  have hcons {c : Char} {cs : List Char} (before : Option Char)
      (ih : ∃ u v, cs = u ++ name ++ v ∧ FreeBehind (u.getLast?.or (some c)) ∧ FreeAhead v.head?) :
      ∃ u v, c :: cs = u ++ name ++ v ∧ FreeBehind (u.getLast?.or before) ∧ FreeAhead v.head? := by
    obtain ⟨u, v, rfl, hfree⟩ := ih
    exact ⟨c :: u, v, rfl, by rwa [or_getLast?_cons]⟩
  fun_induction mentionedFrom name skip before cs
  case case1 skip before =>
    rw [Bool.and_eq_true, Bool.and_eq_true, List.isEmpty_iff, standsAlone_iff] at h
    exact ⟨[], [], by rw [h.1.2]; rfl, h.2⟩
  case case2 ih => exact hcons _ (ih h)
  case case3 before c cs hstart ih =>
    rw [Bool.or_eq_true, standsAlone_iff] at h
    rcases h with hfree | h
    · obtain ⟨v, hv⟩ := List.isPrefixOf_iff_prefix.mp hstart
      rw [← hv, List.drop_left] at hfree
      exact ⟨[], v, hv.symm, hfree⟩
    · exact hcons before (ih h)
  case case4 ih => exact hcons _ (ih h)

/-- Whether an occurrence of the name that starts in `u` can reach into one that stands behind `u`. -/
def Overlaps (name u : List Char) : Prop := ∃ p q, name = p ++ q ∧ p ≠ [] ∧ q ≠ [] ∧ p <:+ u ∧ q <+: name

theorem Overlaps.cons {name u : List Char} (c : Char) (h : Overlaps name u) : Overlaps name (c :: u) := by
  obtain ⟨p, q, hname, hp, hq, hsuffix, hstart⟩ := h
  exact ⟨p, q, hname, hp, hq, hsuffix.trans (List.suffix_cons c u), hstart⟩

/-- An occurrence that starts at the beginning of `u` and does not end in it. -/
theorem overlaps_of_reaches {name u v : List Char} (hu : u ≠ []) (hlength : u.length < name.length)
    (hstart : name <+: u ++ name ++ v) : Overlaps name u := by
  rw [List.append_assoc] at hstart
  obtain ⟨q, rfl⟩ := List.prefix_of_prefix_length_le (List.prefix_append u _) hstart hlength.le
  rw [List.prefix_append_right_inj] at hstart
  have hq : q <+: u ++ q := List.prefix_of_prefix_length_le hstart (List.prefix_append _ v) (by simp)
  exact ⟨u, q, rfl, hu, by rintro rfl; simp at hlength, List.suffix_refl u, hq⟩

theorem mentionedFrom_of_alone {name u v : List Char} {skip : Nat} {before : Option Char} (hskip : skip ≤ u.length)
    (hapart : ¬ Overlaps name u) (hbehind : FreeBehind (u.getLast?.or before)) (hahead : FreeAhead v.head?) :
    mentionedFrom name skip before (u ++ name ++ v) = true := by
  induction u generalizing skip before with
  | nil =>
    obtain rfl : skip = 0 := Nat.le_zero.mp hskip
    have halone : standsAlone before v.head? = true := standsAlone_iff.mpr ⟨hbehind, hahead⟩
    rw [List.nil_append]
    cases hcs : name ++ v with
    | nil =>
      obtain ⟨rfl, rfl⟩ := List.append_eq_nil_iff.mp hcs
      exact halone
    | cons c cs =>
      rw [mentionedFrom, ← hcs, if_pos (List.isPrefixOf_iff_prefix.mpr (List.prefix_append _ v)), List.drop_left, halone]
      rfl
  | cons c u ih =>
    rw [or_getLast?_cons] at hbehind
    have hrest {skip : Nat} (hskip : skip ≤ u.length) : mentionedFrom name skip (some c) (u ++ name ++ v) = true :=
      ih hskip (fun h => hapart (h.cons c)) hbehind
    rw [List.cons_append, List.cons_append]
    cases skip with
    | succ skip => exact hrest (Nat.le_of_succ_le_succ hskip)
    | zero =>
      rw [mentionedFrom]
      split
      next hstart =>
        have hlength : name.length ≤ (c :: u).length := by
          by_contra hlength
          exact hapart (overlaps_of_reaches (List.cons_ne_nil c u) (not_le.mp hlength)
            (List.isPrefixOf_iff_prefix.mp hstart))
        rw [Bool.or_eq_true]
        exact .inr (hrest (by rw [List.length_cons] at hlength; omega))
      next => exact hrest (Nat.zero_le _)

/-! ## Mentions -/

theorem exists_of_mentions {text name : String} (h : mentions text name = true) :
    ∃ u v, text.toList = u ++ name.toList ++ v ∧ StandsAlone u v := by
  obtain ⟨u, v, htext, hbehind, hahead⟩ := exists_of_mentionedFrom h
  rw [Option.or_none] at hbehind
  exact ⟨u, v, htext, hbehind, hahead⟩

/-- An occurrence that stands alone is found unless the name overlaps itself there. -/
theorem mentions_of_alone {text name : String} {u v : List Char} (htext : text.toList = u ++ name.toList ++ v)
    (hapart : ¬ Overlaps name.toList u) (halone : StandsAlone u v) : mentions text name = true := by
  rw [mentions, htext]
  exact mentionedFrom_of_alone (Nat.zero_le _) hapart (by rw [Option.or_none]; exact halone.1) halone.2

/-- Where a name of characters of names stands alone, it does not overlap itself. -/
theorem not_overlaps {name u : List Char} (hname : ∀ c ∈ name, isNameChar c) (h : FreeBehind u.getLast?) : ¬ Overlaps name u := by
  rintro ⟨p, q, rfl, hp, -, ⟨front, rfl⟩, -⟩
  have hlast : p.getLast hp ∈ (front ++ p).getLast? := by
    rw [List.getLast?_append, List.getLast?_eq_some_getLast hp]
    rfl
  have := (h _ hlast).1
  simp [continuesName, hname _ (List.mem_append_left q (List.getLast_mem hp))] at this

theorem mentions_iff {text name : String} (hplain : Name.isPlain name) :
    mentions text name = true ↔ ∃ u v, text.toList = u ++ name.toList ++ v ∧ StandsAlone u v :=
  ⟨exists_of_mentions, fun ⟨_, _, htext, halone⟩ =>
    mentions_of_alone htext (not_overlaps (isNameChar_of_isPlain hplain) halone.1) halone⟩

end Counterpart.Code
