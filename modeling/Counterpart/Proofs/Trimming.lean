/-
Blanks around a text. They add no words and are all that trimming takes away (`exists_trim`), so what is counted and looked for
among the other characters is the same in the trimmed text.
-/
import Counterpart.Proofs.Phrases

namespace Counterpart.Text

variable {l cs r : List Char}

/-! ## Words -/

theorem not_mem_of_blank (h : ∀ c ∈ cs, isBlank c) {c : Char} (hc : isBlank c = false) : c ∉ cs := by
  intro hmem
  rw [h c hmem] at hc
  cases hc

theorem words_append {c : Char} (hc : isBlank c) (w cs : List Char) :
    words (.ofList (w ++ c :: cs)) = words (.ofList w) ++ words (.ofList cs) := by
  rw [words, words, words, String.toList_ofList, String.toList_ofList, String.toList_ofList, Kotlin.splitBy_append hc,
    List.filter_append, List.map_append]

theorem words_cons {c : Char} (hc : isBlank c) (cs : List Char) : words (.ofList (c :: cs)) = words (.ofList cs) :=
  words_append hc [] cs

theorem words_blank (h : ∀ c ∈ cs, isBlank c) : words (.ofList cs) = [] := by
  induction cs with
  | nil => rfl
  | cons c cs ih => rw [words_cons (h c List.mem_cons_self), ih fun d hd => h d (List.mem_cons_of_mem c hd)]

theorem words_blank_append (hl : ∀ c ∈ l, isBlank c) (cs : List Char) : words (.ofList (l ++ cs)) = words (.ofList cs) := by
  induction l with
  | nil => rfl
  | cons c l ih =>
    rw [List.cons_append, words_cons (hl c List.mem_cons_self), ih fun d hd => hl d (List.mem_cons_of_mem c hd)]

theorem words_append_blank (hr : ∀ c ∈ r, isBlank c) (cs : List Char) : words (.ofList (cs ++ r)) = words (.ofList cs) := by
  cases r with
  | nil => rw [List.append_nil]
  | cons c r =>
    obtain ⟨hc, hr⟩ := List.forall_mem_cons.mp hr
    rw [words_append hc, words_blank hr, List.append_nil]

/-- The words of two texts of which the first ends with a blank. -/
theorem words_append_left (hl : ∀ c ∈ l.getLast?, isBlank c) (cs : List Char) :
    words (.ofList (l ++ cs)) = words (.ofList l) ++ words (.ofList cs) := by
  rcases List.eq_nil_or_concat l with rfl | ⟨front, c, rfl⟩
  · rfl
  have hc : isBlank c := hl c (by simp)
  rw [List.concat_eq_append, List.append_assoc, List.singleton_append, words_append hc, words_append hc]
  simp [words, splitBy]

/-- The words of two texts of which the second begins with a blank. -/
theorem words_append_right (hr : ∀ c ∈ r.head?, isBlank c) (cs : List Char) :
    words (.ofList (cs ++ r)) = words (.ofList cs) ++ words (.ofList r) := by
  cases r with
  | nil => simp [words, splitBy]
  | cons c r => rw [words_append (hr c rfl), words_cons (hr c rfl)]

theorem words_of_not_blank (hne : cs ≠ []) (h : ∀ c ∈ cs, isBlank c = false) : words (.ofList cs) = [.ofList cs] := by
  rw [words, String.toList_ofList, splitBy_of_forall_not h, List.filter_cons_of_pos (by simpa using hne)]
  rfl

/-! ## Trimmed texts -/

theorem trimStart_append (hl : ∀ c ∈ l, isBlank c) (cs : List Char) :
    trimStart isBlank (l ++ cs) = trimStart isBlank cs := by
  rw [trimStart, List.dropWhile_append_of_pos hl, trimStart]

theorem trimEnd_append (hr : ∀ c ∈ r, isBlank c) (cs : List Char) : trimEnd isBlank (cs ++ r) = trimEnd isBlank cs := by
  rw [trimEnd, List.reverse_append, List.dropWhile_append_of_pos fun c hc => hr c (List.mem_reverse.mp hc), trimEnd]

theorem trim_pad (hl : ∀ c ∈ l, isBlank c) (hr : ∀ c ∈ r, isBlank c) (cs : List Char) :
    trim (.ofList (l ++ cs ++ r)) = trim (.ofList cs) := by
  have hright : trimEnd isBlank (trimStart isBlank (cs ++ r)) = trimEnd isBlank (trimStart isBlank cs) := by
    rw [trimStart, List.dropWhile_append]
    split
    next hcs =>
      rw [List.isEmpty_iff] at hcs
      rw [List.dropWhile_eq_nil_iff.mpr hr, trimStart, hcs]
    next => exact trimEnd_append hr _
  rw [trim, trim, String.toList_ofList, String.toList_ofList, List.append_assoc, trimStart_append hl, hright]

theorem exists_trim (s : String) :
    ∃ l r, (∀ c ∈ l, isBlank c) ∧ (∀ c ∈ r, isBlank c) ∧ s.toList = l ++ (trim s).toList ++ r := by
  refine ⟨s.toList.takeWhile isBlank, ((s.toList.dropWhile isBlank).reverse.takeWhile isBlank).reverse, ?_, ?_, ?_⟩
  · exact fun c hc => List.mem_takeWhile_imp hc
  · exact fun c hc => List.mem_takeWhile_imp (List.mem_reverse.mp hc)
  · rw [trim, String.toList_ofList, trimEnd, trimStart, List.append_assoc, ← List.reverse_append,
      List.takeWhile_append_dropWhile, List.reverse_reverse, List.takeWhile_append_dropWhile]

theorem trim_eq {s : String} (hhead : ∀ c ∈ s.toList.head?, isBlank c = false)
    (hlast : ∀ c ∈ s.toList.getLast?, isBlank c = false) : trim s = s := by
  obtain ⟨l, r, hl, hr, hs⟩ := exists_trim s
  obtain rfl : l = [] := by
    cases l with
    | nil => rfl
    | cons c l =>
      have := hhead c (by rw [hs]; rfl)
      rw [hl c List.mem_cons_self] at this
      cases this
  obtain rfl : r = [] := by
    rcases List.eq_nil_or_concat r with rfl | ⟨front, c, rfl⟩
    · rfl
    · have := hlast c (by rw [hs]; simp)
      rw [hr c (by simp)] at this
      cases this
  rw [List.nil_append, List.append_nil] at hs
  exact (String.toList_injective hs).symm

theorem trim_trim (s : String) : trim (trim s) = trim s := by
  obtain ⟨l, r, hl, hr, hs⟩ := exists_trim s
  have := trim_pad hl hr (trim s).toList
  rw [← hs, String.ofList_toList, String.ofList_toList] at this
  exact this.symm

/-- Trimming leaves out blanks alone. -/
theorem count_trim {c : Char} (hc : isBlank c = false) (s : String) : (trim s).toList.count c = s.toList.count c := by
  obtain ⟨l, r, hl, hr, hs⟩ := exists_trim s
  have hnone {cs : List Char} (hcs : ∀ d ∈ cs, isBlank d) : cs.count c = 0 :=
    List.count_eq_zero_of_not_mem (not_mem_of_blank hcs hc)
  rw [hs, List.count_append, List.count_append, hnone hl, hnone hr, Nat.zero_add, Nat.add_zero]

theorem getLast?_trim {c : Char} (hc : isBlank c = false) {s : String} (h : s.toList.getLast? = some c) :
    (trim s).toList.getLast? = some c := by
  obtain ⟨l, r, hl, hr, hs⟩ := exists_trim s
  have hnone {cs : List Char} (hcs : ∀ d ∈ cs, isBlank d) : cs.getLast? ≠ some c :=
    fun hlast => not_mem_of_blank hcs hc (List.mem_of_getLast? hlast)
  rw [hs, List.getLast?_append, Option.or_eq_some_iff, List.getLast?_append, Option.or_eq_some_iff] at h
  rcases h with h | ⟨-, h | ⟨-, h⟩⟩
  · exact absurd h (hnone hr)
  · exact h
  · exact absurd h (hnone hl)

/-! ## One character at the end -/

theorem trimEnd_eq {c : Char} {cs : List Char} (h : cs.getLast? ≠ some c) : trimEnd (· == c) cs = cs := by
  rcases List.eq_nil_or_concat cs with rfl | ⟨front, d, rfl⟩
  · rfl
  have hd : ¬ (d == c) = true := by
    rw [beq_iff_eq]
    rintro rfl
    exact h (by simp)
  rw [trimEnd, List.concat_eq_append, List.reverse_append, List.reverse_singleton, List.singleton_append,
    List.dropWhile_cons_of_neg (p := (· == c)) hd, List.reverse_cons, List.reverse_reverse]

theorem trimEnd_concat (c : Char) (cs : List Char) : trimEnd (· == c) (cs ++ [c]) = trimEnd (· == c) cs := by
  rw [trimEnd, List.reverse_append, List.reverse_singleton, List.singleton_append, List.dropWhile_cons_of_pos (by simp), trimEnd]

theorem count_trimEnd_lt {c : Char} {cs : List Char} (h : cs.getLast? = some c) :
    (trimEnd (· == c) cs).count c < cs.count c := by
  obtain ⟨front, rfl⟩ : ∃ front, cs = front ++ [c] := by
    rcases List.eq_nil_or_concat cs with rfl | ⟨front, d, rfl⟩
    · cases h
    · rw [List.concat_eq_append, List.getLast?_concat, Option.some.injEq] at h
      exact ⟨front, by rw [h, List.concat_eq_append]⟩
  have hsub : (trimEnd (· == c) front).count c ≤ front.count c :=
    (((List.dropWhile_sublist _).reverse).trans (by rw [List.reverse_reverse])).count_le c
  rw [trimEnd_concat, List.count_append, List.count_singleton_self]
  omega

end Counterpart.Text
