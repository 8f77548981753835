/-
Cutting text apart: at every character of a kind, into words, at the ends. Cutting at a character and putting the
character back loses nothing (`split_join`); what was put together is cut into the same parts when the character is in
none of them (`split_join_iff`).
-/
import Counterpart.Text.CharClass

namespace Counterpart.Text

/-- The stretches between the characters that satisfy `p`; one more than there are such characters. -/
def splitBy (p : Char → Bool) : List Char → List (List Char)
  | [] => [[]]
  | c :: cs =>
    if p c then [] :: splitBy p cs
    else match splitBy p cs with
      | [] => [[c]]
      | w :: ws => (c :: w) :: ws

theorem splitBy_ne_nil (p : Char → Bool) (cs : List Char) : splitBy p cs ≠ [] := by
  cases cs with
  | nil => simp [splitBy]
  | cons c cs =>
    simp only [splitBy]
    split
    · simp
    · split <;> simp

/-- Stretches written one after the other with `sep` between them. -/
def joinBy (sep : List Char) : List (List Char) → List Char
  | [] => []
  | [w] => w
  | w :: ws => w ++ sep ++ joinBy sep ws

theorem split_join (sep : Char) (cs : List Char) : joinBy [sep] (splitBy (· == sep) cs) = cs := by
  induction cs with
  | nil => rfl
  | cons c cs ih =>
    simp only [splitBy]
    split
    · rename_i h
      obtain ⟨w, ws, e⟩ := List.exists_cons_of_ne_nil (splitBy_ne_nil (· == sep) cs)
      rw [e] at ih ⊢
      simp_all [joinBy]
    · obtain ⟨w, ws, e⟩ := List.exists_cons_of_ne_nil (splitBy_ne_nil (· == sep) cs)
      rw [e] at ih ⊢
      cases ws <;> simp_all [joinBy]

theorem splitBy_append_cons {p : Char → Bool} {w : List Char} {c : Char} (hw : ∀ d ∈ w, p d = false) (hc : p c = true)
    (cs : List Char) : splitBy p (w ++ c :: cs) = w :: splitBy p cs := by
  induction w with
  | nil => simp [splitBy, hc]
  | cons d w ih =>
    rw [List.cons_append, splitBy, hw d List.mem_cons_self, ih fun e he => hw e (List.mem_cons_of_mem d he)]
    rfl

theorem splitBy_of_forall_not {p : Char → Bool} {w : List Char} (hw : ∀ d ∈ w, p d = false) : splitBy p w = [w] := by
  induction w with
  | nil => rfl
  | cons d w ih =>
    rw [splitBy, hw d List.mem_cons_self, ih fun e he => hw e (List.mem_cons_of_mem d he)]
    rfl

theorem not_of_mem_splitBy {p : Char → Bool} {cs w : List Char} (h : w ∈ splitBy p cs) : ∀ d ∈ w, p d = false := by
  induction cs generalizing w with
  | nil => simp [splitBy] at h; simp [h]
  | cons c cs ih =>
    obtain ⟨v, vs, e⟩ := List.exists_cons_of_ne_nil (splitBy_ne_nil p cs)
    rw [e] at ih
    rw [splitBy, e] at h
    split at h
    · rcases List.mem_cons.mp h with rfl | h
      · simp
      · exact ih h
    next hc =>
      rcases List.mem_cons.mp h with rfl | h
      · simpa [hc] using ih List.mem_cons_self
      · exact ih (List.mem_cons_of_mem v h)

theorem splitBy_joinBy {sep : Char} {ws : List (List Char)} (hne : ws ≠ []) (h : ∀ w ∈ ws, sep ∉ w) :
    splitBy (· == sep) (joinBy [sep] ws) = ws := by
  have not_sep : ∀ w ∈ ws, ∀ d ∈ w, (d == sep) = false := by
    intro w hw d hd
    rw [beq_eq_false_iff_ne]
    rintro rfl
    exact h w hw hd
  induction ws with
  | nil => exact absurd rfl hne
  | cons w ws ih =>
    cases ws with
    | nil => exact splitBy_of_forall_not (not_sep w List.mem_cons_self)
    | cons v vs =>
      rw [joinBy, List.append_assoc, List.singleton_append,
        splitBy_append_cons (not_sep w List.mem_cons_self) (by simp)]
      · rw [ih (List.cons_ne_nil v vs) (fun u hu => h u (List.mem_cons_of_mem w hu))
          fun u hu => not_sep u (List.mem_cons_of_mem w hu)]
      · simp

/-- The parts of a text between the occurrences of `sep`. -/
def split (sep : Char) (s : String) : List String :=
  (splitBy (· == sep) s.toList).map String.ofList

theorem split_ne_nil (sep : Char) (s : String) : split sep s ≠ [] := by
  rw [split, Ne, List.map_eq_nil_iff]
  exact splitBy_ne_nil _ _

/-- Texts written one after the other with `sep` between them. -/
def join (sep : String) : List String → String
  | [] => ""
  | [s] => s
  | s :: ss => s ++ sep ++ join sep ss

theorem join_cons {sep s : String} {ss : List String} (h : ss ≠ []) : join sep (s :: ss) = s ++ sep ++ join sep ss := by
  cases ss with
  | nil => exact absurd rfl h
  | cons t ss => rfl

theorem join_append {sep : String} {ss ts : List String} (hs : ss ≠ []) (ht : ts ≠ []) :
    join sep (ss ++ ts) = join sep ss ++ sep ++ join sep ts := by
  induction ss with
  | nil => exact absurd rfl hs
  | cons s ss ih =>
    rw [List.cons_append, join_cons (List.append_ne_nil_of_right_ne_nil ss ht)]
    cases ss with
    | nil => rfl
    | cons s' ss =>
      rw [ih (List.cons_ne_nil s' ss), join_cons (List.cons_ne_nil s' ss)]
      simp only [String.append_assoc]

theorem join_append_ne {sep : String} {ss ts : List String} (hsep : 0 < sep.length) (hs : ss ≠ []) (ht : ts ≠ []) :
    join sep (ss ++ ts) ≠ join sep ts := by
  intro h
  have hlen := congrArg String.length h
  rw [join_append hs ht, String.length_append, String.length_append] at hlen
  omega

theorem toList_join (sep : String) (ss : List String) :
    (join sep ss).toList = joinBy sep.toList (ss.map String.toList) := by
  fun_induction join sep ss with
  | case1 => rfl
  | case2 s => rfl
  | case3 s ss hss ih =>
    obtain ⟨t, ts, rfl⟩ := List.exists_cons_of_ne_nil hss
    simp only [String.toList_append, ih, List.map_cons, joinBy]

theorem join_split (sep : Char) (s : String) : join (String.singleton sep) (split sep s) = s := by
  apply String.toList_injective
  rw [toList_join, String.toList_singleton, split, List.map_map]
  have : (String.toList ∘ String.ofList : List Char → List Char) = id := by
    funext cs
    exact String.toList_ofList
  rw [this, List.map_id, split_join]

/-- Cutting takes a joined text apart exactly when no part has the separator in it. -/
theorem split_join_iff {sep : Char} {ss : List String} (hne : ss ≠ []) :
    split sep (join (String.singleton sep) ss) = ss ↔ ∀ s ∈ ss, sep ∉ s.toList := by
  constructor
  · intro h s hs hsep
    rw [← h, split] at hs
    obtain ⟨w, hw, rfl⟩ := List.mem_map.mp hs
    rw [String.toList_ofList] at hsep
    simpa using not_of_mem_splitBy hw sep hsep
  · intro h
    rw [split, toList_join, String.toList_singleton, splitBy_joinBy (by simpa using hne) (by simpa using h), List.map_map]
    have : (String.ofList ∘ String.toList) = id := by
      funext s
      exact String.ofList_toList
    rw [this, List.map_id]

/-- The blank-free stretches of a text. -/
def words (s : String) : List String :=
  ((splitBy isBlank s.toList).filter (· ≠ [])).map String.ofList

/-- The text without the characters satisfying `p` at its start. -/
def trimStart (p : Char → Bool) (cs : List Char) : List Char :=
  cs.dropWhile p

/-- The text without the characters satisfying `p` at its end. -/
def trimEnd (p : Char → Bool) (cs : List Char) : List Char :=
  (cs.reverse.dropWhile p).reverse

/-- The text without blanks at its ends. -/
def trim (s : String) : String :=
  String.ofList (trimEnd isBlank (trimStart isBlank s.toList))

/-- Every run of blanks made one space, none left at the ends. -/
def oneLine (s : String) : String :=
  join " " (words s)

/-- The size of a text in bytes. -/
def byteSize : List Char → Nat
  | [] => 0
  | c :: cs => c.utf8Size + byteSize cs

/-- Where `needle` first occurs in `cs`, in characters from the start. -/
def findIn (needle : List Char) : List Char → Option Nat
  | [] => if needle.isEmpty then some 0 else none
  | c :: cs => if needle.isPrefixOf (c :: cs) then some 0 else (findIn needle cs).map (· + 1)

end Counterpart.Text
