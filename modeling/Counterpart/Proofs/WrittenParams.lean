/-
Type parameters as they are read. Of the text before a bound the last word counts that is neither an annotation nor a modifier
(`typeNames`); blanks around a parameter, and so around a list, do not matter (`ofText_eq`). A parameter whose name is set off
from what stands around it goes into one part with its whole head, and only its bound can be cut (`Clear.topLevelParts_text`).
-/
import Counterpart.Proofs.TopLevel
import Counterpart.Proofs.Trimming

namespace Counterpart.Kotlin.TypeParams

open Text

variable {cs l r : List Char}

/-! ## Parameters -/

/-- The words of the text before a bound that are neither annotations nor modifiers. The last one is read as the name. -/
def typeNames (head : String) : List String :=
  (words head).filter fun w => !w.startsWith "@" && !(["out", "in", "reified"].contains w)

theorem readParam_of_not_mem (h : ':' ∉ cs) : readParam cs = (typeNames (.ofList cs)).getLast?.map (⟨·, none⟩) := by
  have hne : ∀ c ∈ cs, (c != ':') = true := fun c hc => bne_iff_ne.mpr (ne_of_mem_of_not_mem hc h)
  rw [readParam, List.takeWhile_eq_self_iff.mpr hne, List.dropWhile_eq_nil_iff.mpr hne]
  rfl

theorem readParam_append (h : ':' ∉ cs) (w : List Char) :
    readParam (cs ++ ':' :: w) = (typeNames (.ofList cs)).getLast?.map (⟨·, some (trim (.ofList w))⟩) := by
  have hne : ∀ c ∈ cs, (c != ':') = true := fun c hc => bne_iff_ne.mpr (ne_of_mem_of_not_mem hc h)
  rw [readParam, List.takeWhile_append_of_pos hne, List.dropWhile_append_of_pos hne, List.takeWhile_cons_of_neg (by simp),
    List.dropWhile_cons_of_neg (by simp), List.append_nil]
  rfl

theorem readParam_blank (h : ∀ c ∈ cs, isBlank c) : readParam cs = none := by
  rw [readParam_of_not_mem (not_mem_of_blank h (by decide)), typeNames, words_blank h]
  rfl

/-- Blanks around a parameter are not read. -/
theorem readParam_pad (hl : ∀ c ∈ l, isBlank c) (hr : ∀ c ∈ r, isBlank c) (cs : List Char) :
    readParam (l ++ cs ++ r) = readParam cs := by
  have hl' : ':' ∉ l := not_mem_of_blank hl (by decide)
  have hr' : ':' ∉ r := not_mem_of_blank hr (by decide)
  by_cases h : ':' ∈ cs
  · obtain ⟨head, w, rfl, hhead⟩ := List.eq_append_cons_of_mem h
    have hcs : l ++ (head ++ ':' :: w) ++ r = l ++ head ++ ':' :: (w ++ r) := by
      simp only [List.append_assoc, List.cons_append]
    have htrim : trim (.ofList (w ++ r)) = trim (.ofList w) := trim_pad (l := []) (by simp) hr w
    rw [hcs, readParam_append (by simp [hl', hhead]), readParam_append hhead, typeNames, words_blank_append hl, htrim,
      typeNames]
  · rw [readParam_of_not_mem (by simp [hl', h, hr']), readParam_of_not_mem h, typeNames, words_append_blank hr,
      words_blank_append hl, typeNames]

/-! ## The inside of a list -/

/-- The parameters between the angle brackets of a list. -/
def readInside (cs : List Char) : List TypeParam := (topLevelParts 0 cs).filterMap readParam

theorem filterMap_dropBlankEnd (parts : List (List Char)) :
    (dropBlankEnd parts).filterMap readParam = parts.filterMap readParam := by
  rcases List.eq_nil_or_concat parts with rfl | ⟨front, last, rfl⟩
  · rfl
  rw [List.concat_eq_append, dropBlankEnd, List.getLast?_concat]
  dsimp only
  split
  next hblank =>
    rw [List.all_eq_true] at hblank
    rw [List.dropLast_concat, List.filterMap_append, List.filterMap_cons_none (readParam_blank hblank), List.filterMap_nil,
      List.append_nil]
  next => rfl

theorem balance_blank (h : ∀ c ∈ cs, isBlank c) : balance cs = 0 := by
  refine balance_eq_zero fun c hc => ?_
  have hne {d : Char} (hd : isBlank d = false) : c ≠ d := ne_of_mem_of_not_mem hc (not_mem_of_blank h hd)
  simp [bracket, hne (show isBlank '<' = false by decide), hne (show isBlank '(' = false by decide),
    hne (show isBlank '>' = false by decide), hne (show isBlank ')' = false by decide)]

theorem balance_trim (s : String) : balance (trim s).toList = balance s.toList := by
  obtain ⟨l, r, hl, hr, hs⟩ := exists_trim s
  rw [hs, balance_append, balance_append, balance_blank hl, balance_blank hr, Int.zero_add, Int.add_zero]

theorem uncut_trim {s : String} (h : Uncut 0 s.toList) : Uncut 0 (trim s).toList := by
  obtain ⟨l, r, hl, hr, hs⟩ := exists_trim s
  rw [hs, uncut_append, uncut_append, balance_blank hl] at h
  exact h.1.2

theorem readInside_pad (hl : ∀ c ∈ l, isBlank c) (hr : ∀ c ∈ r, isBlank c) (cs : List Char) :
    readInside (l ++ cs ++ r) = readInside cs := by
  have hleft (ds : List Char) : readInside (l ++ ds) = readInside ds := by
    obtain ⟨w, ws, hparts⟩ := List.exists_cons_of_ne_nil (topLevelParts_ne_nil 0 ds)
    have hw : readParam (l ++ w) = readParam w := by
      have := readParam_pad (r := []) hl (by simp) w
      rwa [List.append_nil] at this
    rw [readInside, readInside, topLevelParts_append (uncut_of_not_mem 0 (not_mem_of_blank hl (by decide))),
      balance_blank hl, Int.add_zero, hparts, List.modifyHead_cons, List.filterMap_cons, List.filterMap_cons, hw]
  have hright : readInside (cs ++ r) = readInside cs := by
    obtain ⟨front, last, hcs, happend⟩ := topLevelParts_concat 0 cs (not_mem_of_blank hr (by decide : isBlank ',' = false))
    have hlast : readParam (last ++ r) = readParam last := readParam_pad (l := []) (by simp) hr last
    rw [readInside, readInside, hcs, happend, List.filterMap_append, List.filterMap_append, List.filterMap_cons,
      List.filterMap_cons, hlast]
  rw [List.append_assoc, hleft, hright]

theorem ofText_eq (text : String) :
    ofText text = ⟨readInside (trimEnd (· == '>') (trimStart (· == '<') (trim text).toList))⟩ := by
  obtain ⟨l, r, hl, hr, htrim⟩ :=
    exists_trim (.ofList (trimEnd (· == '>') (trimStart (· == '<') (trim text).toList)))
  rw [String.toList_ofList] at htrim
  rw [ofText, filterMap_dropBlankEnd, ← readInside, ← readInside_pad hl hr, ← htrim]

/-! ## Lists as they are written -/

/-- A type parameter in a list: its name, the modifiers and comments on both sides of it, and the text of its bound. -/
structure WrittenParam where
  lead : String
  name : String
  trail : String
  bound : Option String

namespace WrittenParam

/-- The text before the bound. -/
def head (p : WrittenParam) : String := p.lead ++ p.name ++ p.trail

def text (p : WrittenParam) : String :=
  match p.bound with
  | some bound => p.head ++ ":" ++ bound
  | none => p.head

/-- The parameter that is declared. -/
def param (p : WrittenParam) : TypeParam := ⟨p.name, p.bound.map trim⟩

/-- The name that is read: a word after the name is taken for it. -/
def readName (p : WrittenParam) : String := (typeNames p.trail).getLast?.getD p.name

/-- Whether the name is plain and set off by blanks, with no mark of the list in the modifiers and comments around it. -/
structure Clear (p : WrittenParam) : Prop where
  plain : Name.isPlain p.name
  notModifier : p.name ∉ ["out", "in", "reified"]
  blankBefore : ∀ c ∈ p.lead.toList.getLast?, isBlank c
  blankAfter : ∀ c ∈ p.trail.toList.head?, isBlank c
  noMarks : ∀ c ∈ p.lead.toList ++ p.trail.toList, c ∉ [',', ':', '<', '>', '(', ')']

theorem clear_iff (p : WrittenParam) : p.Clear ↔
    Name.isPlain p.name ∧ p.name ∉ ["out", "in", "reified"] ∧ p.lead.toList.getLast?.all isBlank ∧
      p.trail.toList.head?.all isBlank ∧
      (p.lead.toList ++ p.trail.toList).all fun c => !([',', ':', '<', '>', '(', ')'].contains c) := by
  simp only [Option.all_eq_true, List.all_eq_true, Bool.not_eq_true', ← Bool.not_eq_true, List.contains_iff_mem]
  exact ⟨fun h => ⟨h.1, h.2, h.3, h.4, h.5⟩, fun ⟨h₁, h₂, h₃, h₄, h₅⟩ => ⟨h₁, h₂, h₃, h₄, h₅⟩⟩

instance (p : WrittenParam) : Decidable p.Clear := decidable_of_iff _ p.clear_iff.symm

variable {p : WrittenParam} {ds : List Char}

theorem text_of_none (h : p.bound = none) : p.text = p.head := by
  rw [text, h]

theorem toList_text_of_some {b : String} (h : p.bound = some b) : p.text.toList = p.head.toList ++ ':' :: b.toList := by
  rw [text, h, String.toList_append, String.toList_append, List.append_assoc]
  rfl

namespace Clear

variable (hp : p.Clear)

include hp

theorem not_mem_head {c : Char} (hc : c ∈ [',', ':', '<', '>', '(', ')']) : c ∉ p.head.toList := by
  rw [head, String.toList_append, String.toList_append]
  intro hmem
  by_cases hname : c ∈ p.name.toList
  · have hnot : [',', ':', '<', '>', '(', ')'].all (fun d => !isNameChar d) = true := by decide
    have := List.all_eq_true.mp hnot c hc
    rw [isNameChar_of_isPlain hp.plain c hname] at this
    cases this
  · refine hp.noMarks c ?_ hc
    simpa [hname] using hmem

theorem bracket_head : ∀ c ∈ p.head.toList, bracket c = 0 := by
  intro c hc
  have hne {d : Char} (hd : d ∈ [',', ':', '<', '>', '(', ')']) : c ≠ d := ne_of_mem_of_not_mem hc (hp.not_mem_head hd)
  simp [bracket, hne (d := '<'), hne (d := '('), hne (d := '>'), hne (d := ')')]

theorem name_ne_nil : p.name.toList ≠ [] := by
  intro h
  have := hp.plain
  rw [Name.isPlain, h] at this
  cases this

theorem typeNames_name : typeNames p.name = [p.name] := by
  have hmark : p.name.startsWith "@" = false := by
    rw [String.startsWith_string_eq_false_iff]
    rintro ⟨cs, hcs⟩
    have := isNameChar_of_isPlain hp.plain '@' (by rw [← hcs]; simp)
    exact absurd this (by decide)
  have hword : words p.name = [p.name] := by
    have := words_of_not_blank hp.name_ne_nil (not_blank_of_isPlain hp.plain)
    rwa [String.ofList_toList] at this
  rw [typeNames, hword, List.filter_cons_of_pos, List.filter_nil]
  rw [hmark, Bool.not_false, Bool.true_and, Bool.not_eq_true', ← Bool.not_eq_true, List.contains_iff_mem]
  exact hp.notModifier

theorem typeNames_head : typeNames p.head = typeNames p.lead ++ p.name :: typeNames p.trail := by
  have hwords : words p.head = words p.lead ++ words p.name ++ words p.trail := by
    have hright := words_append_right hp.blankAfter (p.lead.toList ++ p.name.toList)
    have hleft := words_append_left hp.blankBefore p.name.toList
    rw [hleft, ← String.toList_append, ← String.toList_append] at hright
    simpa only [head, String.ofList_toList] using hright
  have hname := hp.typeNames_name
  rw [typeNames] at hname
  rw [typeNames, hwords, List.filter_append, List.filter_append, hname, List.append_assoc, List.singleton_append]
  rfl

theorem exists_cons_text : ∃ c cs, p.text.toList = c :: cs ∧ c ≠ '<' := by
  have hne : p.head.toList ≠ [] := by
    rw [head, String.toList_append, String.toList_append]
    exact List.append_ne_nil_of_left_ne_nil (List.append_ne_nil_of_right_ne_nil _ hp.name_ne_nil) _
  obtain ⟨c, cs, hhead⟩ := List.exists_cons_of_ne_nil hne
  have hc : c ≠ '<' := ne_of_mem_of_not_mem (by rw [hhead]; exact List.mem_cons_self) (hp.not_mem_head (by decide))
  cases hbound : p.bound with
  | none => exact ⟨c, cs, by rw [text_of_none hbound, hhead], hc⟩
  | some b => exact ⟨c, _, by rw [toList_text_of_some hbound, hhead, List.cons_append], hc⟩

theorem getLast?_typeNames_head : (typeNames p.head).getLast? = some p.readName := by
  rw [hp.typeNames_head, List.getLast?_append, List.getLast?_cons, readName]
  rfl

theorem readParam_text : readParam p.text.toList = some ⟨p.readName, p.bound.map trim⟩ := by
  have hcolon := hp.not_mem_head (c := ':') (by decide)
  cases hbound : p.bound with
  | none =>
    rw [text_of_none hbound, readParam_of_not_mem hcolon, String.ofList_toList, hp.getLast?_typeNames_head]
    rfl
  | some b =>
    rw [toList_text_of_some hbound, readParam_append hcolon, String.ofList_toList, String.ofList_toList,
      hp.getLast?_typeNames_head]
    rfl

theorem topLevelParts_head (ds : List Char) :
    topLevelParts 0 (p.head.toList ++ ds) = (topLevelParts 0 ds).modifyHead (p.head.toList ++ ·) := by
  rw [topLevelParts_append (uncut_of_not_mem 0 (hp.not_mem_head (by decide))), balance_eq_zero hp.bracket_head, Int.add_zero]

/-- The bound is cut as if it stood alone. -/
theorem topLevelParts_text {b : String} (h : p.bound = some b) (ds : List Char) : topLevelParts 0 (p.text.toList ++ ds) =
    (topLevelParts 0 (b.toList ++ ds)).modifyHead fun w => p.head.toList ++ ':' :: w := by
  have hcolon : 0 + bracket ':' = 0 := rfl
  rw [toList_text_of_some h, List.append_assoc, hp.topLevelParts_head, List.cons_append, topLevelParts_cons (by simp), hcolon,
    List.modifyHead_modifyHead]
  rfl

theorem uncut_text : Uncut 0 p.text.toList ↔ ∀ b ∈ p.bound, Uncut 0 b.toList := by
  have hhead := uncut_of_not_mem 0 (hp.not_mem_head (c := ',') (by decide))
  cases hbound : p.bound with
  | none =>
    rw [text_of_none hbound]
    simp [hhead]
  | some b =>
    rw [toList_text_of_some hbound, uncut_append, balance_eq_zero hp.bracket_head, uncut_cons]
    simp [hhead, bracket]

theorem balance_text : balance p.text.toList = 0 ↔ ∀ b ∈ p.bound, balance b.toList = 0 := by
  cases hbound : p.bound with
  | none =>
    rw [text_of_none hbound]
    simp [balance_eq_zero hp.bracket_head]
  | some b =>
    rw [toList_text_of_some hbound, balance_append, balance_eq_zero hp.bracket_head, balance_cons]
    simp [bracket]

end Clear

end WrittenParam

end Counterpart.Kotlin.TypeParams
