/-
The parts of a text between its top-level commas. Opening and closing brackets are counted without regard to what they stand
for, so the parts depend on the balance of the text alone: a comma cuts where as many brackets have been closed as opened
(`Uncut`), and text that no comma cuts goes into the first part whole (`topLevelParts_append`).
-/
import Counterpart.Kotlin.TypeParams

namespace Counterpart.Kotlin.TypeParams

open Text

/-! ## The balance of brackets -/

/-- What a character adds to the number of open brackets. The head of an arrow closes one, like any other `>`. -/
def bracket (c : Char) : Int :=
  if c = '<' || c = '(' then 1 else if c = '>' || c = ')' then -1 else 0

/-- How many brackets more a text opens than it closes. -/
def balance : List Char → Int
  | [] => 0
  | c :: cs => bracket c + balance cs

@[simp] theorem balance_nil : balance [] = 0 := rfl

@[simp] theorem balance_cons (c : Char) (cs : List Char) : balance (c :: cs) = bracket c + balance cs := rfl

@[simp] theorem balance_append (cs ds : List Char) : balance (cs ++ ds) = balance cs + balance ds := by
  induction cs with
  | nil => simp
  | cons c cs ih => rw [List.cons_append, balance_cons, balance_cons, ih, Int.add_assoc]

theorem balance_eq_zero {cs : List Char} (h : ∀ c ∈ cs, bracket c = 0) : balance cs = 0 := by
  induction cs with
  | nil => rfl
  | cons c cs ih =>
    rw [balance_cons, h c List.mem_cons_self, ih fun d hd => h d (List.mem_cons_of_mem c hd)]
    rfl

/-! ## Commas that cut -/

variable {depth : Int} {c : Char} {cs ds front back : List Char}

/-- Whether no comma of the text stands outside all brackets, where `depth` of them are open before it. -/
def Uncut (depth : Int) (cs : List Char) : Prop :=
  ∀ front back, cs = front ++ ',' :: back → depth + balance front ≠ 0

theorem uncut_of_not_mem (depth : Int) (h : ',' ∉ cs) : Uncut depth cs := by
  rintro front back rfl
  exact absurd (by simp) h

theorem uncut_cons : Uncut depth (c :: cs) ↔ ¬ (c = ',' ∧ depth = 0) ∧ Uncut (depth + bracket c) cs := by
  constructor
  · intro h
    refine ⟨?_, ?_⟩
    · rintro ⟨rfl, rfl⟩
      exact h [] cs rfl rfl
    · rintro front back rfl hzero
      exact h (c :: front) back rfl (by rw [balance_cons]; omega)
  · rintro ⟨hc, hcs⟩ front back hfront hzero
    cases front with
    | nil =>
      obtain ⟨rfl, rfl⟩ := List.cons_eq_cons.mp hfront
      exact hc ⟨rfl, by simpa using hzero⟩
    | cons d front =>
      obtain ⟨rfl, rfl⟩ := List.cons_eq_cons.mp hfront
      exact hcs front back rfl (by rw [balance_cons] at hzero; omega)

theorem uncut_append : Uncut depth (cs ++ ds) ↔ Uncut depth cs ∧ Uncut (depth + balance cs) ds := by
  induction cs generalizing depth with
  | nil => simp [uncut_of_not_mem depth (List.not_mem_nil (a := ','))]
  | cons c cs ih =>
    rw [List.cons_append, uncut_cons, uncut_cons, ih, balance_cons, and_assoc, Int.add_assoc]

instance decidableUncut : (depth : Int) → (cs : List Char) → Decidable (Uncut depth cs)
  | depth, [] => .isTrue (uncut_of_not_mem depth List.not_mem_nil)
  | depth, c :: cs =>
    have := decidableUncut (depth + bracket c) cs
    decidable_of_iff _ uncut_cons.symm

/-- A text is uncut, or cut by its first top-level comma. -/
theorem uncut_or_cut (depth : Int) (cs : List Char) : Uncut depth cs ∨
    ∃ front back, cs = front ++ ',' :: back ∧ Uncut depth front ∧ depth + balance front = 0 := by
  induction cs generalizing depth with
  | nil => exact .inl (uncut_of_not_mem depth List.not_mem_nil)
  | cons c cs ih =>
    by_cases hc : c = ',' ∧ depth = 0
    · obtain ⟨rfl, rfl⟩ := hc
      exact .inr ⟨[], cs, rfl, uncut_of_not_mem 0 List.not_mem_nil, rfl⟩
    rcases ih (depth + bracket c) with huncut | ⟨front, back, rfl, huncut, hzero⟩
    · exact .inl (uncut_cons.mpr ⟨hc, huncut⟩)
    · exact .inr ⟨c :: front, back, rfl, uncut_cons.mpr ⟨hc, huncut⟩, by rw [balance_cons]; omega⟩

/-! ## The parts -/

theorem topLevelParts_ne_nil (depth : Int) (cs : List Char) : topLevelParts depth cs ≠ [] := by
  cases cs with
  | nil => simp [topLevelParts]
  | cons c cs =>
    rw [topLevelParts]
    split
    · exact List.cons_ne_nil _ _
    · dsimp only
      generalize topLevelParts _ cs = parts
      cases parts <;> exact List.cons_ne_nil _ _

theorem topLevelParts_comma (cs : List Char) : topLevelParts 0 (',' :: cs) = [] :: topLevelParts 0 cs := rfl

theorem topLevelParts_cons (hc : ¬ (c = ',' ∧ depth = 0)) :
    topLevelParts depth (c :: cs) = (topLevelParts (depth + bracket c) cs).modifyHead (c :: ·) := by
  have hdepth : (if c = '<' || c = '(' then depth + 1 else if c = '>' || c = ')' then depth - 1 else depth) =
      depth + bracket c := by
    rw [bracket]
    split
    · rfl
    split
    · rfl
    · rw [Int.add_zero]
  obtain ⟨w, ws, hparts⟩ := List.exists_cons_of_ne_nil (topLevelParts_ne_nil (depth + bracket c) cs)
  rw [topLevelParts, if_neg (by simpa using hc), hdepth]
  dsimp only
  rw [hparts]
  rfl

/-- Text that no comma cuts goes into the first part. -/
theorem topLevelParts_append (h : Uncut depth cs) (ds : List Char) :
    topLevelParts depth (cs ++ ds) = (topLevelParts (depth + balance cs) ds).modifyHead (cs ++ ·) := by
  induction cs generalizing depth with
  | nil =>
    have : (fun w : List Char => [] ++ w) = id := rfl
    rw [balance_nil, Int.add_zero, List.nil_append, this, List.modifyHead_id, id]
  | cons c cs ih =>
    obtain ⟨hc, hcs⟩ := uncut_cons.mp h
    rw [List.cons_append, topLevelParts_cons hc, ih hcs, List.modifyHead_modifyHead, balance_cons, Int.add_assoc]
    rfl

theorem topLevelParts_uncut (h : Uncut depth cs) : topLevelParts depth cs = [cs] := by
  have := topLevelParts_append h []
  rwa [List.append_nil, topLevelParts, List.modifyHead_cons, List.append_nil] at this

theorem topLevelParts_cut (h : Uncut depth cs) (hzero : depth + balance cs = 0) (ds : List Char) :
    topLevelParts depth (cs ++ ',' :: ds) = cs :: topLevelParts 0 ds := by
  rw [topLevelParts_append h, hzero, topLevelParts_comma, List.modifyHead_cons, List.append_nil]

/-- Text without commas at the end goes into the last part. -/
theorem topLevelParts_concat (depth : Int) (cs : List Char) (h : ',' ∉ ds) :
    ∃ front last, topLevelParts depth cs = front ++ [last] ∧ topLevelParts depth (cs ++ ds) = front ++ [last ++ ds] := by
  induction cs generalizing depth with
  | nil => exact ⟨[], [], rfl, topLevelParts_uncut (uncut_of_not_mem depth h)⟩
  | cons c cs ih =>
    by_cases hc : c = ',' ∧ depth = 0
    · obtain ⟨rfl, rfl⟩ := hc
      obtain ⟨front, last, hcs, happend⟩ := ih 0
      refine ⟨[] :: front, last, ?_, ?_⟩
      · rw [topLevelParts_comma, hcs, List.cons_append]
      · rw [List.cons_append, topLevelParts_comma, happend, List.cons_append]
    · obtain ⟨front, last, hcs, happend⟩ := ih (depth + bracket c)
      rw [List.cons_append, topLevelParts_cons hc, topLevelParts_cons hc, hcs, happend]
      cases front with
      | nil => exact ⟨[], c :: last, rfl, rfl⟩
      | cons w front => exact ⟨(c :: w) :: front, last, rfl, rfl⟩

/-- Only commas are left out of the parts. -/
theorem count_flatten_topLevelParts (hc : c ≠ ',') (depth : Int) (cs : List Char) :
    (topLevelParts depth cs).flatten.count c = cs.count c := by
  induction cs generalizing depth with
  | nil => rfl
  | cons d cs ih =>
    by_cases hd : d = ',' ∧ depth = 0
    · obtain ⟨rfl, rfl⟩ := hd
      rw [topLevelParts_comma, List.flatten_cons, List.nil_append, ih, List.count_cons_of_ne hc.symm]
    · obtain ⟨w, ws, hparts⟩ := List.exists_cons_of_ne_nil (topLevelParts_ne_nil (depth + bracket d) cs)
      have hcount := ih (depth + bracket d)
      rw [hparts, List.flatten_cons] at hcount
      rw [topLevelParts_cons hd, hparts, List.modifyHead_cons, List.flatten_cons, List.cons_append, List.count_cons,
        List.count_cons, hcount]

/-- A first part with the commas of the text up to the next one is that text: it is uncut, and what follows is cut off. -/
theorem uncut_of_count {w : List Char} {ws : List (List Char)} (hds : ∀ c ∈ ds.head?, c = ',')
    (h : topLevelParts depth (cs ++ ds) = w :: ws) (hcount : w.count ',' = cs.count ',') :
    Uncut depth cs ∧ (ds ≠ [] → depth + balance cs = 0) := by
  rcases uncut_or_cut depth cs with huncut | ⟨front, back, rfl, hfront, hzero⟩
  · refine ⟨huncut, fun hne => ?_⟩
    obtain ⟨d, rest, rfl⟩ := List.exists_cons_of_ne_nil hne
    obtain rfl := hds d rfl
    refine Decidable.byContradiction fun hopen => ?_
    obtain ⟨v, vs, hparts⟩ := List.exists_cons_of_ne_nil (topLevelParts_ne_nil (depth + balance cs + bracket ',') rest)
    rw [topLevelParts_append huncut, topLevelParts_cons (fun h => hopen h.2), hparts] at h
    obtain ⟨rfl, -⟩ := List.cons_eq_cons.mp h
    rw [List.count_append, List.count_cons_self] at hcount
    omega
  · rw [List.append_assoc, List.cons_append, topLevelParts_cut hfront hzero] at h
    obtain ⟨rfl, -⟩ := List.cons_eq_cons.mp h
    rw [List.count_append, List.count_cons_self] at hcount
    omega

end Counterpart.Kotlin.TypeParams
