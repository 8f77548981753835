/-
Lists of type parameters, read and declared again. A list is cut by counting brackets, without regard to what they stand for,
and every `>` at its end is taken for the end of the list. So it is read as it was written exactly when no word behind a name
is taken for it, no comma cuts a bound, every bound but the last closes as many brackets as it opens, and the last one does not
end with `>` (`ofText_listed`): not so for a bound that ends with type arguments in the last place, nor for most bounds with the
arrow of a function type.
-/
import Counterpart.Proofs.WrittenParams

namespace Counterpart.Kotlin.TypeParams

open Text WrittenParam

variable {p q : WrittenParam} {ps : List WrittenParam} {params : List TypeParam} {ds : List Char}

/-! ## Reading a list -/

/-- The text between the angle brackets. -/
def inside (ps : List WrittenParam) : String := join "," (ps.map text)

/-- The list with its angle brackets. -/
def listed (ps : List WrittenParam) : String := "<" ++ inside ps ++ ">"

theorem inside_singleton (p : WrittenParam) : inside [p] = p.text := rfl

theorem inside_cons (p q : WrittenParam) (ps : List WrittenParam) :
    inside (p :: q :: ps) = p.text ++ "," ++ inside (q :: ps) := rfl

theorem toList_inside_cons (p q : WrittenParam) (ps : List WrittenParam) :
    (inside (p :: q :: ps)).toList = p.text.toList ++ ',' :: (inside (q :: ps)).toList := by
  rw [inside_cons, String.toList_append, String.toList_append, List.append_assoc]
  rfl

/-- Whether the top-level commas of a list are the ones between its parameters, and no word follows a name: no comma cuts
a bound, and every bound but the last closes as many brackets as it opens. -/
structure Parted (ps : List WrittenParam) : Prop where
  named : ∀ p ∈ ps, p.readName = p.name
  uncut : ∀ p ∈ ps, ∀ b ∈ p.bound, Uncut 0 b.toList
  closed : ∀ p ∈ ps.dropLast, ∀ b ∈ p.bound, balance b.toList = 0

theorem parted_singleton : Parted [p] ↔ p.readName = p.name ∧ ∀ b ∈ p.bound, Uncut 0 b.toList := by
  constructor
  · intro h
    exact ⟨h.named p List.mem_cons_self, h.uncut p List.mem_cons_self⟩
  · rintro ⟨hname, huncut⟩
    exact ⟨List.forall_mem_singleton.mpr hname, List.forall_mem_singleton.mpr huncut, by simp⟩

theorem parted_cons_cons : Parted (p :: q :: ps) ↔
    p.readName = p.name ∧ (∀ b ∈ p.bound, Uncut 0 b.toList) ∧ (∀ b ∈ p.bound, balance b.toList = 0) ∧ Parted (q :: ps) := by
  constructor
  · intro h
    obtain ⟨hname, hnamed⟩ := List.forall_mem_cons.mp h.named
    obtain ⟨huncut, huncuts⟩ := List.forall_mem_cons.mp h.uncut
    obtain ⟨hzero, hclosed⟩ := List.forall_mem_cons.mp (List.dropLast_cons_cons ▸ h.closed)
    exact ⟨hname, huncut, hzero, hnamed, huncuts, hclosed⟩
  · rintro ⟨hname, huncut, hzero, hps⟩
    refine ⟨List.forall_mem_cons.mpr ⟨hname, hps.named⟩, List.forall_mem_cons.mpr ⟨huncut, hps.uncut⟩, ?_⟩
    rw [List.dropLast_cons_cons]
    exact List.forall_mem_cons.mpr ⟨hzero, hps.closed⟩

theorem readInside_cut (hp : p.Clear) (hname : p.readName = p.name) (huncut : ∀ b ∈ p.bound, Uncut 0 b.toList)
    (hzero : ∀ b ∈ p.bound, balance b.toList = 0) (cs : List Char) :
    readInside (p.text.toList ++ ',' :: cs) = p.param :: readInside cs := by
  have hbalance : 0 + balance p.text.toList = 0 := by rw [hp.balance_text.mpr hzero, Int.add_zero]
  rw [readInside, topLevelParts_cut (hp.uncut_text.mpr huncut) hbalance, List.filterMap_cons_some hp.readParam_text, hname,
    param, readInside]

/-- A first parameter is read as it was written only if its name is the last word, no comma cuts its bound, and the comma
behind it does. -/
theorem uncut_of_readInside (hp : p.Clear) (hds : ∀ c ∈ ds.head?, c = ',')
    (h : readInside (p.text.toList ++ ds) = p.param :: params) :
    p.readName = p.name ∧ (∀ b ∈ p.bound, Uncut 0 b.toList) ∧ (ds ≠ [] → ∀ b ∈ p.bound, balance b.toList = 0) := by
  have hcolon := hp.not_mem_head (c := ':') (by decide)
  cases hbound : p.bound with
  | none =>
    have hfirst : ∃ ws, topLevelParts 0 ds = [] :: ws := by
      cases ds with
      | nil => exact ⟨[], rfl⟩
      | cons d ds =>
        obtain rfl := hds d rfl
        exact ⟨_, topLevelParts_comma ds⟩
    obtain ⟨ws, hws⟩ := hfirst
    have hread := hp.readParam_text
    rw [text_of_none hbound] at h hread
    rw [readInside, hp.topLevelParts_head, hws, List.modifyHead_cons, List.append_nil, List.filterMap_cons_some hread] at h
    simp only [List.cons.injEq, param, TypeParam.mk.injEq] at h
    exact ⟨h.1.1, by simp, by simp⟩
  | some b =>
    obtain ⟨w, ws, hparts⟩ := List.exists_cons_of_ne_nil (topLevelParts_ne_nil 0 (b.toList ++ ds))
    have hread : readParam (p.head.toList ++ ':' :: w) = some ⟨p.readName, some (trim (.ofList w))⟩ := by
      rw [readParam_append hcolon, String.ofList_toList, hp.getLast?_typeNames_head]
      rfl
    rw [readInside, hp.topLevelParts_text hbound, hparts, List.modifyHead_cons, List.filterMap_cons_some hread] at h
    simp only [List.cons.injEq, param, hbound, Option.map_some, TypeParam.mk.injEq, Option.some.injEq] at h
    obtain ⟨⟨hname, htrim⟩, -⟩ := h
    have hcount : w.count ',' = b.toList.count ',' := by
      have := congrArg (fun s : String => s.toList.count ',') htrim
      simpa only [count_trim (show isBlank ',' = false by decide), String.toList_ofList] using this
    obtain ⟨huncut, hzero⟩ := uncut_of_count hds hparts hcount
    simp only [Option.mem_def, Option.some.injEq, forall_eq']
    exact ⟨hname, huncut, fun hne => by simpa using hzero hne⟩

/-- The inside of a list is read as it was written exactly when it is parted. -/
theorem readInside_inside (hne : ps ≠ []) (hclear : ∀ p ∈ ps, p.Clear) :
    readInside (inside ps).toList = ps.map param ↔ Parted ps := by
  induction ps with
  | nil => exact absurd rfl hne
  | cons p ps ih =>
    obtain ⟨hp, hps⟩ := List.forall_mem_cons.mp hclear
    cases ps with
    | nil =>
      rw [inside_singleton, parted_singleton]
      constructor
      · intro h
        rw [← List.append_nil p.text.toList] at h
        obtain ⟨hname, huncut, -⟩ := uncut_of_readInside hp (by simp) h
        exact ⟨hname, huncut⟩
      · rintro ⟨hname, huncut⟩
        rw [readInside, topLevelParts_uncut (hp.uncut_text.mpr huncut), List.filterMap_cons_some hp.readParam_text, hname]
        rfl
    | cons q ps =>
      rw [toList_inside_cons, parted_cons_cons, ← ih (List.cons_ne_nil q ps) hps]
      constructor
      · intro h
        obtain ⟨hname, huncut, hzero⟩ := uncut_of_readInside hp (by simp) h
        have hzero := hzero (List.cons_ne_nil _ _)
        rw [readInside_cut hp hname huncut hzero] at h
        exact ⟨hname, huncut, hzero, (List.cons_eq_cons.mp h).2⟩
      · rintro ⟨hname, huncut, hzero, hrest⟩
        rw [readInside_cut hp hname huncut hzero, hrest]
        rfl

/-! ## The closing bracket -/

/-- The text of the bound of a parameter; empty without one. -/
def boundText (p : TypeParam) : List Char := (p.bound.map String.toList).getD []

/-- How many `>` the bounds of the parameters have. -/
def closers (params : List TypeParam) : Nat := (params.flatMap boundText).count '>'

theorem closers_cons (p : TypeParam) (params : List TypeParam) :
    closers (p :: params) = (boundText p).count '>' + closers params := by
  rw [closers, List.flatMap_cons, List.count_append, closers]

theorem count_boundText {w : List Char} {p : TypeParam} (h : readParam w = some p) :
    (boundText p).count '>' ≤ w.count '>' := by
  by_cases hcolon : ':' ∈ w
  · obtain ⟨head, bound, rfl, hhead⟩ := List.eq_append_cons_of_mem hcolon
    rw [readParam_append hhead] at h
    obtain ⟨name, -, rfl⟩ := Option.map_eq_some_iff.mp h
    have := count_trim (show isBlank '>' = false by decide) (.ofList bound)
    rw [String.toList_ofList] at this
    rw [boundText, Option.map_some, Option.getD_some, this, List.count_append, List.count_cons]
    omega
  · rw [readParam_of_not_mem hcolon] at h
    obtain ⟨name, -, rfl⟩ := Option.map_eq_some_iff.mp h
    exact Nat.zero_le _

theorem closers_filterMap (parts : List (List Char)) : closers (parts.filterMap readParam) ≤ parts.flatten.count '>' := by
  induction parts with
  | nil => exact Nat.le_refl 0
  | cons w parts ih =>
    rw [List.flatten_cons, List.count_append]
    cases hread : readParam w with
    | none =>
      rw [List.filterMap_cons_none hread]
      omega
    | some p =>
      have := count_boundText hread
      rw [List.filterMap_cons_some hread, closers_cons]
      omega

/-- Reading makes up no `>`. -/
theorem closers_readInside (cs : List Char) : closers (readInside cs) ≤ cs.count '>' := by
  rw [← count_flatten_topLevelParts (c := '>') (by decide) 0 cs]
  exact closers_filterMap _

theorem count_boundText_param (hp : p.Clear) : (boundText p.param).count '>' = p.text.toList.count '>' := by
  have hhead : p.head.toList.count '>' = 0 := List.count_eq_zero_of_not_mem (hp.not_mem_head (by decide))
  cases hbound : p.bound with
  | none =>
    rw [text_of_none hbound, hhead, boundText, param, hbound]
    rfl
  | some b =>
    rw [toList_text_of_some hbound, List.count_append, hhead, Nat.zero_add, List.count_cons_of_ne (by decide), boundText, param,
      hbound, Option.map_some, Option.map_some, Option.getD_some, count_trim (by decide)]

theorem closers_param (hne : ps ≠ []) (hclear : ∀ p ∈ ps, p.Clear) :
    closers (ps.map param) = (inside ps).toList.count '>' := by
  induction ps with
  | nil => exact absurd rfl hne
  | cons p ps ih =>
    obtain ⟨hp, hps⟩ := List.forall_mem_cons.mp hclear
    rw [List.map_cons, closers_cons, count_boundText_param hp]
    cases ps with
    | nil => rw [inside_singleton]; rfl
    | cons q ps =>
      rw [ih (List.cons_ne_nil q ps) hps, toList_inside_cons, List.count_append, List.count_cons_of_ne (by decide)]

theorem exists_cons_inside (hne : ps ≠ []) (hclear : ∀ p ∈ ps, p.Clear) :
    ∃ c cs, (inside ps).toList = c :: cs ∧ c ≠ '<' := by
  obtain ⟨p, ps, rfl⟩ := List.exists_cons_of_ne_nil hne
  obtain ⟨c, cs, htext, hc⟩ := (hclear p List.mem_cons_self).exists_cons_text
  cases ps with
  | nil => exact ⟨c, cs, by rw [inside_singleton, htext], hc⟩
  | cons q ps => exact ⟨c, _, by rw [toList_inside_cons, htext, List.cons_append], hc⟩

theorem ofText_listed_eq (hne : ps ≠ []) (hclear : ∀ p ∈ ps, p.Clear) :
    ofText (listed ps) = ⟨readInside (trimEnd (· == '>') (inside ps).toList)⟩ := by
  obtain ⟨c, cs, hinside, hc⟩ := exists_cons_inside hne hclear
  have hlisted : (listed ps).toList = '<' :: (c :: cs ++ ['>']) := by
    rw [listed, String.toList_append, String.toList_append, ← hinside]
    rfl
  have htrim : trim (listed ps) = listed ps := by
    refine trim_eq ?_ ?_
    · rw [hlisted]
      rintro _ ⟨⟩
      decide
    · rw [hlisted, List.getLast?_cons, List.getLast?_concat]
      rintro _ ⟨⟩
      decide
  rw [ofText_eq, htrim, hlisted, trimStart, List.dropWhile_cons_of_pos (by simp), List.cons_append,
    List.dropWhile_cons_of_neg (by simpa using hc), ← List.cons_append, trimEnd_concat, hinside]

/-- A list is read as it was written exactly when it is parted and its last bound does not end with `>`, which would be
taken for the end of the list. -/
theorem ofText_listed_eq_iff (hne : ps ≠ []) (hclear : ∀ p ∈ ps, p.Clear) :
    ofText (listed ps) = ⟨ps.map param⟩ ↔ Parted ps ∧ (inside ps).toList.getLast? ≠ some '>' := by
  rw [ofText_listed_eq hne hclear, TypeParams.mk.injEq]
  by_cases hlast : (inside ps).toList.getLast? = some '>'
  · refine iff_of_false ?_ fun h => h.2 hlast
    intro h
    have hread := closers_readInside (trimEnd (· == '>') (inside ps).toList)
    rw [h, closers_param hne hclear] at hread
    have := count_trimEnd_lt hlast
    omega
  · rw [trimEnd_eq hlast, readInside_inside hne hclear]
    exact ⟨fun h => ⟨h, hlast⟩, And.left⟩

/-! ## The list declared again -/

/-- The parameter as a list of declarations has it. -/
def rewritten (lead : String) (p : TypeParam) : WrittenParam :=
  ⟨lead, p.name, if p.bound.isSome then " " else "", p.bound.map (" " ++ ·)⟩

/-- The list of declarations, with `lead` before the first. -/
def relisted (lead : String) : List TypeParam → List WrittenParam
  | [] => []
  | p :: params => rewritten lead p :: relisted " " params

theorem text_rewritten (lead : String) (p : TypeParam) : (rewritten lead p).text = lead ++ p.declaration := by
  cases hbound : p.bound with
  | none => simp [rewritten, text, head, TypeParam.declaration, hbound]
  | some b =>
    simp only [rewritten, text, head, TypeParam.declaration, hbound, Option.map_some, Option.isSome_some, if_true,
      String.append_assoc]
    rfl

theorem inside_relisted (lead : String) (hne : params ≠ []) :
    inside (relisted lead params) = lead ++ join ", " (params.map TypeParam.declaration) := by
  induction params generalizing lead with
  | nil => exact absurd rfl hne
  | cons p params ih =>
    cases params with
    | nil => exact text_rewritten lead p
    | cons q params =>
      have hsep : ", " = "," ++ " " := rfl
      have hjoin : join ", " ((p :: q :: params).map TypeParam.declaration) =
          p.declaration ++ ", " ++ join ", " ((q :: params).map TypeParam.declaration) := rfl
      have hinside : inside (relisted lead (p :: q :: params)) =
          (rewritten lead p).text ++ "," ++ inside (relisted " " (q :: params)) := rfl
      rw [hinside, ih " " (List.cons_ne_nil q params), text_rewritten, hjoin, hsep]
      simp only [String.append_assoc]

theorem asFunctionDeclaration_eq (hne : params ≠ []) :
    (TypeParams.mk params).asFunctionDeclaration = listed (relisted "" params) := by
  rw [asFunctionDeclaration, isEmpty, if_neg (by simpa using hne), listed, inside_relisted "" hne, String.empty_append]

theorem relisted_ne_nil (lead : String) (hne : params ≠ []) : relisted lead params ≠ [] := by
  cases params with
  | nil => exact absurd rfl hne
  | cons p params => exact List.cons_ne_nil _ _

theorem mem_relisted {lead : String} (h : p ∈ relisted lead params) :
    ∃ lead', (lead' = lead ∨ lead' = " ") ∧ ∃ q ∈ params, p = rewritten lead' q := by
  induction params generalizing lead with
  | nil => cases h
  | cons q params ih =>
    rcases List.mem_cons.mp h with rfl | h
    · exact ⟨lead, .inl rfl, q, List.mem_cons_self, rfl⟩
    · obtain ⟨lead', hlead', q', hq', rfl⟩ := ih h
      exact ⟨lead', .inr (or_self_iff.mp hlead'), q', List.mem_cons_of_mem q hq', rfl⟩

/-- Nothing but a blank stands around a name that is declared again. -/
theorem exists_of_mem_relisted (h : p ∈ relisted "" (ps.map param)) :
    (∃ q ∈ ps, p.name = q.name) ∧ ∀ s, s = p.lead ∨ s = p.trail → s = "" ∨ s = " " := by
  obtain ⟨lead, hlead, q, hq, rfl⟩ := mem_relisted h
  obtain ⟨p, hp, rfl⟩ := List.mem_map.mp hq
  refine ⟨⟨p, hp, rfl⟩, ?_⟩
  rintro s (rfl | rfl)
  · exact hlead
  · rw [rewritten]
    split
    · exact .inr rfl
    · exact .inl rfl

theorem relisted_clear (hclear : ∀ p ∈ ps, p.Clear) : ∀ p ∈ relisted "" (ps.map param), p.Clear := by
  intro p hp
  obtain ⟨⟨q, hq, hname⟩, haround⟩ := exists_of_mem_relisted hp
  have hspace {s : String} (hs : s = "" ∨ s = " ") : ∀ c ∈ s.toList, c = ' ' := by
    rcases hs with rfl | rfl <;> simp
  have hlead := hspace (haround p.lead (.inl rfl))
  have htrail := hspace (haround p.trail (.inr rfl))
  have hblank : isBlank ' ' = true := by decide
  exact {
    plain := hname ▸ (hclear q hq).plain
    notModifier := hname ▸ (hclear q hq).notModifier
    blankBefore := fun c hc => hlead c (List.mem_of_getLast? hc) ▸ hblank
    blankAfter := fun c hc => htrail c (List.mem_of_head? hc) ▸ hblank
    noMarks := by
      intro c hc
      rw [(List.mem_append.mp hc).elim (hlead c) (htrail c)]
      decide
  }

theorem map_param_relisted (lead : String) (ps : List WrittenParam) :
    (relisted lead (ps.map param)).map param = ps.map param := by
  have htrim (b : String) : trim (" " ++ trim b) = trim b := by
    have := trim_pad (l := [' ']) (r := []) (List.forall_mem_singleton.mpr (by decide)) (by simp) (trim b).toList
    rwa [List.append_nil, List.singleton_append, String.ofList_toList, trim_trim, String.ofList_cons, String.ofList_toList] at this
  induction ps generalizing lead with
  | nil => rfl
  | cons p ps ih =>
    have hparam : (rewritten lead p.param).param = p.param := by
      simp [rewritten, param, Function.comp_def, htrim]
    rw [List.map_cons, relisted, List.map_cons, ih, hparam]

theorem map_bound_relisted (lead : String) (ps : List WrittenParam) :
    (relisted lead (ps.map param)).map WrittenParam.bound = ps.map fun p => p.bound.map fun b => " " ++ trim b := by
  induction ps generalizing lead with
  | nil => rfl
  | cons p ps ih =>
    rw [List.map_cons, relisted, List.map_cons, ih, List.map_cons, rewritten, param, Option.map_map]
    rfl

theorem exists_bound {qs : List WrittenParam}
    (h : qs.map WrittenParam.bound = ps.map fun p => p.bound.map fun b => " " ++ trim b) (hq : q ∈ qs) {b : String}
    (hb : b ∈ q.bound) : ∃ p ∈ ps, ∃ b' ∈ p.bound, b = " " ++ trim b' := by
  have hmem := List.mem_map_of_mem (f := WrittenParam.bound) hq
  rw [h] at hmem
  obtain ⟨p, hp, hpq⟩ := List.mem_map.mp hmem
  rw [hb] at hpq
  obtain ⟨b', hb', rfl⟩ := Option.map_eq_some_iff.mp hpq
  exact ⟨p, hp, b', hb', rfl⟩

/-- Parted lists are parted once they are declared again. -/
theorem parted_relisted (h : Parted ps) : Parted (relisted "" (ps.map param)) where
  named := by
    intro p hp
    have hnames : typeNames p.trail = [] := by
      rcases (exists_of_mem_relisted hp).2 p.trail (.inr rfl) with htrail | htrail <;> rw [htrail] <;> decide +kernel
    rw [readName, hnames]
    rfl
  uncut := by
    intro p hp b hb
    obtain ⟨q, hq, b', hb', rfl⟩ := exists_bound (map_bound_relisted "" ps) hp hb
    rw [String.toList_append]
    exact uncut_append.mpr ⟨by decide, uncut_trim (h.uncut q hq b' hb')⟩
  closed := by
    intro p hp b hb
    have hbounds := congrArg List.dropLast (map_bound_relisted "" ps)
    rw [← List.map_dropLast, ← List.map_dropLast] at hbounds
    obtain ⟨q, hq, b', hb', rfl⟩ := exists_bound hbounds hp hb
    rw [String.toList_append, balance_append, balance_trim, h.closed q hq b' hb']
    rfl

/-- The bound of the last parameter. -/
def lastBound (ps : List WrittenParam) : Option String := ps.getLast?.bind WrittenParam.bound

theorem lastBound_relisted (ps : List WrittenParam) :
    lastBound (relisted "" (ps.map param)) = (lastBound ps).map fun b => " " ++ trim b := by
  have := congrArg List.getLast? (map_bound_relisted "" ps)
  rw [List.getLast?_map, List.getLast?_map] at this
  have := congrArg (·.bind id) this
  rw [lastBound, lastBound, Option.map_bind]
  simp only [Option.bind_map, Function.id_comp] at this
  exact this

theorem getLast?_inside (hne : ps ≠ []) (hclear : ∀ p ∈ ps, p.Clear) :
    (inside ps).toList.getLast? = some '>' ↔ ∃ b ∈ lastBound ps, b.toList.getLast? = some '>' := by
  induction ps with
  | nil => exact absurd rfl hne
  | cons p ps ih =>
    obtain ⟨hp, hps⟩ := List.forall_mem_cons.mp hclear
    cases ps with
    | nil =>
      have hhead : p.head.toList.getLast? ≠ some '>' := fun h => hp.not_mem_head (by decide) (List.mem_of_getLast? h)
      rw [inside_singleton, lastBound, List.getLast?_singleton, Option.bind_some]
      cases hbound : p.bound with
      | none => simp [text_of_none hbound, hhead]
      | some b =>
        rw [toList_text_of_some hbound, List.getLast?_append, List.getLast?_cons]
        cases hlast : b.toList.getLast? <;> simp [hlast]
    | cons q ps =>
      obtain ⟨c, cs, hinside, -⟩ := exists_cons_inside (List.cons_ne_nil q ps) hps
      have hlast : lastBound (p :: q :: ps) = lastBound (q :: ps) := by
        rw [lastBound, List.getLast?_cons_cons, lastBound]
      have happend : p.text.toList ++ ',' :: c :: cs = p.text.toList ++ [','] ++ c :: cs := by
        rw [List.append_assoc, List.singleton_append]
      rw [hlast, ← ih (List.cons_ne_nil q ps) hps, toList_inside_cons, hinside, happend,
        List.getLast?_append_of_ne_nil _ (List.cons_ne_nil c cs)]

theorem getLast?_inside_relisted (hne : ps ≠ []) (hclear : ∀ p ∈ ps, p.Clear) :
    (inside (relisted "" (ps.map param))).toList.getLast? = some '>' ↔
      ∃ b ∈ lastBound ps, (trim b).toList.getLast? = some '>' := by
  have hspace (s : String) : (" " ++ s).toList.getLast? = some '>' ↔ s.toList.getLast? = some '>' := by
    rw [String.toList_append, List.getLast?_append]
    cases s.toList.getLast? <;> simp
  rw [getLast?_inside (relisted_ne_nil "" (by simpa using hne)) (relisted_clear hclear), lastBound_relisted]
  constructor
  · rintro ⟨b, hb, hlast⟩
    obtain ⟨b', hb', rfl⟩ := Option.map_eq_some_iff.mp hb
    exact ⟨b', hb', (hspace _).mp hlast⟩
  · rintro ⟨b, hb, hlast⟩
    exact ⟨_, Option.map_eq_some_iff.mpr ⟨b, hb, rfl⟩, (hspace _).mpr hlast⟩

/-! ## Separable lists -/

/-- Whether a list of type parameters can be read by its brackets: it is parted, and its last bound does not end with `>`,
which would be taken for the end of the list. -/
structure Separable (ps : List WrittenParam) : Prop extends Parted ps where
  ended : ∀ b ∈ lastBound ps, (trim b).toList.getLast? ≠ some '>'

/-- A list of type parameters is read as it was written, declared with every name and its complete bound, and read again
the same exactly when it is separable. -/
theorem ofText_listed (hne : ps ≠ []) (hclear : ∀ p ∈ ps, p.Clear) :
    (ofText (listed ps) = ⟨ps.map param⟩ ∧
      (ofText (listed ps)).asFunctionDeclaration = "<" ++ join ", " (ps.map fun p => p.param.declaration) ++ ">" ∧
      ofText (ofText (listed ps)).asFunctionDeclaration = ofText (listed ps)) ↔ Separable ps := by
  have hne' : ps.map param ≠ [] := by simpa using hne
  have hread := ofText_listed_eq_iff hne hclear
  have hagain := ofText_listed_eq_iff (relisted_ne_nil "" hne') (relisted_clear hclear)
  have hlast := getLast?_inside_relisted hne hclear
  rw [map_param_relisted, ← asFunctionDeclaration_eq hne'] at hagain
  constructor
  · rintro ⟨hparams, -, hreread⟩
    rw [hparams] at hreread
    refine ⟨(hread.mp hparams).1, fun b hb hcloser => ?_⟩
    exact (hagain.mp hreread).2 (hlast.mpr ⟨b, hb, hcloser⟩)
  · intro h
    have hparams : ofText (listed ps) = ⟨ps.map param⟩ := by
      refine hread.mpr ⟨h.toParted, ?_⟩
      rw [Ne, getLast?_inside hne hclear]
      rintro ⟨b, hb, hcloser⟩
      exact h.ended b hb (getLast?_trim (by decide) hcloser)
    rw [hparams]
    refine ⟨rfl, ?_, hagain.mpr ⟨parted_relisted h.toParted, ?_⟩⟩
    · rw [asFunctionDeclaration, isEmpty, if_neg (by simpa using hne'), List.map_map]
      rfl
    · rw [Ne, hlast]
      rintro ⟨b, hb, hcloser⟩
      exact h.ended b hb hcloser

/-- The list `<out T : Map<K, (List<T>)>, in /* key */ K, R : Comparable<R>?>`. -/
def sampleList : List WrittenParam :=
  [⟨"out ", "T", " ", some " Map<K, (List<T>)>"⟩, ⟨" in /* key */ ", "K", "", none⟩, ⟨" ", "R", " ", some " Comparable<R>?"⟩]

theorem ofText_listed_sampleList :
    listed sampleList = "<out T : Map<K, (List<T>)>, in /* key */ K, R : Comparable<R>?>" ∧
      (ofText (listed sampleList) = ⟨sampleList.map param⟩ ∧
        (ofText (listed sampleList)).asFunctionDeclaration =
          "<" ++ join ", " (sampleList.map fun p => p.param.declaration) ++ ">" ∧
        ofText (ofText (listed sampleList)).asFunctionDeclaration = ofText (listed sampleList)) ∧
      (ofText (listed sampleList)).asFunctionDeclaration = "<T : Map<K, (List<T>)>, K, R : Comparable<R>?>" := by
  have hseparable : Separable sampleList := {
    named := by decide +kernel
    uncut := by decide +kernel
    closed := by decide +kernel
    ended := by decide +kernel
  }
  exact ⟨by decide +kernel, (ofText_listed (by decide) (by decide +kernel)).mpr hseparable, by decide +kernel⟩

/-- The last bound loses the bracket that closes it. -/
theorem recursiveBound_unclosed : ¬ ((ofText "<T : Comparable<T>>").names = ["T"] ∧
    (ofText "<T : Comparable<T>>").asFunctionDeclaration = "<T : Comparable<T>>" ∧
    ofText (ofText "<T : Comparable<T>>").asFunctionDeclaration = ofText "<T : Comparable<T>>") := by
  decide +kernel

end Counterpart.Kotlin.TypeParams
