/-
Reading sources with checks. The checked reader declares what the machines over characters and the readers of lists declare, it
comes to an end on every source, and no check fails (`Reader.sourceUnit_ends`). The classes it finds stand at names, in the order
of the source (`Consumed`).
-/
import Counterpart.Proofs.CheckedClasses

namespace Counterpart.Kotlin

open Text

/-! ## The places of classes -/

mutual

/-- A class and the classes nested in it, in the order of the source. -/
def ClassTree.withNested : ClassTree → List ClassTree
  | ⟨name, kind, typeParams, fields, entries, nested, offset⟩ =>
    ⟨name, kind, typeParams, fields, entries, nested, offset⟩ :: withNestedAll nested

def ClassTree.withNestedAll : List ClassTree → List ClassTree
  | [] => []
  | c :: cs => c.withNested ++ withNestedAll cs

end

/-- The name of a class and where it stands. -/
def ClassTree.place (c : ClassTree) : String × Nat := (c.name, c.offset)

/-- The names among tokens, without backticks, and where they stand. -/
def namePlaces (ts : List Token) : List (String × Nat) := (ts.filter Token.isName).map fun t => (Name.unquote t.text, t.start)

/-- Of the tokens `ts` those up to `rest` have names in these places, in this order. -/
def Consumed (ts rest : List Token) (places : List (String × Nat)) : Prop :=
  ∃ front, ts = front ++ rest ∧ places.Sublist (namePlaces front)

namespace Consumed

variable {t : Token} {ts us rest : List Token} {ps qs : List (String × Nat)}

theorem of_suffix (h : rest <:+ ts) : Consumed ts rest [] := by
  obtain ⟨front, rfl⟩ := h
  exact ⟨front, rfl, List.nil_sublist _⟩

theorem suffix (h : Consumed ts rest ps) : rest <:+ ts := by
  obtain ⟨front, rfl, -⟩ := h
  exact List.suffix_append front rest

theorem append (h : Consumed ts us ps) (h' : Consumed us rest qs) : Consumed ts rest (ps ++ qs) := by
  obtain ⟨front, rfl, hps⟩ := h
  obtain ⟨front', rfl, hqs⟩ := h'
  refine ⟨front ++ front', (List.append_assoc _ _ _).symm, ?_⟩
  rw [namePlaces, List.filter_append, List.map_append]
  exact hps.append hqs

theorem before (h : rest <:+ ts) (h' : Consumed rest us ps) : Consumed ts us ps := (of_suffix h).append h'

theorem behind (h : Consumed ts us ps) (h' : rest <:+ us) : Consumed ts rest ps := by
  have := h.append (of_suffix h')
  rwa [List.append_nil] at this

theorem name (h : t.isName = true) : Consumed (t :: ts) ts [(Name.unquote t.text, t.start)] :=
  ⟨[t], rfl, by simp [namePlaces, h]⟩

end Consumed

variable {source : String} {s : TokenStream}

theorem Tracks.suffix {α : Type} {n : Nat} {x : Reader source α} {ts : List Token} {y : Except Fault (Parsed α n)}
    {p : Parsed α n} (h : Tracks s x ts y) (hy : y = .ok p) : p.rest <:+ ts := by
  subst hy
  exact h.1

mutual

theorem classTree_consumed (hs : s.Lossless source) (ts : List Token) (hts : ts <:+ s.tokens) {p : Parsed ClassTree ts.length}
    (hc : classTree ts = .ok (some p)) : Consumed ts p.rest (p.value.withNested.map ClassTree.place) := by
  rw [classTree] at hc
  obtain ⟨⟨words, ts₁, h₁⟩, hwords, hc⟩ := exists_of_bind_ok hc
  have hsuffix₁ := (Tracks.modifiers hs ts hts).suffix hwords
  cases ts₁ with
  | nil => cases hc
  | cons keyword ts₁ =>
    dsimp only at hc hsuffix₁
    have hts₁ := ((List.suffix_cons keyword ts₁).trans hsuffix₁).trans hts
    cases hkind : ClassKind.ofKeyword? words keyword with
    | none =>
      rw [hkind] at hc
      cases hc
    | some kind =>
      rw [hkind] at hc
      obtain ⟨found, hname, hc⟩ := exists_of_bind_ok hc
      cases found with
      | none => cases hc
      | some q =>
        obtain ⟨name, ts₂, h₂⟩ := q
        obtain ⟨rfl, hisName⟩ := className_ok hname
        have hts₂ := (List.suffix_cons name ts₂).trans hts₁
        obtain ⟨⟨typeParams, ts₃, h₃⟩, hparams, hc⟩ := exists_of_bind_ok hc
        have hsuffix₃ := (Tracks.typeParameters hs hts₂).suffix hparams
        obtain ⟨⟨fields, ts₄, h₄⟩, hfields, hc⟩ := exists_of_bind_ok hc
        have hsuffix₄ := (Tracks.primaryConstructor hs (hsuffix₃.trans hts₂)).suffix hfields
        obtain ⟨⟨_, ts₅, h₅⟩, hsupertypes, hc⟩ := exists_of_bind_ok hc
        have hsuffix₅ := (Tracks.skipSupertypes hs (hsuffix₄.trans (hsuffix₃.trans hts₂))).suffix hsupertypes
        obtain ⟨⟨⟨entries, nested⟩, rest, h⟩, hbody, hc⟩ := exists_of_bind_ok hc
        cases hc
        have hsuffix : ts₅ <:+ ts₂ := hsuffix₅.trans (hsuffix₄.trans hsuffix₃)
        have hnested := classBody_consumed hs kind _ ts₅ (hsuffix.trans hts₂) hbody
        have hplace := (Consumed.name hisName).append (.before hsuffix hnested)
        exact .before ((List.suffix_cons keyword _).trans hsuffix₁) hplace
termination_by 2 * ts.length
decreasing_by all_goals grind

theorem classBody_consumed (hs : s.Lossless source) (kind : ClassKind) (name : String) (ts : List Token) (hts : ts <:+ s.tokens)
    {p : Parsed (List EnumEntry × List ClassTree) (ts.length + 1)} (hc : classBody kind name ts = .ok p) :
    Consumed ts p.rest ((ClassTree.withNestedAll p.value.2).map ClassTree.place) := by
  cases ts with
  | nil =>
    rw [classBody] at hc
    cases hc
    exact .of_suffix (List.suffix_refl _)
  | cons opener ts =>
    have hsuffix := (List.suffix_cons opener ts).trans hts
    rw [classBody] at hc
    split at hc
    next =>
      obtain ⟨⟨entries, ts₁, h₁⟩, hentries, hc⟩ := exists_of_bind_ok hc
      have hsuffix₁ := (Tracks.entriesOf hs kind hsuffix).suffix hentries
      obtain ⟨⟨nested, ts₂, h₂⟩, hnested, hc⟩ := exists_of_bind_ok hc
      have hconsumed := members_consumed hs ts₁ (hsuffix₁.trans hsuffix) hnested
      have hclose := Tracks.eat source (hconsumed.suffix.trans (hsuffix₁.trans hsuffix)) '\x7d'
      dsimp only at hc
      generalize takeMark '\x7d' ts₂ = q at hc hclose
      obtain ⟨found, rest, h⟩ := q
      cases found with
      | false => cases hc
      | true =>
        cases hc
        exact .before (hsuffix₁.trans (List.suffix_cons opener ts)) (hconsumed.behind hclose.1)
    next =>
      cases hc
      exact .of_suffix (List.suffix_refl _)
termination_by 2 * ts.length
decreasing_by all_goals grind

theorem members_consumed (hs : s.Lossless source) (ts : List Token) (hts : ts <:+ s.tokens)
    {p : Parsed (List ClassTree) (ts.length + 1)} (hc : members ts = .ok p) :
    Consumed ts p.rest ((ClassTree.withNestedAll p.value).map ClassTree.place) := by
  cases ts with
  | nil =>
    rw [members] at hc
    cases hc
    exact .of_suffix (List.suffix_refl _)
  | cons t ts =>
    have hsuffix := (List.suffix_cons t ts).trans hts
    rw [members] at hc
    split at hc
    next =>
      cases hc
      exact .of_suffix (List.suffix_refl _)
    split at hc
    next =>
      obtain ⟨q, hmembers, hc⟩ := exists_of_bind_ok hc
      cases hc
      exact .before (List.suffix_cons t ts) (members_consumed hs ts hsuffix hmembers)
    next =>
      obtain ⟨found, hclass, hc⟩ := exists_of_bind_ok hc
      cases found with
      | none =>
        obtain ⟨⟨_, ts₁, h₁⟩, hskip, hc⟩ := exists_of_bind_ok hc
        have hrest := (Tracks.skipMember hs hts).suffix hskip
        obtain ⟨q, hmembers, hc⟩ := exists_of_bind_ok hc
        cases hc
        exact .before hrest (members_consumed hs ts₁ (hrest.trans hts) hmembers)
      | some q =>
        have hconsumed := classTree_consumed hs (t :: ts) hts hclass
        obtain ⟨c, ts₁, h₁⟩ := q
        obtain ⟨⟨cs, rest, h⟩, hmembers, hc⟩ := exists_of_bind_ok hc
        cases hc
        have hrest := members_consumed hs ts₁ (hconsumed.suffix.trans hts) hmembers
        rw [ClassTree.withNestedAll, List.map_append]
        exact hconsumed.append hrest
termination_by 2 * ts.length + 1
decreasing_by all_goals grind

end

/-! ## Sources -/

namespace Tracks

variable {source : String} {s : TokenStream} {α β : Type} {n : Nat} {ts : List Token} {x : Reader source α}
  {k : α → Reader source β} {y : Except Fault (Parsed α n)} {f : Parsed α n → Except Fault β}

/-- A reader that goes on to the end of the source. -/
theorem finish (hx : Tracks s x ts y) (hk : ∀ a rest h, rest <:+ ts → (k a).Ends (s.index rest)
      ((·, s.tokens.length) <$> (f ⟨a, rest, h⟩).mapError (Fault.toError s.size))) :
    (x >>= k).Ends (s.index ts) ((·, s.tokens.length) <$> (y >>= f).mapError (Fault.toError s.size)) := by
  cases y with
  | ok p => exact (Reader.Ends.bind_iff hx.2).mpr (hk p.value p.rest p.rest_lt hx.1)
  | error e => exact Reader.Ends.bind_error hx k

theorem ends_file (hs : s.Lossless source) (hts : ts <:+ s.tokens) :
    ((s.spans source).file : Reader source SourceUnit).Ends (s.index ts)
      ((·, s.tokens.length) <$> (SourceUnit.ofTokens ts).mapError (Fault.toError s.size)) := by
  rw [TokenSpans.file, SourceUnit.ofTokens]
  refine finish (annotations hs ts hts) fun _ ts₁ _ h₁ => ?_
  have hts₁ := h₁.trans hts
  refine finish (package hs hts₁) fun name ts₂ _ h₂ => ?_
  have hts₂ := h₂.trans hts₁
  refine finish (imports hs ts₂ hts₂) fun directives ts₃ _ h₃ => ?_
  have hts₃ := h₃.trans hts₂
  refine finish (members hs ts₃ hts₃) fun classes rest _ hrest => ?_
  have hrest := hrest.trans hts₃
  rw [Reader.Ends.bind_iff (ends_tokenAt hrest 0)]
  cases rest with
  | nil =>
    rw [TokenStream.index_nil]
    exact .pure _ _
  | cons t us => exact ends_refuse hs (hrest.subset List.mem_cons_self) _ _

end Tracks

/-- The classes that a source declares stand at names of it, in their order. -/
theorem SourceUnit.places_sublist {source : String} {s : TokenStream} (hs : TokenStream.ofSource source = .ok s) {u : SourceUnit}
    (hu : SourceUnit.ofTokens s.tokens = .ok u) :
    ((ClassTree.withNestedAll u.classes).map ClassTree.place).Sublist (namePlaces s.tokens) := by
  have hlossless := TokenStream.lossless hs
  have hts := List.suffix_refl s.tokens
  rw [SourceUnit.ofTokens] at hu
  obtain ⟨⟨_, ts₁, h₁⟩, hannotations, hu⟩ := exists_of_bind_ok hu
  have hts₁ := ((Tracks.annotations hlossless _ hts).suffix hannotations).trans hts
  obtain ⟨⟨package, ts₂, h₂⟩, hpackage, hu⟩ := exists_of_bind_ok hu
  have hts₂ := ((Tracks.package hlossless hts₁).suffix hpackage).trans hts₁
  obtain ⟨⟨imports, ts₃, h₃⟩, himports, hu⟩ := exists_of_bind_ok hu
  have hts₃ := ((Tracks.imports hlossless ts₂ hts₂).suffix himports).trans hts₂
  obtain ⟨⟨classes, rest, h₄⟩, hmembers, hu⟩ := exists_of_bind_ok hu
  cases rest with
  | nil =>
    cases hu
    obtain ⟨front, hfront, hplaces⟩ := Consumed.before hts₃ (members_consumed hlossless ts₃ hts₃ hmembers)
    rwa [hfront, List.append_nil]
  | cons t us => cases hu

/-- The classes of a source are declared at different offsets, in the order in which they start. -/
theorem SourceUnit.offsets_increasing {source : String} {u : SourceUnit} (hu : SourceUnit.ofSource source = .ok u) :
    (ClassTree.withNestedAll u.classes).Pairwise fun c d => c.offset < d.offset := by
  obtain ⟨s, hs, hu⟩ := SourceUnit.ofSource_ok hu
  have hlossless := TokenStream.lossless hs
  have hstarts : s.tokens.Pairwise fun t v => t.start < v.start := by
    refine hlossless.ordered.imp_of_mem fun ht _ hle => ?_
    exact Nat.lt_of_lt_of_le (hlossless.nonempty _ ht) hle
  have hnames : (namePlaces s.tokens).Pairwise fun p q => p.2 < q.2 := List.pairwise_map.mpr (hstarts.sublist List.filter_sublist)
  have hplaces := hnames.sublist (SourceUnit.places_sublist hs hu)
  exact (List.pairwise_map (f := ClassTree.place)).mp hplaces

namespace Reader

/-- The reader of sources does what is done with the tokens of a stream. -/
theorem ends_sourceUnit (source : String) :
    ∃ pos, (sourceUnit : Reader source SourceUnit).Ends 0 ((·, pos) <$> SourceUnit.ofSource source) := by
  have htokenize := ends_tokenize source
  rw [sourceUnit, SourceUnit.ofSource]
  cases hs : TokenStream.ofSource source with
  | error e =>
    rw [hs] at htokenize
    exact ⟨0, htokenize.bind_error _⟩
  | ok s =>
    rw [hs] at htokenize
    have hindex : s.index s.tokens = 0 := Nat.sub_self _
    have hfile := Tracks.ends_file (TokenStream.lossless hs) (List.suffix_refl s.tokens)
    rw [hindex] at hfile
    exact ⟨s.tokens.length, htokenize.bind_iff.mpr ((Ends.bind_iff (.set _ _)).mpr hfile)⟩

/-- **No check fails** on any source: cutting it into tokens and reading them come to an end, with the tokens and the declarations
of the source, or with an error that stands in it. Each class, the nested ones included, is declared where its name stands. -/
theorem sourceUnit_ends (source : String) :
    (∃ pos, (tokenize : Reader source (List TokenSpan)).Ends 0
      ((fun s => (s.spans source, pos)) <$> TokenStream.ofSource source)) ∧
    (∃ pos, (sourceUnit : Reader source SourceUnit).Ends 0 ((·, pos) <$> SourceUnit.ofSource source)) ∧
    match SourceUnit.ofSource source with
    | .error e => InSource source e.span
    | .ok u => ∃ s, TokenStream.ofSource source = .ok s ∧ ∀ c ∈ ClassTree.withNestedAll u.classes,
        ∃ t ∈ s.tokens, t.isName = true ∧ t.start = c.offset ∧ Name.unquote t.text = c.name := by
  obtain ⟨pos, hends⟩ := ends_sourceUnit source
  refine ⟨⟨_, ends_tokenize source⟩, ⟨pos, hends⟩, ?_⟩
  cases hu : SourceUnit.ofSource source with
  | error e =>
    rw [hu] at hends
    exact hends.choose
  | ok u =>
    obtain ⟨s, hs, hunit⟩ := SourceUnit.ofSource_ok hu
    refine ⟨s, hs, fun c hc => ?_⟩
    have hplace := (SourceUnit.places_sublist hs hunit).subset (List.mem_map_of_mem hc)
    obtain ⟨t, ht, hplace⟩ := List.mem_map.mp hplace
    obtain ⟨ht, hname⟩ := List.mem_filter.mp ht
    rw [ClassTree.place, Prod.mk.injEq] at hplace
    exact ⟨t, ht, hname, hplace.2, hplace.1⟩

example : (match SourceUnit.ofSource "val é = \"ü" with | .error e => some e.span | .ok _ => none) = some ⟨9, 1⟩ := by
  decide +kernel

end Reader

end Counterpart.Kotlin
