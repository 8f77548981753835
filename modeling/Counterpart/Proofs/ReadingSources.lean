/-
The top of a source is read back: its package and its imports, each an import of a dotted name, with an alias or a star.
-/
import Counterpart.Proofs.ReadingClasses

namespace Counterpart.Kotlin

open Text
open List (Forall₂)

variable {ts us : List Token} {es rest : List Lexeme}

/-! ## Words -/

theorem takeWord_word {w : String} (h : Forall₂ Token.Fits ts (.word w :: es)) :
    ∃ us hlt, takeWord w ts = ⟨true, us, hlt⟩ ∧ Forall₂ Token.Fits us es := by
  obtain ⟨t, us, ht, hus, rfl⟩ := List.forall₂_cons_right_iff.mp h
  refine ⟨us, Nat.lt_succ_of_lt (Nat.lt_succ_self us.length), ?_, hus⟩
  rw [takeWord, if_pos (by simp [ht.isWord_word])]
  rfl

theorem isWord_of_text_ne {w : String} (h : Forall₂ Token.Fits ts es) (hes : ∀ e ∈ es.head?, e.text ≠ w) :
    ∀ t ∈ ts.head?, t.isWord w = false := by
  cases h with
  | nil => simp
  | cons ht hts =>
    rintro _ ⟨⟩
    rw [Token.isWord, ht.2.1, Bool.and_eq_false_imp]
    exact fun _ => beq_eq_false_iff_ne.mpr (hes _ rfl)

theorem takeWord_of_text_ne {w : String} (h : Forall₂ Token.Fits ts es) (hes : ∀ e ∈ es.head?, e.text ≠ w) :
    takeWord w ts = .keep false ts := by
  have := isWord_of_text_ne h hes
  cases ts with
  | nil => rfl
  | cons t ts => rw [takeWord, if_neg (by simp [this t rfl])]

/-! ## Packages -/

theorem packageDirective_some {us : List Token} {hlt} (htake : takeWord "package" ts = ⟨true, us, hlt⟩) {p}
    (hp : dottedName .package us = .ok p) (hsemicolon : takeMark ';' p.rest = .keep false p.rest) :
    ∃ q, packageDirective ts = .ok q ∧ q.value = p.value ∧ q.rest = p.rest := by
  rw [packageDirective, htake]
  simp only [bind, Except.bind, if_true]
  rw [hp]
  simp only
  rw [hsemicolon]
  exact ⟨_, rfl, rfl, rfl⟩

theorem packageDirective_none (htake : takeWord "package" ts = .keep false ts) :
    packageDirective ts = .ok (.keep "" ts) := by
  rw [packageDirective, htake]
  rfl

/-! ## Imports -/

/-- A directive that names what it imports by identifiers without quotes. -/
structure Import.Plain (i : Import) : Prop where
  path : ∀ s ∈ split '.' i.path, Name.isPlain s
  localAlias : ∀ name ∈ i.localAlias, Name.isPlain name
  star : i.star → i.localAlias = none

/-- What stands behind the path of a directive. -/
def Import.endLexemes (i : Import) : List Lexeme :=
  if i.star then [.mark '.', .mark '*']
  else match i.localAlias with
    | some name => [.word "as", .word name]
    | none => []

def Import.lexemes (i : Import) : List Lexeme :=
  pathLexemes (split '.' i.path) ++ i.endLexemes

/-- What stands behind a directive: the next one, or a class. -/
def FollowsImport (es : List Lexeme) : Prop :=
  ∀ e ∈ es.head?, e ∈ [.word "import", .word "data", .word "enum", .word "class"]

theorem FollowsImport.notAt {marks : List Char} (h : FollowsImport es) : NotAt marks es := by
  intro e he
  have := h e he
  simp only [List.mem_cons, List.not_mem_nil, or_false] at this
  rcases this with rfl | rfl | rfl | rfl <;> exact fun c _ hc => by cases hc

theorem FollowsImport.text_ne {w : String} (h : FollowsImport es) (hw : w ∉ ["import", "data", "enum", "class"]) :
    ∀ e ∈ es.head?, e.text ≠ w := by
  rintro e he rfl
  have := h e he
  simp only [List.mem_cons, List.not_mem_nil, or_false] at this
  rcases this with rfl | rfl | rfl | rfl <;> simp [Lexeme.word] at hw

theorem importDirective_star {p} (hp : dottedName .importPath ts = .ok p) {dot : Token} {us : List Token}
    (hrest : p.rest = dot :: us) (hdot : dot.isMark '.') (hstar : atMark '*' us) :
    ∃ q, importDirective ts = .ok q ∧ q.value = .everything p.value ∧ q.rest = us.drop 1 := by
  obtain ⟨path, _, hlt⟩ := p
  subst hrest
  rw [importDirective, hp]
  simp only [bind, Except.bind, hdot, hstar, Bool.and_self, if_true]
  exact ⟨_, rfl, rfl, rfl⟩

theorem importDirective_alias {p} (hp : dottedName .importPath ts = .ok p) {t : Token} {us : List Token}
    (hrest : p.rest = t :: us) (hdot : t.isMark '.' = false) (has : t.isWord "as") {q}
    (hq : simpleName .importAlias us = .ok q) :
    ∃ r, importDirective ts = .ok r ∧ r.value = ⟨p.value, some q.value, false⟩ ∧ r.rest = q.rest := by
  obtain ⟨path, _, hlt⟩ := p
  subst hrest
  rw [importDirective, hp]
  simp only [bind, Except.bind, hdot, has, Bool.false_and, Bool.false_eq_true, if_false, if_true]
  rw [hq]
  exact ⟨_, rfl, rfl, rfl⟩

theorem importDirective_symbol {p} (hp : dottedName .importPath ts = .ok p) (hdot : ∀ t ∈ p.rest.head?, t.isMark '.' = false)
    (has : ∀ t ∈ p.rest.head?, t.isWord "as" = false) :
    ∃ q, importDirective ts = .ok q ∧ q.value = .symbol p.value ∧ q.rest = p.rest := by
  obtain ⟨path, left, hlt⟩ := p
  rw [importDirective, hp]
  simp only [bind, Except.bind]
  cases left with
  | nil => exact ⟨_, rfl, rfl, rfl⟩
  | cons t us =>
    simp only [hdot t rfl, has t rfl, Bool.false_and, Bool.false_eq_true, if_false]
    exact ⟨_, rfl, rfl, rfl⟩

theorem importDirective_reads {i : Import} (hi : i.Plain) (hrest : FollowsImport rest) :
    Reads importDirective i.lexemes rest (· = i) := by
  obtain ⟨path, localAlias, star⟩ := i
  intro ts hts
  rw [Import.lexemes, List.append_assoc] at hts
  have hjoin : join "." (split '.' path) = path := join_split '.' path
  cases star with
  | true =>
    have hnone : localAlias = none := hi.star rfl
    subst hnone
    obtain ⟨p, hp, hvalue, hfits⟩ := dottedName_reads .importPath (split_ne_nil '.' path) (.inr ⟨rest, rfl⟩) ts hts
    obtain ⟨t, us, ht, hus, htus⟩ := List.forall₂_cons_right_iff.mp hfits
    obtain ⟨u, vs, hu, hvs, rfl⟩ := List.forall₂_cons_right_iff.mp hus
    obtain ⟨q, hq, hqvalue, hqrest⟩ := importDirective_star hp htus (by simp [ht.isMark_mark]) (by simp [atMark, hu.isMark_mark])
    refine ⟨q, hq, ?_, by rwa [hqrest]⟩
    rw [hqvalue, hvalue, hjoin]
    rfl
  | false =>
    cases localAlias with
    | some name =>
      obtain ⟨p, hp, hvalue, hfits⟩ := dottedName_reads .importPath (split_ne_nil '.' path) (.inl notAt_word) ts hts
      obtain ⟨t, us, ht, hus, htus⟩ := List.forall₂_cons_right_iff.mp hfits
      obtain ⟨q, hq, hqvalue, hqfits⟩ := simpleName_reads .importAlias name us hus
      obtain ⟨r, hr, hrvalue, hrrest⟩ := importDirective_alias hp htus (ht.isMark_word _) (by simp [ht.isWord_word]) hq
      refine ⟨r, hr, ?_, by rwa [hrrest]⟩
      rw [hrvalue, hvalue, hqvalue, hjoin]
    | none =>
      obtain ⟨p, hp, hvalue, hfits⟩ := dottedName_reads .importPath (split_ne_nil '.' path) (.inl hrest.notAt) ts hts
      obtain ⟨q, hq, hqvalue, hqrest⟩ := importDirective_symbol hp (isMark_of_notAt hfits hrest.notAt (List.mem_singleton_self '.'))
        (isWord_of_text_ne hfits (hrest.text_ne (by decide)))
      refine ⟨q, hq, ?_, by rwa [hqrest]⟩
      rw [hqvalue, hvalue, hjoin]
      rfl

theorem importDirectives_more {us : List Token} {hlt} (htake : takeWord "import" ts = ⟨true, us, hlt⟩) {p}
    (hp : importDirective us = .ok p) (hsemicolon : takeMark ';' p.rest = .keep false p.rest) {q}
    (hq : importDirectives p.rest = .ok q) :
    ∃ r, importDirectives ts = .ok r ∧ r.value = p.value :: q.value ∧ r.rest = q.rest := by
  rw [importDirectives, htake]
  simp only [bind, Except.bind]
  rw [hp]
  simp only
  rw [hsemicolon]
  simp only [Parsed.keep]
  rw [hq]
  exact ⟨_, rfl, rfl, rfl⟩

theorem importDirectives_end (htake : takeWord "import" ts = .keep false ts) :
    importDirectives ts = .ok (.keep [] ts) := by
  rw [importDirectives, htake]
  rfl

/-- Whether the directives are followed by a class or by nothing. -/
def FollowsImports (es : List Lexeme) : Prop :=
  ∀ e ∈ es.head?, e ∈ [.word "data", .word "enum", .word "class"]

theorem FollowsImports.followsImport (h : FollowsImports es) (is : List Import) :
    FollowsImport (is.flatMap (fun i => .word "import" :: i.lexemes) ++ es) := by
  cases is with
  | nil => exact fun e he => List.mem_cons_of_mem _ (h e he)
  | cons => rintro _ ⟨⟩; decide

theorem importDirectives_reads {is : List Import} (his : ∀ i ∈ is, i.Plain) (hrest : FollowsImports rest) :
    Reads importDirectives (is.flatMap fun i => .word "import" :: i.lexemes) rest (· = is) := by
  induction is with
  | nil =>
    intro ts hts
    refine ⟨_, importDirectives_end (takeWord_of_text_ne hts ?_), rfl, hts⟩
    rintro e he himport
    have := hrest e he
    simp only [List.mem_cons, List.not_mem_nil, or_false] at this
    rcases this with rfl | rfl | rfl <;> simp [Lexeme.word] at himport
  | cons i is ih =>
    intro ts hts
    rw [List.flatMap_cons, List.append_assoc, List.cons_append] at hts
    have hnext := hrest.followsImport is
    obtain ⟨us, hlt, htake, hus⟩ := takeWord_word hts
    obtain ⟨p, hp, hvalue, hfits⟩ := importDirective_reads (his i List.mem_cons_self) hnext us hus
    obtain ⟨q, hq, hvalues, hqfits⟩ := ih (fun j hj => his j (List.mem_cons_of_mem i hj)) p.rest hfits
    have hsemicolon := takeMark_of_notAt hfits hnext.notAt (List.mem_singleton_self ';')
    obtain ⟨r, hr, hrvalue, hrrest⟩ := importDirectives_more htake hp hsemicolon hq
    exact ⟨r, hr, by rw [hrvalue, hvalue, hvalues], by rwa [hrrest]⟩

/-! ## Sources -/

/-- The directive of a package; none for the default package. -/
def packageLexemes (package : String) : List Lexeme :=
  if package.isEmpty then [] else .word "package" :: pathLexemes (split '.' package)

theorem packageDirective_reads (package : String) (hrest : FollowsImport rest) :
    Reads packageDirective (packageLexemes package) rest (· = package) := by
  intro ts hts
  rw [packageLexemes] at hts
  split at hts
  next hempty =>
    rw [String.isEmpty_iff] at hempty
    exact ⟨_, packageDirective_none (takeWord_of_text_ne hts (hrest.text_ne (by decide))), hempty.symm, hts⟩
  next =>
    obtain ⟨us, hlt, htake, hus⟩ := takeWord_word hts
    obtain ⟨p, hp, hvalue, hfits⟩ := dottedName_reads .package (split_ne_nil '.' package) (.inl hrest.notAt) us hus
    obtain ⟨q, hq, hqvalue, hqrest⟩ :=
      packageDirective_some htake hp (takeMark_of_notAt hfits hrest.notAt (List.mem_singleton_self ';'))
    refine ⟨q, hq, ?_, by rwa [hqrest]⟩
    rw [hqvalue, hvalue]
    exact join_split '.' package

theorem ofTokens_ok {p₀} (hskip : skipAnnotations ts = .ok p₀) {p₁} (hpackage : packageDirective p₀.rest = .ok p₁) {p₂}
    (himports : importDirectives p₁.rest = .ok p₂) {p₃} (hclasses : members p₂.rest = .ok p₃) (hrest : p₃.rest = []) :
    SourceUnit.ofTokens ts = .ok ⟨p₁.value, p₂.value, p₃.value⟩ := by
  obtain ⟨classes, _, hlt⟩ := p₃
  subst hrest
  rw [SourceUnit.ofTokens, hskip]
  simp only [bind, Except.bind]
  rw [hpackage]
  simp only
  rw [himports]
  simp only
  rw [hclasses]
  rfl

theorem Lexer.kind_of_hash {cs : List Char} (h : Lexes ('#' :: cs) es) : ∃ e us, es = e :: us ∧ e.kind = .mark '#' := by
  obtain ⟨ts, tail, htokens, hfits⟩ := h.tokens 0
  obtain ⟨n, hgap, hcases⟩ := tokens_ok htokens
  rw [gapLength_between_start (by decide) (by decide)] at hgap
  cases hgap
  obtain ⟨hdrop, -, -⟩ | ⟨c, rest, kind, m, us, hdrop, hlexeme, -, rfl⟩ := hcases
  · cases hdrop
  · cases hdrop
    obtain ⟨e, es', he, -, rfl⟩ := List.forall₂_cons_left_iff.mp hfits
    refine ⟨e, es', rfl, ?_⟩
    rw [← he.1]
    cases hlexeme
    rfl

theorem ofSource_reads {source : String} (h : Lexes source.toList es) (hes : NotAt ['#'] es) :
    ∃ stream, TokenStream.ofSource source = .ok stream ∧ Forall₂ Token.Fits stream.tokens es := by
  obtain ⟨ts, tail, htokens, hfits⟩ := h.tokens 0
  have hhash : ['#', '!'].isPrefixOf source.toList = false := by
    by_contra hhash
    rw [Bool.not_eq_false, List.isPrefixOf_iff_prefix] at hhash
    obtain ⟨cs, hcs⟩ := hhash
    rw [← hcs] at h
    obtain ⟨e, us, rfl, hkind⟩ := Lexer.kind_of_hash h
    exact hes e rfl '#' List.mem_cons_self hkind
  exact ⟨_, TokenStream.ofSource_eq (by rw [hhash]; rfl) htokens, hfits⟩

end Counterpart.Kotlin
