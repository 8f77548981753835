/-
Classes, read side by side. What is skipped between them keeps its brackets in order, save for closing braces inside angle
brackets and default values: a group of those is skipped token by token, and there no brace is looked at.
-/
import Counterpart.Proofs.RespacedParameters

namespace Counterpart.Kotlin

/-! ## Classes without texts and offsets -/

/-- What is kept of a stretch of source when only its presence counts. -/
def withoutText (text? : Option String) : Option String := text?.map fun _ => ""

def EnumEntry.erased (e : EnumEntry) : EnumEntry := { e with args := withoutText e.args }

mutual

/-- The class without the stretches of source that are kept verbatim and without its offset. -/
def ClassTree.erased : ClassTree → ClassTree
  | ⟨name, kind, typeParams, fields, entries, nested, _⟩ =>
    ⟨name, kind, withoutText typeParams, fields.map Field.erased, entries.map EnumEntry.erased, erasedAll nested, 0⟩

def ClassTree.erasedAll : List ClassTree → List ClassTree
  | [] => []
  | c :: cs => c.erased :: erasedAll cs

end

/-- What is read from a source, without texts and offsets. -/
def SourceUnit.erased (u : SourceUnit) : SourceUnit := { u with classes := ClassTree.erasedAll u.classes }

/-! ## Classes with other spellings -/

mutual

/-- Classes of the same kinds with as many members, whose names, types and annotations are spelled as `T` says. -/
inductive ClassTree.Alike (T : String → String → Prop) : ClassTree → ClassTree → Prop
  | mk {text text' : String} (htext : T text text') (kind : ClassKind) {typeParams typeParams' : Option String}
    {fields fields' : List Field} {entries entries' : List EnumEntry} {nested nested' : List ClassTree} (offset offset' : Nat)
    (htypeParams : withoutText typeParams = withoutText typeParams') (hfields : List.Forall₂ (Field.Alike T) fields fields')
    (hentries : entries.map EnumEntry.erased = entries'.map EnumEntry.erased) (hnested : ClassTree.AllAlike T nested nested') :
    ClassTree.Alike T ⟨Name.unquote text, kind, typeParams, fields, entries, nested, offset⟩
      ⟨Name.unquote text', kind, typeParams', fields', entries', nested', offset'⟩

inductive ClassTree.AllAlike (T : String → String → Prop) : List ClassTree → List ClassTree → Prop
  | nil : ClassTree.AllAlike T [] []
  | cons {c c' : ClassTree} {cs cs' : List ClassTree} (hc : ClassTree.Alike T c c') (hcs : ClassTree.AllAlike T cs cs') :
    ClassTree.AllAlike T (c :: cs) (c' :: cs')

end

/-- What is read from two sources but for the spelling of names. -/
structure SourceUnit.Alike (T : String → String → Prop) (u u' : SourceUnit) : Prop where
  package : PackageAlike T u.package u'.package
  imports : List.Forall₂ (Import.Alike T) u.imports u'.imports
  classes : ClassTree.AllAlike T u.classes u'.classes

theorem map_erased_eq_of_alike {fields fields' : List Field} (h : List.Forall₂ (Field.Alike Eq) fields fields') :
    fields.map Field.erased = fields'.map Field.erased := by
  induction h with
  | nil => rfl
  | cons hfield _ ih => rw [List.map_cons, List.map_cons, Field.erased_eq_of_alike hfield, ih]

mutual

theorem ClassTree.erased_eq_of_alike {c c' : ClassTree} : c.Alike Eq c' → c.erased = c'.erased
  | .mk htext _ _ _ htypeParams hfields hentries hnested => by
    rw [erased, erased, htext, htypeParams, map_erased_eq_of_alike hfields, hentries, erasedAll_eq_of_alike hnested]

theorem ClassTree.erasedAll_eq_of_alike {cs cs' : List ClassTree} : AllAlike Eq cs cs' → erasedAll cs = erasedAll cs'
  | .nil => rfl
  | .cons hc hcs => by rw [erasedAll, erasedAll, erased_eq_of_alike hc, erasedAll_eq_of_alike hcs]

end

theorem SourceUnit.erased_eq_of_alike {u u' : SourceUnit} (h : u.Alike Eq u') : u.erased = u'.erased := by
  have himports := h.imports.imp fun _ _ => Import.eq_of_alike
  rw [List.forall₂_eq_eq_eq] at himports
  rw [erased, erased, packageAlike_eq h.package, himports, ClassTree.erasedAll_eq_of_alike h.classes]

variable {T : String → String → Prop} {Z zs : List (Twin T)} {z : Twin T}

/-! ## Skipping members -/

theorem Aligned.startsDeclaration [Spelling T] (hZ : Aligned Z) (afterColon : Bool) (hzs : z :: zs <:+ Z) :
    startsDeclaration afterColon z.right (rights zs) = startsDeclaration afterColon z.left (lefts zs) := by
  have hclass : (z.right.text == "class") = (z.left.text == "class") := by
    have := z.contains_right ["class"] (by decide)
    simpa using this
  simp only [Kotlin.startsDeclaration, Twin.isName_right, hZ.isModifier hzs, hclass,
    z.contains_right declarationWords (List.subset_append_left _ _)]

theorem skipToDeclaration_alongside [Spelling T] (hZ : Aligned Z) (stopAtBrace afterColon : Bool) (zs : List (Twin T)) (hzs : zs <:+ Z) :
    Alongside Z Eq zs [] (skipToDeclaration stopAtBrace afterColon (lefts zs))
      (skipToDeclaration stopAtBrace afterColon (rights zs)) := by
  cases zs with
  | nil =>
    rw [lefts_nil, rights_nil, skipToDeclaration]
    exact .done rfl
  | cons z zs =>
    have hsuffix : zs <:+ Z := (List.suffix_cons z zs).trans hzs
    rw [lefts_cons, rights_cons, skipToDeclaration, skipToDeclaration]
    simp only [Twin.isMark_right, hZ.startsDeclaration afterColon hzs]
    split
    next => exact .done rfl
    next =>
      refine (skipOne_alongside (hzs.subset (by simp)) hsuffix.subset).bind hzs fun vs _ _ hlt _ hvs _ => ?_
      exact (skipToDeclaration_alongside hZ stopAtBrace _ vs hvs).bind hvs fun _ _ _ _ _ _ _ => .done rfl
termination_by zs.length
decreasing_by all_goals grind [length_lefts]

theorem skipMember_alongside [Spelling T] (hZ : Aligned Z) (hzs : z :: zs <:+ Z) :
    Alongside Z Eq (z :: zs) [] (skipMember z.left (lefts zs)) (skipMember z.right (rights zs)) := by
  have hsuffix : zs <:+ Z := (List.suffix_cons z zs).trans hzs
  rw [skipMember, skipMember]
  simp only [Twin.isMark_right]
  refine (skipOne_alongside (hzs.subset (by simp)) hsuffix.subset).bind hzs fun vs _ _ hlt _ hvs _ => ?_
  exact (skipToDeclaration_alongside hZ false _ vs hvs).bind hvs fun _ _ _ _ _ _ _ => .done rfl

/-! ## Class headers -/

theorem headIsWord_rights [Spelling T] (word : String) (hword : word ∈ askedWords) (zs : List (Twin T)) :
    (rights zs).head?.any (Token.isWord word) = (lefts zs).head?.any (Token.isWord word) := by
  cases zs with
  | nil => rfl
  | cons z zs => exact z.isWord_right word hword

theorem modifiers_alongside [Spelling T] (hZ : Aligned Z) (zs : List (Twin T)) (hzs : zs <:+ Z) :
    Alongside Z Eq zs [] (modifiers (lefts zs)) (modifiers (rights zs)) := by
  cases zs with
  | nil =>
    rw [lefts_nil, rights_nil, modifiers]
    exact .done rfl
  | cons z zs =>
    have hsuffix : zs <:+ Z := (List.suffix_cons z zs).trans hzs
    rw [lefts_cons, rights_cons, modifiers, modifiers]
    simp only [Twin.isMark_right, z.isWord_right "fun" (by decide), hZ.isModifier hzs,
      headIsWord_rights "interface" (by decide)]
    split
    next hat =>
      refine .plain (isBracket_of_isMark hat (by decide)) ?_
      refine (annotationUse_alongside hZ hsuffix).bind hsuffix fun vs _ _ hlt _ hvs _ => ?_
      exact (modifiers_alongside hZ vs hvs).bind hvs fun _ _ _ _ _ _ hwords => .done hwords
    next =>
      split
      next hmodifier =>
        rw [hZ.text_of_isModifier hzs hmodifier]
        simp only [isModifier, Bool.and_eq_true] at hmodifier
        refine .plain (isBracket_of_isName hmodifier.1.1) ?_
        refine (modifiers_alongside hZ zs hsuffix).bind hsuffix fun _ _ _ _ _ _ hwords => .done ?_
        exact congrArg (z.left.text :: ·) hwords
      next =>
        split
        next hfun =>
          refine .plain (isBracket_of_isWord (Bool.and_eq_true_iff.mp hfun).1) ?_
          exact (modifiers_alongside hZ zs hsuffix).bind hsuffix fun _ _ _ _ _ _ hwords => .done hwords
        next => exact .done rfl
termination_by zs.length
decreasing_by all_goals grind [length_lefts]

@[simp] theorem ClassKind.ofKeyword?_right [Spelling T] (words : List String) (z : Twin T) :
    ClassKind.ofKeyword? words z.right = ClassKind.ofKeyword? words z.left := by
  simp only [ClassKind.ofKeyword?, z.isWord_right "class" (by decide),
    z.isWord_right "interface" (by decide), z.isWord_right "object" (by decide)]

theorem askedWord_of_ofKeyword? {words : List String} {t : Token} {kind : ClassKind}
    (h : ClassKind.ofKeyword? words t = some kind) : t.isName = true ∧ t.text ∈ askedWords := by
  have hword {w : String} (hw : w ∈ askedWords) (ht : t.isWord w = true) : t.isName = true ∧ t.text ∈ askedWords := by
    rw [Token.isWord, Bool.and_eq_true, beq_iff_eq] at ht
    exact ⟨ht.1, ht.2 ▸ hw⟩
  unfold ClassKind.ofKeyword? at h
  split at h
  next ht => exact hword (by decide) ht
  next =>
    split at h
    next ht => exact hword (by decide) ht
    next =>
      split at h
      next ht => exact hword (by decide) ht
      next => cases h

theorem closeAngles_alongside {opener : Twin T} (hopener : opener ∈ Z) (depth : Nat) (zs : List (Twin T)) (hzs : zs <:+ Z) :
    Alongside Z Eq zs [] (closeAngles opener.left depth (lefts zs)) (closeAngles opener.right depth (rights zs)) := by
  cases zs with
  | nil =>
    rw [lefts_nil, rights_nil, closeAngles, closeAngles]
    split
    next => exact .done rfl
    next => exact .errorAt hopener
  | cons z zs =>
    have hsuffix : zs <:+ Z := (List.suffix_cons z zs).trans hzs
    rw [lefts_cons, rights_cons, closeAngles, closeAngles]
    simp only [Twin.isMark_right]
    split
    next => exact .done rfl
    next =>
      split
      next => exact .errorAt hopener
      next =>
        refine (skipOne_alongside (hzs.subset (by simp)) hsuffix.subset).bind hzs fun vs _ _ hlt _ hvs _ => ?_
        exact (closeAngles_alongside hopener _ vs hvs).bind hvs fun _ _ _ _ _ _ _ => .done rfl
termination_by zs.length
decreasing_by all_goals grind [length_lefts]

theorem typeParameters_alongside (hzs : zs <:+ Z) :
    Alongside Z (InvImage Eq withoutText) zs [] (typeParameters (lefts zs)) (typeParameters (rights zs)) := by
  rw [typeParameters, typeParameters]
  obtain ⟨z, vs, rfl, hmark, _, _, hleft, hright⟩ | ⟨hleft, hright⟩ := takeMark_cases '<' zs
  all_goals rw [hleft, hright]
  · have hsuffix : vs <:+ Z := (List.suffix_cons z vs).trans hzs
    refine .plain (isBracket_of_isMark hmark (by decide)) ?_
    exact (closeAngles_alongside (hzs.subset (by simp)) 1 vs hsuffix).bind hsuffix fun _ _ _ _ _ _ _ => .done rfl
  · exact .done rfl

theorem skipSupertypes_alongside [Spelling T] (hZ : Aligned Z) (hzs : zs <:+ Z) :
    Alongside Z Eq zs [] (skipSupertypes (lefts zs)) (skipSupertypes (rights zs)) := by
  rw [skipSupertypes, skipSupertypes, headIsWord_rights "where" (by decide)]
  obtain ⟨z, vs, rfl, hmark, _, _, hleft, hright⟩ | ⟨hleft, hright⟩ := takeMark_cases ':' zs
  all_goals rw [hleft, hright]
  · have hsuffix : vs <:+ Z := (List.suffix_cons z vs).trans hzs
    refine .plain (isBracket_of_isMark hmark (by decide)) ?_
    exact (skipToDeclaration_alongside hZ true true vs hsuffix).bind hsuffix fun _ _ _ _ _ _ _ => .done rfl
  · simp only [Parsed.keep]
    split
    next => exact skipToDeclaration_alongside hZ true false zs hzs
    next => exact .done rfl

/-! ## Enum entries -/

theorem entryArguments_alongside (hzs : zs <:+ Z) :
    Alongside Z (InvImage Eq withoutText) zs [] (entryArguments (lefts zs)) (entryArguments (rights zs)) := by
  cases zs with
  | nil => exact .done rfl
  | cons z zs =>
    simp only [lefts_cons, rights_cons, entryArguments, Twin.isMark_right]
    split
    next hparen => exact .group hparen (by decide) hzs fun _ _ _ _ => .done rfl
    next => exact .done rfl

theorem skipEntryBody_alongside (hzs : zs <:+ Z) :
    Alongside Z Eq zs [] (skipEntryBody (lefts zs)) (skipEntryBody (rights zs)) := by
  cases zs with
  | nil => exact .done rfl
  | cons z zs =>
    simp only [lefts_cons, rights_cons, skipEntryBody, Twin.isMark_right]
    split
    next hbrace => exact .group hbrace (by decide) hzs fun _ _ _ _ => .done rfl
    next => exact .done rfl

theorem enumEntry_alongside [Spelling T] (z : Twin T) (hzs : zs <:+ Z) :
    Alongside Z (InvImage Eq EnumEntry.erased) zs [] (enumEntry z.left (lefts zs)) (enumEntry z.right (rights zs)) := by
  rw [enumEntry, enumEntry, z.unquote_right]
  refine (entryArguments_alongside hzs).bind hzs fun vs args args' _ _ hvs hargs => ?_
  refine (skipEntryBody_alongside hvs).bind hvs fun _ _ _ _ _ _ _ => .done ?_
  simp only [InvImage, EnumEntry.erased, Parsed.map] at hargs ⊢
  rw [hargs]

theorem enumEntries_alongside [Spelling T] (hZ : Aligned Z) (zs : List (Twin T)) (hzs : zs <:+ Z) :
    Alongside Z (InvImage Eq (List.map EnumEntry.erased)) zs [] (enumEntries (lefts zs)) (enumEntries (rights zs)) := by
  rw [enumEntries, enumEntries]
  refine (skipAnnotations_alongside hZ zs hzs).bind hzs fun vs _ _ h₁ _ hvs _ => ?_
  cases vs with
  | nil => exact .errorAtEnd
  | cons z vs =>
    have hsuffix : vs <:+ Z := (List.suffix_cons z vs).trans hvs
    simp only [lefts_cons, rights_cons, Twin.isMark_right, Twin.isName_right]
    split
    next hend => exact .plain (isBracket_of_isMark hend (by decide)) (.done rfl)
    next =>
      split
      next => exact .done rfl
      next =>
        split
        next hname =>
          refine .plain (isBracket_of_isName hname) ?_
          refine (enumEntry_alongside z hsuffix).bind hsuffix fun vs₂ entry entry' h₂ _ hvs₂ hentry => ?_
          dsimp only
          obtain ⟨w, vs₃, rfl, hmark, _, _, hleft, hright⟩ | ⟨hleft, hright⟩ := takeMark_cases ',' vs₂
          all_goals rw [hleft, hright]
          · have hvs₃ : vs₃ <:+ Z := (List.suffix_cons w vs₃).trans hvs₂
            refine .plain (isBracket_of_isMark hmark (by decide)) ?_
            refine (enumEntries_alongside hZ vs₃ hvs₃).bind hvs₃ fun _ _ _ _ _ _ hentries => .done ?_
            exact congrArg₂ List.cons hentry hentries
          · have hsemicolon := takeMark_took (c := ';') (by decide) vs₂
            generalize takeMark ';' (lefts vs₂) = p, takeMark ';' (rights vs₂) = q at hsemicolon
            obtain ⟨ws, vs₃, hsplit, hcloses, -⟩ := hsemicolon
            exact .skip hcloses hsplit (.done (congrArg ([·]) hentry))
        next => exact .errorAt (hvs.subset (by simp))
termination_by zs.length
decreasing_by all_goals grind [length_lefts]

theorem entriesOf_alongside [Spelling T] (hZ : Aligned Z) (kind : ClassKind) (hzs : zs <:+ Z) :
    Alongside Z (InvImage Eq (List.map EnumEntry.erased)) zs [] (entriesOf kind (lefts zs)) (entriesOf kind (rights zs)) := by
  rw [entriesOf, entriesOf]
  split
  next => exact enumEntries_alongside hZ zs hzs
  next => exact .done rfl

/-! ## Classes -/

theorem className_alongside [Spelling T] (kind : ClassKind) {keyword : Twin T}
    (hkeyword : keyword.right.text = keyword.left.text) (hzs : zs <:+ Z) :
    AlongsideIfAny Z (InvImage T Token.text) zs [] (className kind keyword.left (lefts zs))
      (className kind keyword.right (rights zs)) := by
  cases zs with
  | nil =>
    simp only [lefts_nil, rights_nil, className, hkeyword]
    split
    next => exact .ok .none
    next => exact .errorAtEnd
  | cons z zs =>
    simp only [lefts_cons, rights_cons, className, Twin.isName_right, hkeyword,
      z.contains_right declarationWords (List.subset_append_left _ _)]
    split
    next hname =>
      rw [Bool.and_eq_true] at hname
      exact .ok (.some ⟨[z], zs, rfl, .plain (isBracket_of_isName hname.1) .nil, z.name hname.1⟩)
    next =>
      split
      next => exact .ok .none
      next => exact .errorAt (hzs.subset (by simp))

mutual

theorem classTree_alongside [Spelling T] (hZ : Aligned Z) (zs : List (Twin T)) (hzs : zs <:+ Z) :
    AlongsideIfAny Z (ClassTree.Alike T) zs [] (classTree (lefts zs)) (classTree (rights zs)) := by
  rw [classTree, classTree]
  refine .bind (modifiers_alongside hZ zs hzs) hzs fun vs words _ h₁ _ hvs heq => ?_
  subst heq
  cases vs with
  | nil => exact .ok .none
  | cons keyword vs =>
    have hsuffix : vs <:+ Z := (List.suffix_cons keyword vs).trans hvs
    simp only [lefts_cons, rights_cons, ClassKind.ofKeyword?_right]
    cases hkind : ClassKind.ofKeyword? words keyword.left with
    | none => exact .ok .none
    | some kind =>
      obtain ⟨hisName, hasked⟩ := askedWord_of_ofKeyword? hkind
      have hkeyword : keyword.right.text = keyword.left.text := (Spelling.word (keyword.name hisName) hasked).mpr rfl
      have hplain : Closes true [] (lefts [keyword]) := .plain (isBracket_of_isName hisName) .nil
      refine AlongsideIfAny.skip hplain rfl ?_
      refine Together.bind (className_alongside kind hkeyword hsuffix) fun o o' ho => ?_
      cases ho with
      | none => exact .ok .none
      | some hname =>
        obtain @⟨ws, vs₂, name, name', _, _, hsplit, hcloses, hname⟩ := hname
        have hvs₂ : vs₂ <:+ Z := (hsplit ▸ List.suffix_append ws vs₂).trans hsuffix
        refine AlongsideIfAny.skip hcloses hsplit ?_
        simp only [Spelling.unquote hname]
        refine .bind (typeParameters_alongside hvs₂) hvs₂ fun vs₃ typeParams typeParams' _ _ hvs₃ htypeParams => ?_
        refine .bind (primaryConstructor_alongside hZ hvs₃) hvs₃ fun vs₄ fields fields' _ _ hvs₄ hfields => ?_
        refine .bind (skipSupertypes_alongside hZ hvs₄) hvs₄ fun vs₅ _ _ _ _ hvs₅ _ => ?_
        refine .bind (classBody_alongside hZ kind _ vs₅ hvs₅) hvs₅ fun vs₆ body body' _ _ _ hbody => ?_
        refine .ok (.some ⟨[], vs₆, rfl, .nil, ?_⟩)
        have halike := ClassTree.Alike.mk hname kind name.start name'.start htypeParams hfields hbody.1 hbody.2
        rwa [Spelling.unquote hname] at halike
termination_by 2 * zs.length
decreasing_by all_goals grind [length_lefts]

theorem classBody_alongside [Spelling T] (hZ : Aligned Z) (kind : ClassKind) (name : String) (zs : List (Twin T)) (hzs : zs <:+ Z) :
    Alongside Z (fun b b' => b.1.map EnumEntry.erased = b'.1.map EnumEntry.erased ∧ ClassTree.AllAlike T b.2 b'.2) zs []
      (classBody kind name (lefts zs)) (classBody kind name (rights zs)) := by
  cases zs with
  | nil =>
    rw [lefts_nil, rights_nil, classBody]
    exact .done ⟨rfl, .nil⟩
  | cons opener zs =>
    have hsuffix : zs <:+ Z := (List.suffix_cons opener zs).trans hzs
    rw [lefts_cons, rights_cons, classBody, classBody, Twin.isMark_right]
    split
    next hbrace =>
      have hcloser : opener.left.closer? = some '\x7d' := by simp [Token.closer?, kind_of_isMark hbrace]
      refine .opens hcloser ?_
      refine (entriesOf_alongside hZ kind hsuffix).bind hsuffix fun vs₁ entries entries' h₁ _ hvs₁ hentries => ?_
      refine (members_alongside hZ vs₁ hvs₁).bind hvs₁ fun vs₂ nested nested' _ _ hvs₂ hnested => ?_
      dsimp only
      obtain ⟨z, vs₃, rfl, hmark, _, _, hleft, hright⟩ | ⟨hleft, hright⟩ := takeMark_cases '\x7d' vs₂
      all_goals rw [hleft, hright]
      · exact .closes (by simp [Token.closing?, kind_of_isMark hmark]) (.done ⟨hentries, hnested⟩)
      · exact .errorAt (hzs.subset (by simp))
    next => exact .done ⟨rfl, .nil⟩
termination_by 2 * zs.length
decreasing_by all_goals grind [length_lefts]

theorem members_alongside [Spelling T] (hZ : Aligned Z) (zs : List (Twin T)) (hzs : zs <:+ Z) :
    Alongside Z (ClassTree.AllAlike T) zs [] (members (lefts zs)) (members (rights zs)) := by
  cases zs with
  | nil =>
    rw [lefts_nil, rights_nil, members]
    exact .done .nil
  | cons z zs =>
    have hsuffix : zs <:+ Z := (List.suffix_cons z zs).trans hzs
    rw [lefts_cons, rights_cons, members, members, Twin.isMark_right, Twin.isMark_right]
    split
    next => exact .done .nil
    next =>
      split
      next hsemicolon =>
        refine .plain (isBracket_of_isMark hsemicolon (by decide)) ?_
        exact (members_alongside hZ zs hsuffix).bind hsuffix fun _ _ _ _ _ _ hcs => .done hcs
      next =>
        refine Together.bind (classTree_alongside hZ (z :: zs) hzs) fun o o' ho => ?_
        cases ho with
        | none =>
          refine (skipMember_alongside hZ hzs).bind hzs fun vs _ _ hlt _ hvs _ => ?_
          exact (members_alongside hZ vs hvs).bind hvs fun _ _ _ _ _ _ hcs => .done hcs
        | some hc =>
          obtain ⟨ws, vs, hsplit, hcloses, hc⟩ := hc
          have hvs : vs <:+ Z := (hsplit ▸ List.suffix_append ws vs).trans hzs
          refine Alongside.skip hcloses hsplit ?_
          exact (members_alongside hZ vs hvs).bind hvs fun _ _ _ _ _ _ hcs => .done (.cons hc hcs)
termination_by 2 * zs.length + 1
decreasing_by all_goals grind [length_lefts]

end

end Counterpart.Kotlin
