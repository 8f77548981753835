/-
The order of import directives. Two sets into which the same imports were put, in whatever order and however often, have the same
directives; those of parsed imports are all different; dropping imports leaves the other directives in their places
(`ImportSet.directives_ordered`). A parsed directive can be told apart from all others by its text: its path ends at the first
blank or star outside of quotes.
-/
import Mathlib.Data.List.Nodup
import Mathlib.Data.List.Perm.Basic
import Mathlib.Data.Prod.Basic
import Counterpart.Proofs.Importing
import Counterpart.Proofs.Phrases
import Counterpart.Proofs.Run
import Counterpart.Proofs.TypeSyntax

namespace Counterpart

open Kotlin Text

namespace Output.ImportSet

/-! ## Pairs of a package and a symbol -/

/-- The imports one by one. -/
def pairs (s : ImportSet) : List (String × String) := s.groups.flatMap fun g => g.2.map (g.1, ·)

/-- The directive that imports a symbol of a package. -/
def written (e : String × String) : String := Name.inPackage e.1 e.2

/-- The imports in the order of their directives. -/
def listing (s : ImportSet) : List (String × String) := s.pairs.mergeSort fun a b => !(decide (written b < written a))

variable {s t : ImportSet} {e : String × String} {package symbol : String}

theorem mem_pairs : e ∈ s.pairs ↔ s.hasSymbol e.1 e.2 = true := by
  obtain ⟨package, symbol⟩ := e
  rw [hasSymbol_iff, pairs, List.mem_flatMap]
  simp only [List.mem_map, Prod.mk.injEq]
  constructor
  · rintro ⟨g, hg, symbol', hsymbol, rfl, rfl⟩
    exact ⟨g, hg, rfl, hsymbol⟩
  · rintro ⟨g, hg, rfl, hsymbol⟩
    exact ⟨g, hg, symbol, hsymbol, rfl, rfl⟩

theorem mem_listing : e ∈ s.listing ↔ s.hasSymbol e.1 e.2 = true := by
  rw [listing, List.mem_mergeSort, mem_pairs]

theorem directives_eq_map_listing (s : ImportSet) : s.directives = s.listing.map written := by
  rw [listing, List.map_mergeSort (s := fun a b => !(decide (b < a))) fun _ _ _ _ => rfl, directives, pairs, List.map_flatMap]
  simp only [List.map_map]
  rfl

theorem sorted_directives (s : ImportSet) : s.directives.Pairwise (· ≤ ·) := by
  have hsorted : s.directives.Pairwise fun a b => !(decide (b < a)) := by
    refine List.pairwise_mergeSort (fun a b c hab hbc => ?_) (fun a b => ?_) _
    · simp only [Bool.not_eq_true', decide_eq_false_iff_not, String.not_lt] at hab hbc ⊢
      exact String.le_trans hab hbc
    · simp only [Bool.or_eq_true, Bool.not_eq_true', decide_eq_false_iff_not, String.not_lt]
      exact String.le_total a b
  refine hsorted.imp fun h => ?_
  rwa [Bool.not_eq_true', decide_eq_false_iff_not, String.not_lt] at h

/-- Directives in order are those of any imports that are the same but for their order. -/
theorem directives_eq_map {es : List (String × String)} (hperm : s.pairs.Perm es)
    (hsorted : (es.map written).Pairwise (· ≤ ·)) : s.directives = es.map written := by
  refine List.Perm.eq_of_pairwise (fun _ _ _ _ => String.le_antisymm) s.sorted_directives hsorted ?_
  rw [directives_eq_map_listing]
  exact ((List.mergeSort_perm _ _).trans hperm).map written

/-! ## Tidy sets -/

/-- Every package has one group, and every symbol one place in it. -/
structure Tidy (s : ImportSet) : Prop where
  packages : (s.groups.map Prod.fst).Nodup
  symbols : ∀ g ∈ s.groups, g.2.Pairwise (· < ·)

theorem insertSorted_sorted {ts : List String} (h : ts.Pairwise (· < ·)) : (insertSorted symbol ts).Pairwise (· < ·) := by
  induction ts with
  | nil => exact List.pairwise_singleton _ _
  | cons u us ih =>
    obtain ⟨hu, hus⟩ := List.pairwise_cons.mp h
    rw [insertSorted]
    split
    next hlt =>
      refine List.pairwise_cons.mpr ⟨fun v hv => ?_, h⟩
      rcases List.mem_cons.mp hv with rfl | hv
      · exact hlt
      · exact String.lt_trans hlt (hu v hv)
    split
    next => exact h
    next hnot hne =>
      refine List.pairwise_cons.mpr ⟨fun v hv => ?_, ih hus⟩
      rcases mem_insertSorted.mp hv with rfl | hv
      · exact String.not_le.mp fun hle => hne (String.le_antisymm hle (String.not_lt.mp hnot))
      · exact hu v hv

theorem packages_addToGroups (groups : List (String × List String)) :
    (addToGroups package symbol groups).map Prod.fst =
      if package ∈ groups.map Prod.fst then groups.map Prod.fst else groups.map Prod.fst ++ [package] := by
  induction groups with
  | nil => rfl
  | cons g groups ih =>
    obtain ⟨p, symbols⟩ := g
    rw [addToGroups]
    by_cases hp : p = package
    · simp [hp]
    · simp only [if_neg hp, List.map_cons, ih, List.mem_cons, Ne.symm hp, false_or]
      split <;> rfl

theorem symbols_addToGroups {groups : List (String × List String)} (h : ∀ g ∈ groups, g.2.Pairwise (· < ·)) :
    ∀ g ∈ addToGroups package symbol groups, g.2.Pairwise (· < ·) := by
  induction groups with
  | nil =>
    intro g hg
    cases List.mem_singleton.mp hg
    exact List.pairwise_singleton _ _
  | cons g groups ih =>
    obtain ⟨hg, hgroups⟩ := List.forall_mem_cons.mp h
    obtain ⟨p, symbols⟩ := g
    rw [addToGroups]
    split
    next => exact List.forall_mem_cons.mpr ⟨insertSorted_sorted hg, hgroups⟩
    next => exact List.forall_mem_cons.mpr ⟨hg, ih hgroups⟩

namespace Tidy

theorem empty : Tidy empty := ⟨List.nodup_nil, fun _ h => absurd h List.not_mem_nil⟩

theorem add (h : s.Tidy) (package symbol : String) : (s.add package symbol).Tidy where
  packages := by
    rw [ImportSet.add, packages_addToGroups]
    split
    next => exact h.packages
    next hnew => exact List.concat_eq_append ▸ h.packages.concat hnew
  symbols := symbols_addToGroups h.symbols

theorem addReference (h : s.Tidy) (name package : String) : (s.addReference name package).Tidy := by
  rw [ImportSet.addReference]
  split
  · exact h
  · exact h.add _ _

theorem nodup_pairs (h : s.Tidy) : s.pairs.Nodup := by
  refine List.nodup_flatMap.mpr ⟨fun g hg => ?_, ?_⟩
  · have hne : g.2.Nodup := (h.symbols g hg).imp fun {a b} (hlt : a < b) => String.ne_of_lt hlt
    exact hne.map (Prod.mk_right_injective g.1)
  · refine (List.pairwise_map.mp h.packages).imp fun hne => ?_
    simp only [Function.onFun, List.disjoint_left, List.mem_map]
    rintro _ ⟨a, -, rfl⟩ ⟨b, -, heq⟩
    exact hne (congrArg Prod.fst heq).symm

/-- Tidy sets with the same imports have the same directives. -/
theorem directives_congr (hs : s.Tidy) (ht : t.Tidy) (h : ∀ e : String × String, s.hasSymbol e.1 e.2 = t.hasSymbol e.1 e.2) :
    s.directives = t.directives := by
  have hperm : s.pairs.Perm t.pairs := (List.perm_ext_iff_of_nodup hs.nodup_pairs ht.nodup_pairs).mpr fun e => by
    rw [mem_pairs, mem_pairs, h e]
  have hlisting : s.pairs.Perm t.listing := hperm.trans (List.mergeSort_perm _ _).symm
  rw [directives_eq_map_listing t]
  exact directives_eq_map hlisting (directives_eq_map_listing t ▸ t.sorted_directives)

/-- Directives of a tidy set that are told apart by their texts are all different. -/
theorem increasing (h : s.Tidy) (hinj : ∀ e ∈ s.pairs, ∀ e' ∈ s.pairs, written e = written e' → e = e') :
    s.directives.Pairwise (· < ·) := by
  have hnodup : s.directives.Nodup := by
    rw [directives_eq_map_listing]
    refine ((List.mergeSort_perm _ _).map written).nodup_iff.mpr ?_
    exact h.nodup_pairs.map_on hinj
  exact (hnodup.and s.sorted_directives).imp fun ⟨hne, hle⟩ => String.not_le.mp fun hge => hne (String.le_antisymm hle hge)

end Tidy

/-! ## Dropping imports -/

theorem pairs_retain (keep : String → String → Bool) (s : ImportSet) :
    (s.retain keep).pairs = s.pairs.filter fun e => keep e.1 e.2 := by
  rw [pairs, pairs, retain, List.filter_flatMap]
  induction s.groups with
  | nil => rfl
  | cons g groups ih =>
    have hgroup : (g.2.map (g.1, ·)).filter (fun e => keep e.1 e.2) = (g.2.filter (keep g.1)).map (g.1, ·) := by
      rw [List.filter_map]
      rfl
    rw [List.map_cons, List.filter_cons, List.flatMap_cons, hgroup]
    split
    next => rw [List.flatMap_cons, ih]
    next hempty =>
      have hnil : g.2.filter (keep g.1) = [] := by simpa using hempty
      rw [hnil, ih]
      rfl

theorem directives_retain (keep : String → String → Bool) (s : ImportSet) :
    (s.retain keep).directives = (s.listing.filter fun e => keep e.1 e.2).map written := by
  refine directives_eq_map ?_ ?_
  · rw [pairs_retain]
    exact ((List.mergeSort_perm _ _).filter _).symm
  · have hsorted := s.sorted_directives
    rw [directives_eq_map_listing] at hsorted
    exact hsorted.sublist (List.filter_sublist.map written)

/-! ## Putting imports in -/

/-- The ways of putting imports into a set. -/
inductive Addition
  | directive (i : Import)
  | reference (name : String)
  /-- Everything that another set imports. -/
  | merged (other : ImportSet)

namespace Addition

/-- The set with what is added; `package` is that of the file. -/
def addTo (package : String) (s : ImportSet) : Addition → ImportSet
  | directive i => s.addImport i
  | reference name => s.addReference name package
  | merged other => s.merge other

/-- The imports that are added: none for a name that the file sees anyway. -/
def Adds (package : String) (e : String × String) : Addition → Prop
  | directive i => e = entryOf i
  | reference name => NeedsImport name package ∧ e = entryOfName name
  | merged other => other.hasSymbol e.1 e.2 = true

end Addition

/-- The set after a number of additions. -/
def ofAdditions (package : String) (additions : List Addition) : ImportSet := additions.foldl (Addition.addTo package) empty

theorem foldl_add_group (package : String) (symbols : List String) (s : ImportSet) (hs : s.Tidy) :
    (symbols.foldl (fun s symbol => s.add package symbol) s).Tidy ∧ ∀ a b,
      ((symbols.foldl (fun s symbol => s.add package symbol) s).hasSymbol a b = true ↔
        s.hasSymbol a b = true ∨ package = a ∧ b ∈ symbols) := by
  induction symbols generalizing s with
  | nil => exact ⟨hs, fun a b => by simp⟩
  | cons symbol symbols ih =>
    obtain ⟨htidy, hhas⟩ := ih (s.add package symbol) (hs.add package symbol)
    refine ⟨htidy, fun a b => ?_⟩
    rw [List.foldl_cons, hhas, hasSymbol_add, Prod.mk.injEq, List.mem_cons]
    grind

theorem merge_spec (s other : ImportSet) (hs : s.Tidy) : (s.merge other).Tidy ∧
    ∀ a b, ((s.merge other).hasSymbol a b = true ↔ s.hasSymbol a b = true ∨ other.hasSymbol a b = true) := by
  simp only [hasSymbol_iff (i := other), merge]
  induction other.groups generalizing s with
  | nil => exact ⟨hs, fun a b => by simp⟩
  | cons g groups ih =>
    obtain ⟨hgroup, hhasGroup⟩ := foldl_add_group g.1 g.2 s hs
    obtain ⟨htidy, hhas⟩ := ih _ hgroup
    refine ⟨htidy, fun a b => ?_⟩
    rw [List.foldl_cons, hhas, hhasGroup, List.exists_mem_cons_iff, or_assoc]

/-- One addition: the set stays tidy and has what is added. -/
theorem Addition.addTo_spec (package : String) (a : Addition) (hs : s.Tidy) : (a.addTo package s).Tidy ∧
    ∀ e : String × String, ((a.addTo package s).hasSymbol e.1 e.2 = true ↔ a.Adds package e ∨ s.hasSymbol e.1 e.2 = true) := by
  cases a with
  | directive i => exact ⟨hs.add _ _, fun e => hasSymbol_add⟩
  | reference name =>
    rw [Addition.addTo]
    exact ⟨hs.addReference name package, fun e => hasSymbol_addReference⟩
  | merged other =>
    obtain ⟨htidy, hhas⟩ := merge_spec s other hs
    exact ⟨htidy, fun e => (hhas e.1 e.2).trans or_comm⟩

/-- A sequence of additions: the set is tidy and has what any of them adds. -/
theorem ofAdditions_spec (package : String) (additions : List Addition) : (ofAdditions package additions).Tidy ∧
    ∀ e : String × String, ((ofAdditions package additions).hasSymbol e.1 e.2 = true ↔ ∃ a ∈ additions, a.Adds package e) := by
  have hfold : ∀ s : ImportSet, s.Tidy → (additions.foldl (Addition.addTo package) s).Tidy ∧ ∀ e : String × String,
      ((additions.foldl (Addition.addTo package) s).hasSymbol e.1 e.2 = true ↔
        s.hasSymbol e.1 e.2 = true ∨ ∃ a ∈ additions, a.Adds package e) := by
    induction additions with
    | nil => exact fun s hs => ⟨hs, fun e => by simp⟩
    | cons a additions ih =>
      intro s hs
      obtain ⟨hadded, hhas⟩ := a.addTo_spec package hs
      obtain ⟨htidy, hrest⟩ := ih _ hadded
      refine ⟨htidy, fun e => ?_⟩
      rw [List.foldl_cons, hrest, hhas, List.exists_mem_cons_iff, or_comm (a := a.Adds package e), or_assoc]
  obtain ⟨htidy, hhas⟩ := hfold empty .empty
  exact ⟨htidy, fun e => (hhas e).trans (by simp [empty, hasSymbol])⟩

end Output.ImportSet

/-! ## Parsed imports -/

namespace Kotlin

variable {ts : List Token} {i : Import} {cs : List Char}

/-- What the tokens of a directive read as: a path of names, a star or another name for the symbol. -/
structure Import.ReadFrom (ts : List Token) (i : Import) : Prop where
  path : ∃ path, path ⊆ ts ∧ TypeSyntax.IsPath path ∧ i.path = TypeSyntax.pathName path
  localName : ∀ name ∈ i.localAlias, ∃ t ∈ ts, t.isName ∧ t.text = name

theorem Import.ReadFrom.mono {us : List Token} (h : i.ReadFrom ts) (hsub : ts ⊆ us) : i.ReadFrom us := by
  obtain ⟨path, hpath, hread⟩ := h.path
  refine ⟨⟨path, List.Subset.trans hpath hsub, hread⟩, fun name hname => ?_⟩
  obtain ⟨t, ht, htext⟩ := h.localName name hname
  exact ⟨t, hsub ht, htext⟩

theorem simpleName_syntax {role : NameRole} {p} (h : simpleName role ts = .ok p) :
    ∃ t, ts = t :: p.rest ∧ t.isName ∧ t.text = p.value := by
  cases ts with
  | nil => cases h
  | cons t ts =>
    rw [simpleName] at h
    split at h
    next ht =>
      cases h
      exact ⟨t, rfl, ht, rfl⟩
    next => cases h

theorem importDirective_syntax {p} (h : importDirective ts = .ok p) : p.value.ReadFrom ts ∧ p.rest <:+ ts := by
  rw [importDirective] at h
  obtain ⟨q, hq, h⟩ := exists_of_bind_ok h
  obtain ⟨path, hsplit, hvalue, hpath⟩ := dottedName_syntax hq
  have hread : ∃ path, path ⊆ ts ∧ TypeSyntax.IsPath path ∧ q.value = TypeSyntax.pathName path :=
    ⟨path, hsplit ▸ List.subset_append_left .., hpath, hvalue⟩
  have hsuffix : q.rest <:+ ts := ⟨path, hsplit.symm⟩
  split at h
  next =>
    cases h
    exact ⟨⟨hread, nofun⟩, hsuffix⟩
  next value t us _ =>
    split at h
    next =>
      cases h
      exact ⟨⟨hread, nofun⟩, (List.drop_suffix 1 us).trans ((List.suffix_cons t us).trans hsuffix)⟩
    split at h
    next =>
      obtain ⟨r, hr, h⟩ := exists_of_bind_ok h
      cases h
      obtain ⟨u, hus, hu, htext⟩ := simpleName_syntax hr
      have hback : us <:+ ts := (List.suffix_cons t us).trans hsuffix
      refine ⟨⟨hread, ?_⟩, List.IsSuffix.trans ⟨[u], hus.symm⟩ hback⟩
      rintro _ ⟨⟩
      exact ⟨u, hback.subset (by rw [hus]; exact List.mem_cons_self), hu, htext⟩
    next =>
      cases h
      exact ⟨⟨hread, nofun⟩, hsuffix⟩

theorem takeWord_suffix (word : String) (ts : List Token) : (takeWord word ts).rest <:+ ts := by
  obtain ⟨taken, hsplit, -⟩ := takeWord_syntax word ts
  exact ⟨taken, hsplit.symm⟩

theorem takeMark_suffix (c : Char) (ts : List Token) : (takeMark c ts).rest <:+ ts := by
  obtain ⟨taken, hsplit, -⟩ := takeMark_syntax c ts
  exact ⟨taken, hsplit.symm⟩

theorem packageDirective_suffix {p} (h : packageDirective ts = .ok p) : p.rest <:+ ts := by
  have htake := takeWord_suffix "package" ts
  rw [packageDirective] at h
  split at h
  next found us hlt heq =>
    rw [heq] at htake
    cases found
    next =>
      cases h
      exact List.suffix_refl ts
    next =>
      obtain ⟨q, hq, h⟩ := exists_of_bind_ok h
      cases h
      obtain ⟨path, hsplit, -⟩ := dottedName_syntax hq
      exact (takeMark_suffix ';' q.rest).trans (List.IsSuffix.trans ⟨path, hsplit.symm⟩ htake)

theorem readFrom_importDirectives (ts : List Token) {p} (h : importDirectives ts = .ok p) : ∀ i ∈ p.value, i.ReadFrom ts := by
  have htake := takeWord_suffix "import" ts
  rw [importDirectives] at h
  split at h
  next =>
    cases h
    simp [Parsed.keep]
  next us hlt heq =>
    rw [heq] at htake
    obtain ⟨q, hq, h⟩ := exists_of_bind_ok h
    obtain ⟨r, hr, h⟩ := exists_of_bind_ok h
    cases h
    obtain ⟨hread, hrest⟩ := importDirective_syntax hq
    have hsuffix : (takeMark ';' q.rest).rest <:+ ts := ((takeMark_suffix ';' q.rest).trans hrest).trans htake
    have hshorter : (takeMark ';' q.rest).rest.length < ts.length := by
      have := (takeMark ';' q.rest).rest_lt
      have := q.rest_lt
      omega
    intro i hi
    rcases List.mem_cons.mp hi with rfl | hi
    · exact hread.mono htake.subset
    · exact (readFrom_importDirectives _ hr i hi).mono hsuffix.subset
termination_by ts.length
decreasing_by exact hshorter

/-- A directive of some source. -/
def Import.IsParsed (i : Import) : Prop := ∃ source u, SourceUnit.ofSource source = .ok u ∧ i ∈ u.imports

/-- Its names are texts of name tokens. -/
theorem Import.IsParsed.readFrom (h : i.IsParsed) : ∃ ts, (∀ t ∈ ts, t.isName → IsNameText t.text) ∧ i.ReadFrom ts := by
  obtain ⟨source, u, hu, hi⟩ := h
  obtain ⟨stream, hstream, hu⟩ := SourceUnit.ofSource_ok hu
  refine ⟨stream.tokens, fun t ht hname => isNameText_of_mem_stream hstream ht (by simpa [Token.isName] using hname), ?_⟩
  rw [SourceUnit.ofTokens] at hu
  obtain ⟨p₁, hp₁, hu⟩ := exists_of_bind_ok hu
  obtain ⟨p₂, hp₂, hu⟩ := exists_of_bind_ok hu
  obtain ⟨p₃, hp₃, hu⟩ := exists_of_bind_ok hu
  obtain ⟨p₄, hp₄, hu⟩ := exists_of_bind_ok hu
  have hsuffix : p₂.rest <:+ stream.tokens := (packageDirective_suffix hp₂).trans (skipAnnotations_suffix _ hp₁)
  split at hu
  next =>
    cases hu
    exact (readFrom_importDirectives _ hp₃ i hi).mono hsuffix.subset
  next => cases hu

/-! ## The path at the start of a directive -/

/-- What stands before the first blank or star outside of quotes; `quoted` inside of them. -/
def pathPart (quoted : Bool) : List Char → List Char
  | [] => []
  | c :: cs =>
    if !quoted && (c == ' ' || c == '*') then [] else c :: pathPart (if c = '\x60' then !quoted else quoted) cs

theorem pathPart_nameChars {ds : List Char} (h : ∀ c ∈ ds, isNameChar c = true) (cs : List Char) :
    pathPart false (ds ++ cs) = ds ++ pathPart false cs := by
  induction ds with
  | nil => rfl
  | cons c ds ih =>
    have hc := h c List.mem_cons_self
    have hplain : c ≠ ' ' ∧ c ≠ '*' ∧ c ≠ '\x60' := by
      refine ⟨?_, ?_, ?_⟩
      all_goals
        rintro rfl
        exact absurd hc (by decide)
    rw [List.cons_append, pathPart, if_neg (by simp [hplain]), if_neg hplain.2.2, ih fun d hd => h d (List.mem_cons_of_mem c hd)]
    rfl

theorem pathPart_quoted {ds : List Char} (h : '\x60' ∉ ds) (cs : List Char) :
    pathPart true (ds ++ '\x60' :: cs) = ds ++ '\x60' :: pathPart false cs := by
  induction ds with
  | nil => rfl
  | cons c ds ih =>
    rw [List.mem_cons, not_or] at h
    rw [List.cons_append, pathPart, if_neg (by simp), if_neg (Ne.symm h.1), ih h.2]
    rfl

theorem pathPart_name {s : String} (h : IsNameText s) (cs : List Char) :
    pathPart false (s.toList ++ cs) = s.toList ++ pathPart false cs := by
  obtain hplain | ⟨ds, hds, hquote⟩ := h
  · exact pathPart_nameChars (isNameChar_of_isPlain hplain) cs
  · rw [hds, List.cons_append, pathPart, if_neg (by decide), if_pos rfl, List.append_assoc, List.singleton_append, Bool.not_false,
      pathPart_quoted hquote]
    simp

/-- The text of a path: names with dots between them. -/
structure IsPathText (s : String) : Prop where
  pathPart : ∀ cs, pathPart false (s.toList ++ cs) = s.toList ++ pathPart false cs
  head : s.toList.head? ≠ some '.'
  last : s.toList.getLast? ≠ some '.'
  ne : s.toList ≠ []

theorem isPathText_of_isNameText {s : String} (h : IsNameText s) : IsPathText s where
  pathPart := pathPart_name h
  head hdot := by
    obtain hplain | ⟨ds, hds, -⟩ := h
    · exact absurd (isNameChar_of_isPlain hplain '.' (List.mem_of_head? hdot)) (by decide)
    · simp [hds] at hdot
  last hdot := by
    obtain hplain | ⟨ds, hds, -⟩ := h
    · exact absurd (isNameChar_of_isPlain hplain '.' (List.mem_of_getLast? hdot)) (by decide)
    · rw [hds, ← List.cons_append, List.getLast?_concat] at hdot
      cases hdot
  ne hnil := by
    obtain hplain | ⟨ds, hds, -⟩ := h
    · simp [Name.isPlain, hnil] at hplain
    · simp [hds] at hnil

theorem IsPathText.dotted {s t : String} (hs : IsNameText s) (ht : IsPathText t) : IsPathText (s ++ ("." ++ t)) where
  pathPart cs := by
    have hdot : ∀ ds, Kotlin.pathPart false ('.' :: ds) = '.' :: Kotlin.pathPart false ds := fun ds => rfl
    simp only [String.toList_append, List.append_assoc]
    rw [pathPart_name hs]
    exact congrArg (s.toList ++ '.' :: ·) (ht.pathPart cs)
  head := by
    have hname := isPathText_of_isNameText hs
    rw [String.toList_append, List.head?_append_of_ne_nil _ hname.ne]
    exact hname.head
  last := by
    rw [String.toList_append, String.toList_append, List.getLast?_append_of_ne_nil _ (by simp),
      List.getLast?_append_of_ne_nil _ ht.ne]
    exact ht.last
  ne := by simp

theorem isPathText_pathName {path : List Token} (h : TypeSyntax.IsPath path) (hnames : ∀ t ∈ path, t.isName → IsNameText t.text) :
    IsPathText (TypeSyntax.pathName path) := by
  induction h with
  | name ht =>
    have hname := hnames _ (List.mem_singleton_self _) ht
    simpa [TypeSyntax.pathName, isMark_of_isName ht] using isPathText_of_isNameText hname
  | @dot t dot path ht hdot h ih =>
    have hpath := ih fun u hu => hnames u (by simp [hu])
    have hname := hnames t (by simp) ht
    simpa [TypeSyntax.pathName, isMark_of_isName ht, hdot] using IsPathText.dotted hname hpath

theorem Import.IsParsed.isPathText (h : i.IsParsed) : IsPathText i.path := by
  obtain ⟨ts, hnames, ⟨path, hsub, hpath, htext⟩, -⟩ := h.readFrom
  rw [htext]
  exact isPathText_pathName hpath fun t ht => hnames t (hsub ht)

theorem Import.pathPart_text (h : IsPathText i.path) :
    pathPart false i.text.toList = i.path.toList ++ if i.star then ['.'] else [] := by
  rw [Import.text]
  split
  · rw [String.toList_append, h.pathPart]
    rfl
  split
  · rw [String.toList_append, String.toList_append, List.append_assoc, h.pathPart]
    rfl
  · simpa [pathPart] using h.pathPart []

/-- A path does not end with a dot, so that of a star can be told from that of a symbol. -/
theorem IsPathText.append_dot_injective {s t : String} (hs : IsPathText s) (ht : IsPathText t) {dot dot' : Bool}
    (h : s.toList ++ (if dot then ['.'] else []) = t.toList ++ if dot' then ['.'] else []) : s = t ∧ dot = dot' := by
  have hlast := congrArg List.getLast? h
  cases dot <;> cases dot' <;> simp only [Bool.false_eq_true, if_true, if_false, List.append_nil, List.getLast?_concat] at h hlast
  · exact ⟨String.toList_inj.mp h, rfl⟩
  · exact absurd hlast hs.last
  · exact absurd hlast.symm ht.last
  · exact ⟨String.toList_inj.mp (List.append_inj_left' h rfl), rfl⟩

/-- Parsed directives with the same text import the same. -/
theorem Import.text_injective {j : Import} (hi : i.IsParsed) (hj : j.IsParsed) (h : i.text = j.text) :
    i.path = j.path ∧ i.star = j.star ∧ (i.star = false → i.localAlias = j.localAlias) := by
  have hparts := congrArg (pathPart false ·.toList) h
  simp only [pathPart_text hi.isPathText, pathPart_text hj.isPathText] at hparts
  obtain ⟨hpath, hstar⟩ := hi.isPathText.append_dot_injective hj.isPathText hparts
  refine ⟨hpath, hstar, fun hsymbol => ?_⟩
  rw [text, text, ← hstar, hsymbol, ← hpath] at h
  simp only [Bool.false_eq_true, if_false] at h
  cases hi : i.localAlias <;> cases hj : j.localAlias <;> simp only [hi, hj] at h
  · rfl
  · simp [← String.toList_inj] at h
  · simp [← String.toList_inj] at h
  · simpa [← String.toList_inj] using h

end Kotlin

/-! ## Directives of parsed imports -/

namespace Output.ImportSet

theorem inPackage_packageOf {path : String} (h : path.toList.head? ≠ some '.') (symbol : String) :
    Name.inPackage (Name.packageOf path) (Name.shortName path ++ symbol) = path ++ symbol := by
  have hsplit : path.toList = (path.toList.reverse.dropWhile (· != '.')).reverse ++ (Name.shortName path).toList := by
    rw [Name.shortName, String.toList_ofList, ← List.reverse_append, List.takeWhile_append_dropWhile, List.reverse_reverse]
  rw [Name.inPackage, Name.packageOf]
  cases hdrop : path.toList.reverse.dropWhile (· != '.') with
  | nil =>
    rw [hdrop, List.reverse_nil, List.nil_append] at hsplit
    have hshort : Name.shortName path = path := (String.toList_inj.mp hsplit).symm
    rw [List.drop_nil, if_pos (by decide), hshort]
  | cons c package =>
    have hc : c = '.' := by
      have := List.head_dropWhile_not (· != '.') (l := path.toList.reverse) (by simp [hdrop])
      simpa [hdrop] using this
    have hpackage : package ≠ [] := by
      rintro rfl
      rw [hsplit, hdrop, hc] at h
      exact h rfl
    rw [hdrop, hc] at hsplit
    rw [List.drop_one, List.tail_cons, if_neg (by simpa [String.isEmpty_iff, ← String.toList_inj] using hpackage),
      ← String.toList_inj]
    simp only [String.toList_append, String.toList_ofList, hsplit]
    simp

theorem written_entryOf {i : Import} (h : IsPathText i.path) : written (entryOf i) = i.text := by
  rw [entryOf, Import.text]
  split
  · have hne : ¬ i.path.isEmpty = true := by
      rw [String.isEmpty_iff, ← String.toList_inj]
      exact h.ne
    rw [written, Name.inPackage, if_neg hne, String.append_assoc]
    rfl
  · cases i.localAlias with
    | none => simpa [written] using inPackage_packageOf h.head ""
    | some name =>
      simp only [written, String.append_assoc]
      exact inPackage_packageOf h.head _

theorem entryOf_injective {i j : Import} (hi : i.IsParsed) (hj : j.IsParsed)
    (h : written (entryOf i) = written (entryOf j)) : entryOf i = entryOf j := by
  rw [written_entryOf hi.isPathText, written_entryOf hj.isPathText] at h
  obtain ⟨hpath, hstar, halias⟩ := Import.text_injective hi hj h
  rw [entryOf, entryOf, ← hstar, ← hpath]
  split
  · rfl
  next hsymbol => rw [halias (by simpa using hsymbol)]

/-! ## Order of directives -/

/-- **Directives** do not depend on the order and number of additions; those of parsed imports are strictly increasing; they are the
imports in an order that stays when some are dropped. -/
theorem directives_ordered (package : String) :
    (∀ additions additions' : List Addition,
      (∀ e, (∃ a ∈ additions, a.Adds package e) ↔ ∃ a ∈ additions', a.Adds package e) →
        (ofAdditions package additions).directives = (ofAdditions package additions').directives) ∧
    (∀ additions : List Addition, (∀ a ∈ additions, ∀ e, a.Adds package e → ∃ i : Import, i.IsParsed ∧ e = entryOf i) →
        (ofAdditions package additions).directives.Pairwise (· < ·)) ∧
    ∀ s : ImportSet, (∀ e, e ∈ s.listing ↔ s.hasSymbol e.1 e.2 = true) ∧ s.directives = s.listing.map written ∧
      ∀ keep : String → String → Bool, (s.retain keep).directives = (s.listing.filter fun e => keep e.1 e.2).map written := by
  refine ⟨fun additions additions' h => ?_, fun additions h => ?_, fun s => ⟨fun e => mem_listing, directives_eq_map_listing s, ?_⟩⟩
  · obtain ⟨htidy, hhas⟩ := ofAdditions_spec package additions
    obtain ⟨htidy', hhas'⟩ := ofAdditions_spec package additions'
    exact htidy.directives_congr htidy' fun e => Bool.eq_iff_iff.mpr (by rw [hhas, hhas', h])
  · obtain ⟨htidy, hhas⟩ := ofAdditions_spec package additions
    have hparsed : ∀ e ∈ (ofAdditions package additions).pairs, ∃ i : Import, i.IsParsed ∧ e = entryOf i := by
      intro e he
      obtain ⟨a, ha, hadds⟩ := (hhas e).mp (mem_pairs.mp he)
      exact h a ha e hadds
    refine htidy.increasing fun e he e' he' heq => ?_
    obtain ⟨i, hi, rfl⟩ := hparsed e he
    obtain ⟨j, hj, rfl⟩ := hparsed e' he'
    exact entryOf_injective hi hj heq
  · exact fun keep => directives_retain keep s

/-- A star import of a quoted package, a symbol under its own and under another name, and one that every file sees. -/
def mixedAdditions : List Addition :=
  [.directive (.everything "`a.b`"), .directive ⟨"lib.Key", some "K", false⟩, .reference "lib.Key", .reference "kotlin.Int"]

/-- The same imports in another order, some of them more than once. -/
def reorderedAdditions : List Addition :=
  [.reference "lib.Key", .directive ⟨"lib.Key", some "K", false⟩,
    .merged (ofAdditions "app" [.directive ⟨"lib.Key", some "K", false⟩, .directive (.everything "`a.b`")]),
    .directive (.symbol "lib.Key")]

theorem adds_mixedAdditions (e : String × String) :
    (∃ a ∈ mixedAdditions, a.Adds "app" e) ↔ e ∈ [("`a.b`", "*"), ("lib", "Key as K"), ("lib", "Key")] := by
  have hkey : NeedsImport "lib.Key" "app" := ⟨by decide +kernel, by decide +kernel, by decide +kernel⟩
  have hint : ¬ NeedsImport "kotlin.Int" "app" := fun h => absurd h.notDefault (by decide +kernel)
  have hname : entryOfName "lib.Key" = ("lib", "Key") := by decide +kernel
  have hstar : entryOf (.everything "`a.b`") = ("`a.b`", "*") := rfl
  have halias : entryOf ⟨"lib.Key", some "K", false⟩ = ("lib", "Key as K") := by decide +kernel
  simp [mixedAdditions, Addition.Adds, hkey, hint, hname, hstar, halias]

theorem adds_reorderedAdditions (e : String × String) :
    (∃ a ∈ reorderedAdditions, a.Adds "app" e) ↔ e ∈ [("`a.b`", "*"), ("lib", "Key as K"), ("lib", "Key")] := by
  have hkey : NeedsImport "lib.Key" "app" := ⟨by decide +kernel, by decide +kernel, by decide +kernel⟩
  have hname : entryOfName "lib.Key" = ("lib", "Key") := by decide +kernel
  have hstar : entryOf (.everything "`a.b`") = ("`a.b`", "*") := rfl
  have halias : entryOf ⟨"lib.Key", some "K", false⟩ = ("lib", "Key as K") := by decide +kernel
  have hsymbol : entryOf (.symbol "lib.Key") = ("lib", "Key") := by decide +kernel
  have hmerged := (ofAdditions_spec "app" [.directive ⟨"lib.Key", some "K", false⟩, .directive (.everything "`a.b`")]).2 e
  simp only [reorderedAdditions, List.exists_mem_cons_iff, Addition.Adds, hmerged, hname, hstar, halias, hsymbol]
  simp [hkey]
  grind

theorem isParsed_mixed {e : String × String} (he : e ∈ [("`a.b`", "*"), ("lib", "Key as K"), ("lib", "Key")]) :
    ∃ i : Import, i.IsParsed ∧ e = entryOf i := by
  have hread : (SourceUnit.ofSource "import `a.b`.*\nimport lib.Key as K\nimport lib.Key").toOption.map SourceUnit.imports =
      some [.everything "`a.b`", ⟨"lib.Key", some "K", false⟩, .symbol "lib.Key"] := by
    decide +kernel
  obtain ⟨u, hu, himports⟩ := Option.map_eq_some_iff.mp hread
  have hentries : u.imports.map entryOf = [("`a.b`", "*"), ("lib", "Key as K"), ("lib", "Key")] := by
    rw [himports]
    decide +kernel
  rw [← hentries] at he
  obtain ⟨i, hi, rfl⟩ := List.mem_map.mp he
  exact ⟨i, ⟨_, u, ok_of_toOption hu, hi⟩, rfl⟩

/-- The same directives in the same order, whichever way they came in. -/
theorem directives_ordered_mixedAdditions :
    (ofAdditions "app" mixedAdditions).directives = (ofAdditions "app" reorderedAdditions).directives ∧
      (ofAdditions "app" mixedAdditions).directives.Pairwise (· < ·) := by
  obtain ⟨hsame, hincreasing, -⟩ := directives_ordered "app"
  refine ⟨hsame _ _ fun e => ?_, hincreasing _ fun a ha e hadds => ?_⟩
  · rw [adds_mixedAdditions, adds_reorderedAdditions]
  · exact isParsed_mixed ((adds_mixedAdditions e).mp ⟨a, ha, hadds⟩)

end Output.ImportSet

end Counterpart
