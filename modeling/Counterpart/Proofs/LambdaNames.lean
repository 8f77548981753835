/-
The names that the lambdas of a conversion bind. Names of different depths differ (`nameAt_inj`), so along every path of
lambdas inside lambdas no name is bound twice, and a value inside a lambda is one that this lambda binds, whatever lambdas are
around it (`scoped_termOf`). Read with these names, a term means what the conversion means without any (`eval_termOf`).
-/
import Mathlib.Data.List.Nodup
import Std.Data.String.ToNat
import Counterpart.Code.Expression

namespace Counterpart.Code

open Output Text

/-! ## Names at a depth -/

/-- The words that names are made of. -/
def nameBases : List String := ["it", "key", "value", "first", "second"]

/-- The digits behind the word of a name. -/
def digitsAt (depth : Nat) : List Char := if depth = 0 then [] else (toString depth).toList

theorem toList_nameAt (base : String) (depth : Nat) : (nameAt base depth).toList = base.toList ++ digitsAt depth := by
  rw [nameAt, digitsAt]
  split
  · rw [List.append_nil]
  · exact String.toList_append

theorem digitsAt_inj {d d' : Nat} (h : digitsAt d = digitsAt d') : d = d' := by
  have hsome : ∀ n : Nat, (toString n).toList ≠ [] := by
    intro n hn
    have htext : (toString n).toList = Nat.toDigits 10 n := String.toList_ofList
    exact Nat.toDigits_ne_nil (htext ▸ hn)
  rw [digitsAt, digitsAt] at h
  by_cases hd : d = 0
  · by_cases hd' : d' = 0
    · omega
    · rw [if_pos hd, if_neg hd'] at h
      exact absurd h.symm (hsome d')
  · by_cases hd' : d' = 0
    · rw [if_neg hd, if_pos hd'] at h
      exact absurd h (hsome d)
    · rw [if_neg hd, if_neg hd'] at h
      exact Nat.repr_injective (String.toList_injective h)

theorem isDigit_of_mem_digitsAt {d : Nat} {c : Char} (h : c ∈ digitsAt d) : c.isDigit = true := by
  rw [digitsAt] at h
  split at h
  · cases h
  · have htext : (toString d).toList = Nat.toDigits 10 d := String.toList_ofList
    rw [htext] at h
    exact Nat.isDigit_of_mem_toDigits (by decide) (by decide) h

/-- The digits behind a word without digits can be told from it. -/
theorem split_nameAt {base : String} (hbase : base ∈ nameBases) (depth : Nat) :
    (nameAt base depth).toList.takeWhile (fun c => !c.isDigit) = base.toList ∧
      (nameAt base depth).toList.dropWhile (fun c => !c.isDigit) = digitsAt depth := by
  have hword : ∀ base ∈ nameBases, ∀ c ∈ base.toList, (!c.isDigit) = true := by simp [nameBases]
  have hdigits : ∀ c ∈ digitsAt depth, ¬(!c.isDigit) = true := fun c hc => by simp [isDigit_of_mem_digitsAt hc]
  rw [toList_nameAt, List.takeWhile_append_of_pos (hword base hbase), List.dropWhile_append_of_pos (hword base hbase)]
  cases h : digitsAt depth with
  | nil => simp
  | cons c cs =>
    have hc := hdigits c (h ▸ List.mem_cons_self)
    exact ⟨by rw [List.takeWhile_cons_of_neg (by exact hc), List.append_nil], List.dropWhile_cons_of_neg (by exact hc)⟩

/-- **Names of different depths differ**, and so do names of one depth that are made of different words. -/
theorem nameAt_inj {base base' : String} (hbase : base ∈ nameBases) (hbase' : base' ∈ nameBases) {d d' : Nat}
    (h : nameAt base d = nameAt base' d') : base = base' ∧ d = d' := by
  obtain ⟨hword, hdigits⟩ := split_nameAt hbase d
  obtain ⟨hword', hdigits'⟩ := split_nameAt hbase' d'
  rw [h] at hword hdigits
  exact ⟨String.toList_injective (hword.symm.trans hword'), digitsAt_inj (hdigits.symm.trans hdigits')⟩

theorem nameAt_ne_placeholder {base : String} (hbase : base ∈ nameBases) (d : Nat) : nameAt base d ≠ placeholder := by
  intro h
  have hstart : ∀ base ∈ nameBases, base.toList ≠ [] ∧ base.toList.head? ≠ placeholder.toList.head? := by
    simp [nameBases, placeholder]
  obtain ⟨hne, hhead⟩ := hstart base hbase
  rw [← h, toList_nameAt] at hhead
  cases hbase : base.toList with
  | nil => exact hne hbase
  | cons c cs => simp [hbase] at hhead

theorem names_elementParams (depth : Nat) : (elementParams depth).names = ["it"].map (nameAt · depth) := by
  rw [elementParams, List.map_singleton]
  split
  next h => rw [h]; rfl
  next => rfl

/-! ## Scopes -/

/-- The lambda that a name refers to, counted from the inside: of those that bind it, the innermost. -/
def binder? (around : List Params) (name : String) : Option Nat := around.findIdx? fun ps => ps.names.contains name

theorem binder?_cons_of_mem {ps : Params} {name : String} (h : name ∈ ps.names) (around : List Params) :
    binder? (ps :: around) name = some 0 := by
  rw [binder?, List.findIdx?_cons, if_pos (by simpa using h)]

/-- A value in a term, with the parameters of the lambdas around it, innermost first. -/
structure Occurrence where
  around : List Params
  text : String

namespace Term

/-- The paths of lambdas inside lambdas of a term that stands inside the lambdas `around`, innermost first. -/
def paths (around : List Params) : Term → List (List Params)
  | value _ => []
  | member receiver _ _ => receiver.paths around
  | lambda receiver _ _ ps body => receiver.paths around ++ (ps :: around) :: body.paths (ps :: around)
  | pair first second => first.paths around ++ second.paths around
  | branches subject _ _ => subject.paths around

/-- The values of a term that stands inside the lambdas `around`. -/
def occurrences (around : List Params) : Term → List Occurrence
  | value text => [⟨around, text⟩]
  | member receiver _ _ => receiver.occurrences around
  | lambda receiver _ _ ps body => receiver.occurrences around ++ body.occurrences (ps :: around)
  | pair first second => first.occurrences around ++ second.occurrences around
  | branches subject _ _ => subject.occurrences around

/-- No lambda along a path binds a name that one around it binds. A value that does not stand directly inside the lambdas
`around`, where it is one of `values`, refers to the lambda directly around it. The placeholder is no value. -/
structure Scoped (around : List Params) (values : List String) (t : Term) : Prop where
  distinct : ∀ path ∈ t.paths around, (path.flatMap Params.names).Nodup
  direct : ∀ o ∈ t.occurrences around, o.text = placeholder ∨ (o.around = around ∧ o.text ∈ values) ∨
    binder? o.around o.text = some 0

namespace Scoped

variable {around : List Params} {values : List String}

theorem value {text : String} (h : text = placeholder ∨ text ∈ values) : Scoped around values (value text) where
  distinct := nofun
  direct o ho := by
    rw [List.mem_singleton.mp ho]
    exact h.imp_right fun hmem => .inl ⟨rfl, hmem⟩

theorem self (around : List Params) (v : String) : Scoped around [v] (Term.value v) := value (.inr List.mem_cons_self)

theorem member {receiver : Term} (h : receiver.Scoped around values) (safe : Bool) (name : String) :
    Scoped around values (member receiver safe name) := ⟨h.distinct, h.direct⟩

theorem branches {subject : Term} (h : subject.Scoped around values) (arms : List Arm) (nullArm : Bool) :
    Scoped around values (branches subject arms nullArm) := ⟨h.distinct, h.direct⟩

theorem pair {first second : Term} (h : first.Scoped around values) (h' : second.Scoped around values) :
    Scoped around values (pair first second) where
  distinct path hpath := (List.mem_append.mp hpath).elim (h.distinct path) (h'.distinct path)
  direct o ho := (List.mem_append.mp ho).elim (h.direct o) (h'.direct o)

theorem mono {values' : List String} {t : Term} (h : t.Scoped around values) (hsubset : values ⊆ values') :
    t.Scoped around values' where
  distinct := h.distinct
  direct o ho := (h.direct o ho).imp_right fun h => h.imp_left fun hhere => ⟨hhere.1, hsubset hhere.2⟩

/-- **A lambda** whose body has no values but the names that it binds, if none of these is bound around it. -/
theorem lambda {receiver body : Term} {ps : Params} (h : receiver.Scoped around values)
    (hbody : body.Scoped (ps :: around) ps.names) (hnames : ((ps :: around).flatMap Params.names).Nodup) (safe : Bool)
    (callee : String) : Scoped around values (lambda receiver safe callee ps body) where
  distinct path hpath := by
    rcases List.mem_append.mp hpath with hpath | hpath
    · exact h.distinct path hpath
    · rcases List.mem_cons.mp hpath with rfl | hpath
      · exact hnames
      · exact hbody.distinct path hpath
  direct o ho := by
    rcases List.mem_append.mp ho with ho | ho
    · exact h.direct o ho
    · rcases hbody.direct o ho with hplaceholder | ⟨haround, hmem⟩ | hbinder
      · exact .inl hplaceholder
      · exact .inr (.inr (haround ▸ binder?_cons_of_mem hmem around))
      · exact .inr (.inr hbinder)

end Scoped

end Term

/-- The lambdas `around` bind distinct names, all of them of a smaller depth. -/
structure Below (depth : Nat) (around : List Params) : Prop where
  nodup : (around.flatMap Params.names).Nodup
  name : ∀ name ∈ around.flatMap Params.names, ∃ base ∈ nameBases, ∃ d < depth, name = nameAt base d

/-- A lambda more, with names of the next depth. -/
theorem Below.cons {depth : Nat} {around : List Params} (h : Below depth around) {ps : Params} {bases : List String}
    (hnames : ps.names = bases.map (nameAt · depth)) (hbases : bases ⊆ nameBases) (hnodup : bases.Nodup) :
    Below (depth + 1) (ps :: around) := by
  have hinner : ∀ name ∈ ps.names, ∃ base ∈ bases, name = nameAt base depth := by
    intro name hname
    rw [hnames] at hname
    obtain ⟨base, hbase, rfl⟩ := List.mem_map.mp hname
    exact ⟨base, hbase, rfl⟩
  refine ⟨?_, fun name hname => ?_⟩
  · rw [List.flatMap_cons, List.nodup_append]
    refine ⟨?_, h.nodup, fun name hname name' hname' heq => ?_⟩
    · rw [hnames]
      exact List.Nodup.map_on (fun b hb b' hb' heq => (nameAt_inj (hbases hb) (hbases hb') heq).1) hnodup
    · obtain ⟨base, hbase, rfl⟩ := hinner name hname
      obtain ⟨base', hbase', d, hd, rfl⟩ := h.name name' hname'
      have := (nameAt_inj (hbases hbase) hbase' heq).2
      omega
  · rw [List.flatMap_cons, List.mem_append] at hname
    rcases hname with hname | hname
    · obtain ⟨base, hbase, rfl⟩ := hinner name hname
      exact ⟨base, hbases hbase, depth, by omega, rfl⟩
    · obtain ⟨base, hbase, d, hd, rfl⟩ := h.name name hname
      exact ⟨base, hbase, d, by omega, rfl⟩

/-- A lambda that takes a value apart, with a half for each of the two names. -/
theorem Term.Scoped.halves {around : List Params} {values : List String} {receiver first second : Term} {a b : String}
    (h : receiver.Scoped around values) (hfirst : first.Scoped (.two a b :: around) [a])
    (hsecond : second.Scoped (.two a b :: around) [b]) (hnames : ((Params.two a b :: around).flatMap Params.names).Nodup)
    (safe : Bool) (callee : String) : Scoped around values (.lambda receiver safe callee (.two a b) (.pair first second)) := by
  have hfirst : first.Scoped (.two a b :: around) (Params.two a b).names := hfirst.mono (by simp [Params.names])
  have hsecond : second.Scoped (.two a b :: around) (Params.two a b).names := hsecond.mono (by simp [Params.names])
  exact h.lambda (hfirst.pair hsecond) hnames safe callee

/-- **The term of a conversion** inside lambdas of smaller depths. -/
theorem scoped_termOf_of_below {depth : Nat} {around : List Params} (h : Below depth around) (c : Conversion) (v : String)
    (nullable : Bool) : (termOf v nullable depth c).Scoped around [v] := by
  induction c generalizing v nullable depth around with
  | identity => exact .self around v
  | placeholder => exact .value (.inl rfl)
  | mapper function => exact (Term.Scoped.self around v).member nullable _
  | enumWhen arms => exact (Term.Scoped.self around v).branches arms nullable
  | collection element n collect ih =>
    have hbelow := h.cons (names_elementParams depth) (by decide) (by decide)
    have hbody := ih hbelow (nameAt "it" depth) n
    have hnames : [nameAt "it" depth] = (elementParams depth).names := (names_elementParams depth).symm
    rw [hnames] at hbody
    have helements := (Term.Scoped.self around v).lambda hbody hbelow.nodup nullable "map"
    cases collect with
    | none => exact helements
    | some call => exact helements.member nullable call
  | map builder key kn value vn ihk ihv =>
    have hnames : (Params.two (nameAt "key" depth) (nameAt "value" depth)).names = ["key", "value"].map (nameAt · depth) :=
      rfl
    have hbelow := h.cons hnames (by decide) (by decide)
    have hentries := (Term.Scoped.self around v).member nullable "entries"
    exact hentries.halves (ihk hbelow _ kn) (ihv hbelow _ vn) hbelow.nodup nullable _
  | pair first an second bn iha ihb =>
    have hnames : (Params.two (nameAt "first" depth) (nameAt "second" depth)).names = ["first", "second"].map (nameAt · depth) :=
      rfl
    have hbelow := h.cons hnames (by decide) (by decide)
    exact (Term.Scoped.self around v).halves (iha hbelow _ an) (ihb hbelow _ bn) hbelow.nodup nullable "let"

/-- **The names that the lambdas of an expression bind.** The expression for a value `v` is the text of a term, or branches
over `v`. Along every path of lambdas inside lambdas of this term the bound names are distinct. A value inside a lambda refers
to this lambda, and outside of all of them it is `v`. -/
theorem expressionOf_names (c : Conversion) (v : String) (nullable : Bool) :
    ((∃ arms, c = .enumWhen arms ∧ expressionOf c v nullable = (When.mk v arms nullable).expression) ∨
      expressionOf c v nullable = .ofText (termOf v nullable 0 c).text) ∧
    (∀ path ∈ (termOf v nullable 0 c).paths [], (path.flatMap Params.names).Nodup) ∧
    ∀ o ∈ (termOf v nullable 0 c).occurrences [],
      o.text = placeholder ∨ (o.around = [] ∧ o.text = v) ∨ binder? o.around o.text = some 0 := by
  have houtside : Below 0 [] := ⟨List.nodup_nil, nofun⟩
  have hscoped := scoped_termOf_of_below houtside c v nullable
  refine ⟨?_, hscoped.distinct, fun o ho => ?_⟩
  · cases c with
    | enumWhen arms => exact .inl ⟨arms, rfl, rfl⟩
    | _ => exact .inr rfl
  · simpa using hscoped.direct o ho

example : (termOf "m" false 0 (.collection (.map "M" .identity false (.collection .identity false none) false) false none)).text =
    "m.map \x7b it.entries.associateTo(M()) \x7b (key1, value1) -> key1 to value1.map \x7b it2 -> it2 \x7d \x7d \x7d" := by
  decide +kernel

/-! ## What a term means -/

/-- What the parts of a term mean, as values of some kind. -/
structure Meaning (α : Type) where
  /-- A text that no lambda binds. -/
  text : String → α
  member : (receiver : α) → (safe : Bool) → (name : String) → α
  /-- A member function applied to a function of one argument. -/
  each : (receiver : α) → (safe : Bool) → (callee : String) → (α → α) → α
  /-- A member function applied to a function of the two halves of a value. -/
  halves : (receiver : α) → (safe : Bool) → (callee : String) → (α → α → α) → α
  pair : α → α → α
  branches : (subject : α) → List Arm → (nullArm : Bool) → α

variable {α : Type} (m : Meaning α)

/-- What a name means where `env` is bound, innermost first. -/
def Meaning.ofName (env : List (String × α)) (name : String) : α := (env.lookup name).getD (m.text name)

/-- The value of a term: a lambda binds its names in front of those around it. -/
def Term.eval (env : List (String × α)) : Term → α
  | value text => m.ofName env text
  | member receiver safe name => m.member (receiver.eval env) safe name
  | lambda receiver safe callee .implicit body => m.each (receiver.eval env) safe callee fun x => body.eval (("it", x) :: env)
  | lambda receiver safe callee (.one name) body => m.each (receiver.eval env) safe callee fun x => body.eval ((name, x) :: env)
  | lambda receiver safe callee (.two a b) body =>
    m.halves (receiver.eval env) safe callee fun x y => body.eval ((a, x) :: (b, y) :: env)
  | pair first second => m.pair (first.eval env) (second.eval env)
  | branches subject arms nullArm => m.branches (subject.eval env) arms nullArm

/-- A conversion applied to a value, with no names at all. -/
def Meaning.convert (nullable : Bool) (x : α) : Conversion → α
  | .identity => x
  | .placeholder => m.text placeholder
  | .mapper function => m.member x nullable (function ++ "()")
  | .enumWhen arms => m.branches x arms nullable
  | .collection element elementNullable collect =>
    let elements := m.each x nullable "map" fun y => Meaning.convert elementNullable y element
    match collect with
    | some call => m.member elements nullable call
    | none => elements
  | .map builder key keyNullable value valueNullable =>
    m.halves (m.member x nullable "entries") nullable ("associateTo(" ++ builder ++ "())") fun k w =>
      m.pair (Meaning.convert keyNullable k key) (Meaning.convert valueNullable w value)
  | .pair first firstNullable second secondNullable =>
    m.halves x nullable "let" fun a b => m.pair (Meaning.convert firstNullable a first) (Meaning.convert secondNullable b second)

theorem eval_elements (env : List (String × α)) (receiver body : Term) (safe : Bool) (callee : String) (depth : Nat) :
    (Term.lambda receiver safe callee (elementParams depth) body).eval m env =
      m.each (receiver.eval m env) safe callee fun x => body.eval m ((nameAt "it" depth, x) :: env) := by
  rw [elementParams]
  split
  next h => rw [h]; rfl
  next => rfl

theorem Meaning.ofName_cons_self (name : String) (x : α) (env : List (String × α)) : m.ofName ((name, x) :: env) name = x := by
  rw [ofName, List.lookup_cons_self, Option.getD_some]

theorem Meaning.ofName_cons_of_ne {name other : String} (h : name ≠ other) (x : α) (env : List (String × α)) :
    m.ofName ((other, x) :: env) name = m.ofName env name := by
  rw [ofName, ofName, List.lookup_cons, beq_eq_false_iff_ne.mpr h]

theorem lookup_placeholder_cons {base : String} (hbase : base ∈ nameBases) (depth : Nat) (x : α) {env : List (String × α)}
    (h : env.lookup placeholder = none) : ((nameAt base depth, x) :: env).lookup placeholder = none := by
  rw [List.lookup_cons, beq_eq_false_iff_ne.mpr (nameAt_ne_placeholder hbase depth).symm]
  exact h

/-- **A term means the conversion** of what its value means: every name in it leads to the argument it stands for. -/
theorem eval_termOf {env : List (String × α)} (henv : env.lookup placeholder = none) (c : Conversion) (v : String)
    (nullable : Bool) (depth : Nat) : (termOf v nullable depth c).eval m env = m.convert nullable (m.ofName env v) c := by
  induction c generalizing env v nullable depth with
  | identity => rfl
  | placeholder => simp [termOf, Term.eval, Meaning.convert, Meaning.ofName, henv]
  | mapper function => rfl
  | enumWhen arms => rfl
  | collection element n collect ih =>
    have helements : (Term.lambda (.value v) nullable "map" (elementParams depth)
        (termOf (nameAt "it" depth) n (depth + 1) element)).eval m env =
          m.each (m.ofName env v) nullable "map" fun y => m.convert n y element := by
      rw [eval_elements]
      refine congrArg (m.each _ nullable "map") (funext fun x => ?_)
      rw [ih (lookup_placeholder_cons (by decide) depth x henv), m.ofName_cons_self]
    cases collect with
    | none => exact helements
    | some call => exact congrArg (m.member · nullable call) helements
  | map builder key kn value vn ihk ihv =>
    refine congrArg (m.halves _ nullable _) (funext fun x => funext fun y => ?_)
    have hinner : ((nameAt "value" depth, y) :: env).lookup placeholder = none :=
      lookup_placeholder_cons (by decide) depth y henv
    have henv' : ((nameAt "key" depth, x) :: (nameAt "value" depth, y) :: env).lookup placeholder = none :=
      lookup_placeholder_cons (by decide) depth x hinner
    have hne : nameAt "value" depth ≠ nameAt "key" depth := fun h => absurd (nameAt_inj (by decide) (by decide) h).1 (by decide)
    rw [Term.eval, ihk henv', ihv henv', m.ofName_cons_self, m.ofName_cons_of_ne hne, m.ofName_cons_self]
  | pair first an second bn iha ihb =>
    refine congrArg (m.halves _ nullable "let") (funext fun x => funext fun y => ?_)
    have hinner : ((nameAt "second" depth, y) :: env).lookup placeholder = none :=
      lookup_placeholder_cons (by decide) depth y henv
    have henv' : ((nameAt "first" depth, x) :: (nameAt "second" depth, y) :: env).lookup placeholder = none :=
      lookup_placeholder_cons (by decide) depth x hinner
    have hne : nameAt "second" depth ≠ nameAt "first" depth :=
      fun h => absurd (nameAt_inj (by decide) (by decide) h).1 (by decide)
    rw [Term.eval, iha henv', ihb henv', m.ofName_cons_self, m.ofName_cons_of_ne hne, m.ofName_cons_self]

end Counterpart.Code
