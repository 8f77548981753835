/-
Arguments of the constants of an enum. They are taken over as written, while the counterpart has parameters for the fields that
are not private, some of them under a name with the suffix. Arguments that are one for each parameter of the enum are so for its
counterpart exactly when no field is private and none that takes the suffix is passed by name (`Hooks.entries_filled_iff`).
-/
import Counterpart.Proofs.ParamNames
import Counterpart.Proofs.Stages

namespace Counterpart

open Kotlin Output Text
open List (Forall₂)

/-! ## Arguments and parameters -/

/-- Whether arguments, each with the name it is passed by, if any, are one for each parameter: the first ones stand in the order
of the parameters, the others all have names, in any order. So a parameter is passed by name exactly when the argument in its
place has a name, its own or that of another. -/
def Fills (names : List String) (args : List (Option String)) : Prop :=
  ∃ (placed rest : List String) (xs : List (Option String)) (ys : List String), names = placed ++ rest ∧
    args = xs ++ ys.map some ∧ Forall₂ (fun n x => ∀ m ∈ x, m = n) placed xs ∧ ys.Perm rest

namespace Fills

variable {α : Type} {name name' : α → String} {fs : List α} {names : List String} {args : List (Option String)}

theorem length_eq (h : Fills names args) : names.length = args.length := by
  obtain ⟨placed, rest, xs, ys, rfl, rfl, hplaced, hrest⟩ := h
  rw [List.length_append, List.length_append, List.length_map, hplaced.length_eq, hrest.length_eq]

theorem map_iff : Fills (fs.map name) args ↔ ∃ (placed rest : List α) (xs : List (Option String)) (ys : List String),
    fs = placed ++ rest ∧ args = xs ++ ys.map some ∧ Forall₂ (fun f x => ∀ m ∈ x, m = name f) placed xs ∧
      ys.Perm (rest.map name) := by
  constructor
  · rintro ⟨_, _, xs, ys, hnames, hargs, hplaced, hrest⟩
    obtain ⟨placed, rest, rfl, rfl, rfl⟩ := List.map_eq_append_iff.mp hnames
    exact ⟨placed, rest, xs, ys, rfl, hargs, List.forall₂_map_left_iff.mp hplaced, hrest⟩
  · rintro ⟨placed, rest, xs, ys, rfl, hargs, hplaced, hrest⟩
    exact ⟨_, _, xs, ys, List.map_append, hargs, List.forall₂_map_left_iff.mpr hplaced, hrest⟩

/-- How long the names of the parameters that are passed by name are in all. -/
def namedLength (name : α → String) : List α → List (Option String) → Nat
  | f :: fs, x :: args => (if x.isSome then (name f).length else 0) + namedLength name fs args
  | _, _ => 0

theorem namedLength_append {placed rest : List α} {xs zs : List (Option String)} (h : placed.length = xs.length) :
    namedLength name (placed ++ rest) (xs ++ zs) = namedLength name placed xs + namedLength name rest zs := by
  induction placed generalizing xs with
  | nil =>
    obtain rfl := List.length_eq_zero_iff.mp h.symm
    exact (Nat.zero_add _).symm
  | cons f placed ih =>
    cases xs with
    | nil => cases h
    | cons x xs => rw [List.cons_append, List.cons_append, namedLength, namedLength, ih (Nat.succ.inj h), Nat.add_assoc]

theorem namedLength_placed {xs : List (Option String)} (h : Forall₂ (fun f x => ∀ m ∈ x, m = name f) fs xs) :
    namedLength name fs xs = (xs.flatMap fun x => (x.getD "").toList).length := by
  induction h with
  | nil => rfl
  | @cons f x fs xs hx _ ih =>
    rw [namedLength, ih, List.flatMap_cons, List.length_append, String.length_toList]
    cases x with
    | none => rfl
    | some m =>
      obtain rfl := hx m rfl
      rfl

theorem namedLength_named {ys : List String} (h : fs.length = ys.length) :
    namedLength name fs (ys.map some) = ((fs.map name).flatMap String.toList).length := by
  induction fs generalizing ys with
  | nil =>
    obtain rfl := List.length_eq_zero_iff.mp h.symm
    rfl
  | cons f fs ih =>
    cases ys with
    | nil => cases h
    | cons y ys =>
      rw [List.map_cons, namedLength, ih (Nat.succ.inj h), List.map_cons, List.flatMap_cons, List.length_append,
        String.length_toList]
      rfl

/-- The names that arguments have are those of the parameters that are passed by name, so they are as long in all. -/
theorem namedLength_eq (h : Fills (fs.map name) args) :
    namedLength name fs args = (args.flatMap fun x => (x.getD "").toList).length := by
  obtain ⟨placed, rest, xs, ys, rfl, rfl, hplaced, hrest⟩ := map_iff.mp h
  have hlength : rest.length = ys.length := by rw [hrest.length_eq, List.length_map]
  rw [namedLength_append hplaced.length_eq, namedLength_placed hplaced, namedLength_named hlength,
    ← (hrest.flatMap_right String.toList).length_eq, List.flatMap_append, List.length_append, List.flatMap_map]
  rfl

/-- Longer names are longer in all when one of them is used. -/
theorem namedLength_mono (hle : ∀ f ∈ fs, (name f).length ≤ (name' f).length) (hlength : fs.length = args.length) :
    namedLength name fs args ≤ namedLength name' fs args ∧ (namedLength name' fs args ≤ namedLength name fs args →
      Forall₂ (fun f (x : Option String) => x.isSome → (name' f).length ≤ (name f).length) fs args) := by
  induction fs generalizing args with
  | nil =>
    cases args with
    | nil => exact ⟨Nat.le_refl _, fun _ => .nil⟩
    | cons x args => cases hlength
  | cons f fs ih =>
    cases args with
    | nil => cases hlength
    | cons x args =>
      rw [List.forall_mem_cons] at hle
      obtain ⟨hrest, hsame⟩ := ih hle.2 (Nat.succ.inj hlength)
      have hfirst := hle.1
      rw [namedLength, namedLength]
      cases x with
      | none =>
        simp only [Option.isSome_none, Bool.false_eq_true, if_false, Nat.zero_add]
        exact ⟨hrest, fun h => .cons (fun hx => by cases hx) (hsame h)⟩
      | some m =>
        simp only [Option.isSome_some, if_true]
        exact ⟨by omega, fun h => .cons (fun _ => by omega) (hsame (by omega))⟩

/-- **Arguments stay one for each parameter** when parameters get longer names exactly when none that does is passed by name. -/
theorem renamed_iff (hlonger : ∀ f ∈ fs, name' f = name f ∨ (name f).length < (name' f).length)
    (h : Fills (fs.map name) args) :
    Fills (fs.map name') args ↔ Forall₂ (fun f (x : Option String) => x.isSome → name' f = name f) fs args := by
  have hlength : fs.length = args.length := by simpa using h.length_eq
  constructor
  · intro h'
    have hle : ∀ f ∈ fs, (name f).length ≤ (name' f).length := by
      intro f hf
      rcases hlonger f hf with hsame | hlt
      · exact Nat.le_of_eq (congrArg String.length hsame).symm
      · exact Nat.le_of_lt hlt
    have hsame := (namedLength_mono hle hlength).2 (Nat.le_of_eq ((namedLength_eq h').trans (namedLength_eq h).symm))
    rw [List.forall₂_iff_zip] at hsame ⊢
    refine ⟨hlength, fun {f x} hmem hx => ?_⟩
    exact (hlonger f (List.of_mem_zip hmem).1).resolve_right (Nat.not_lt.mpr (hsame.2 hmem hx))
  · intro hsame
    obtain ⟨placed, rest, xs, ys, rfl, rfl, hplaced, hrest⟩ := map_iff.mp h
    have hfirst := List.forall₂_take_append _ _ _ hsame
    have hlast := List.forall₂_drop_append _ _ _ hsame
    rw [← hplaced.length_eq, List.take_left] at hfirst
    rw [← hplaced.length_eq, List.drop_left, List.forall₂_map_right_iff] at hlast
    have hnames : rest.map name' = rest.map name := by
      clear hrest hsame h hlength hlonger
      induction hlast with
      | nil => rfl
      | cons hf _ ih => rw [List.map_cons, List.map_cons, hf rfl, ih]
    refine map_iff.mpr ⟨placed, rest, xs, ys, rfl, rfl, .mp (fun f x hf hx m hm => ?_) hfirst hplaced, hnames ▸ hrest⟩
    rw [hf (Option.isSome_iff_exists.mpr ⟨m, hm⟩)]
    exact hx m hm

end Fills

/-! ## Reading arguments -/

/-- The name that the argument at the start of these tokens is passed by. -/
def argumentName? : List Token → Option String
  | t :: u :: v :: _ =>
    if t.isName && u.isMark '=' && !(v.isMark '=' && v.isAdjacent) then some (Name.unquote t.text) else none
  | _ => none

/-- The arguments up to the closing parenthesis, with the names they are passed by. They end as default values do; a comma may
stand after the last. -/
def argumentNames (ts : List Token) : Except Fault (List (Option String)) := do
  if atMark ')' ts then return []
  match ← skipDefault false 0 ts with
  | ⟨_, t :: rest, _⟩ =>
    if t.isMark ',' then return argumentName? ts :: (← argumentNames rest) else return [argumentName? ts]
  | ⟨_, [], _⟩ => throw ⟨.missingMark .parametersEnd, none⟩
termination_by ts.length
decreasing_by simp only [List.length_cons] at *; omega

/-- The arguments of a constant. One without a list of them has none. -/
def Kotlin.EnumEntry.argumentNames? (e : EnumEntry) : Option (List (Option String)) :=
  match e.args with
  | some text => (TokenStream.ofSource text).toOption.bind fun s => (argumentNames (s.tokens.drop 1)).toOption
  | none => some []

/-! ## Constants -/

/-- Whether the arguments of a constant, as `read` has them from its text, are one for each parameter. -/
def Kotlin.EnumEntry.Passes (read : EnumEntry → Option (List (Option String))) (names : List String) (e : EnumEntry) : Prop :=
  ∃ args, read e = some args ∧ Fills names args

theorem Kotlin.EnumEntry.passes_of_map {read : EnumEntry → Option (List (Option String))} {es : List EnumEntry}
    {names : List String} (lists : List (List (Option String))) (hread : es.map read = lists.map some)
    (hfills : ∀ args ∈ lists, Fills names args) : ∀ e ∈ es, e.Passes read names := by
  intro e he
  have hmem : read e ∈ es.map read := List.mem_map_of_mem he
  rw [hread, List.mem_map] at hmem
  obtain ⟨args, hargs, he⟩ := hmem
  exact ⟨args, he.symm, hfills args hargs⟩

theorem Naming.suffix_ne_of_namingOf {p : Project} {o : Options} {root : ClassId} {n : Naming}
    (h : Generation.namingOf p o root = .ok n) : n.suffix ≠ "" :=
  (Generation.namingOf_ok h).2.2

/-- The arguments that fill the parameters of a class fill those of its counterpart when all of its fields are visible and those
that take the suffix are passed by position. -/
theorem Entity.fills_params_iff {g : Entity.Generator} {t : Entity.Table} {c : ClassId} {args : List (Option String)}
    (hsuffix : g.naming.suffix ≠ "") (h : Fills ((g.project.decl c).fields.map (·.name)) args) :
    Fills ((g.params t c).map (·.name)) args ↔ (∀ f ∈ (g.project.decl c).fields, f.isPrivate = false) ∧
      Forall₂ (fun f (x : Option String) => x.isSome → g.project.takesSuffix t c f = false) (g.project.decl c).fields args := by
  let name' (f : Field) : String := if g.project.takesSuffix t c f then g.naming.fieldName f.name else f.name
  have hnames : (g.params t c).map (·.name) = (g.project.decl c).visibleFields.map name' := by
    rw [Entity.Generator.params, List.map_map]
    exact List.map_congr_left fun f _ => Entity.name_ofField g.project g.naming t c f
  have hlonger (f : Field) : f.name.length < (g.naming.fieldName f.name).length := by
    have : g.naming.suffix.length ≠ 0 := by simpa using hsuffix
    rw [Naming.fieldName, String.length_append]
    omega
  rw [hnames]
  by_cases hprivate : ∀ f ∈ (g.project.decl c).fields, f.isPrivate = false
  · have hvisible : (g.project.decl c).visibleFields = (g.project.decl c).fields :=
      List.filter_eq_self.mpr fun f hf => by rw [hprivate f hf]; rfl
    have hsame (f : Field) : name' f = f.name ↔ g.project.takesSuffix t c f = false := by
      cases htakes : g.project.takesSuffix t c f with
      | false => simp [name', htakes]
      | true =>
        have hne : g.naming.fieldName f.name ≠ f.name := fun he => absurd (hlonger f) (by rw [he]; exact Nat.lt_irrefl _)
        simp [name', htakes, hne]
    rw [hvisible, Fills.renamed_iff (fun f _ => ?_) h, and_iff_right hprivate]
    · simp only [hsame]
    · cases htakes : g.project.takesSuffix t c f with
      | false => exact .inl ((hsame f).mpr htakes)
      | true =>
        refine .inr ?_
        simp only [name', htakes, if_true]
        exact hlonger f
  · refine iff_of_false (fun h' => hprivate ?_) fun h' => hprivate h'.1
    have hlength := h'.length_eq.trans h.length_eq.symm
    rw [List.length_map, List.length_map, ClassDecl.visibleFields, List.length_filter_eq_length_iff] at hlength
    exact fun f hf => by simpa using hlength f hf

/-- Whether every enum whose constants are passed one argument for each parameter has a counterpart whose constants are. -/
def Generation.EntriesFilled (g : Generation) (p : Project) : Prop :=
  ∃ t, g.table = some t ∧ ∀ c r d, (p.decl c).isEnum = true → t.ref? c = some r → g.workspace.declaration? r = some d →
    (∀ e ∈ (p.decl c).entries, e.Passes EnumEntry.argumentNames? ((p.decl c).fields.map (·.name))) →
      ∀ e ∈ d.entries, e.Passes EnumEntry.argumentNames? (d.params.map (·.name))

/-- **The constants of an enum** in a run that succeeds are those of its counterpart, as they are written. When the arguments of
all are one for each parameter of the enum, they are so for the counterpart exactly when no parameter is private and none that
takes the suffix is passed by name, unless there is no constant. -/
theorem Hooks.entries_filled_iff {σ : Type} {h : Hooks σ} {p : Project} {o : Options} {s s' : σ} {g : Generation}
    (hrun : h.run [] p o s = (s', .ok g)) : ∃ t, g.table = some t ∧ ∀ c r, (p.decl c).isEnum = true → t.ref? c = some r →
      ∃ d, g.workspace.declaration? r = some d ∧ d.kind = .enum ∧ d.entries = (p.decl c).entries ∧
        ∀ read, (∀ e ∈ (p.decl c).entries, e.Passes read ((p.decl c).fields.map (·.name))) →
          ((∀ e ∈ d.entries, e.Passes read (d.params.map (·.name))) ↔
            ∀ e ∈ (p.decl c).entries, ∀ args, read e = some args → (∀ f ∈ (p.decl c).fields, f.isPrivate = false) ∧
              Forall₂ (fun f (x : Option String) => x.isSome → p.takesSuffix t c f = false) (p.decl c).fields args) := by
  obtain ⟨n, plan, t, cs, hmade⟩ := h.made_of_run hrun
  have hsuffix : n.suffix ≠ "" := by
    obtain ⟨n', _, _, _, _, _, hstages⟩ := h.stages_of_run hrun
    cases hmade.naming.symm.trans hstages.naming
    exact Naming.suffix_ne_of_namingOf hstages.named
  refine ⟨t, hmade.table, fun c r henum hr => ?_⟩
  obtain ⟨d, hd, hparams, hentries, hkind⟩ := hmade.exists_declaration? hr
  refine ⟨d, hd, hkind henum, hentries, fun read hpasses => ?_⟩
  rw [hentries, hparams]
  refine forall₂_congr fun e he => ?_
  obtain ⟨args, hread, hfills⟩ := hpasses e he
  have hiff := Entity.fills_params_iff (g := ⟨p, plan, n⟩) (t := t) hsuffix hfills
  simp only [EnumEntry.Passes, hread, Option.some.injEq, forall_eq', exists_eq_left']
  exact hiff

/-- An enum whose constants are passed their arguments in different ways. -/
def levelsProject : Project :=
  .ofSource ("package demo\nenum class Level(val code: Int, val names: Map<String, Int>) " ++
    "\x7b LOW(1, names = mapOf<String, Int>()), HIGH(names = none(1, 2), code = 2) \x7d")

theorem levels_arguments :
    (levelsProject.decl 0).isEnum = true ∧ (levelsProject.decl 0).fields.map (·.name) = ["code", "names"] ∧
      (∀ f ∈ (levelsProject.decl 0).fields, f.isPrivate = false) ∧
      (levelsProject.decl 0).entries.map EnumEntry.argumentNames? =
        [some [none, some "names"], some [some "names", some "code"]] := by
  decide +kernel

theorem levels_passes :
    ∀ e ∈ (levelsProject.decl 0).entries, e.Passes EnumEntry.argumentNames? ((levelsProject.decl 0).fields.map (·.name)) := by
  obtain ⟨-, hnames, -, hargs⟩ := levels_arguments
  rw [hnames]
  refine EnumEntry.passes_of_map [[none, some "names"], [some "names", some "code"]] hargs ?_
  rw [List.forall_mem_cons, List.forall_mem_singleton]
  refine ⟨⟨["code"], ["names"], [none], ["names"], rfl, rfl, .cons (fun _ h => by cases h) .nil, .refl _⟩, ?_⟩
  exact ⟨[], ["code", "names"], [], ["names", "code"], rfl, rfl, .nil, .swap ..⟩

theorem levels_generated :
    ∃ g, (Hooks.none fun _ => false).run [] levelsProject (.ofClass "Level") () = ((), .ok g) ∧
      ∃ t r, g.table = some t ∧ t.ref? 0 = some r ∧
        ∀ f ∈ (levelsProject.decl 0).fields, levelsProject.takesSuffix t 0 f = false := by
  have hresult : (((Hooks.none fun _ => false).run [] levelsProject (.ofClass "Level") ()).2.toOption.bind fun g =>
      g.table.bind fun t => (t.ref? 0).map fun _ =>
        (levelsProject.decl 0).fields.map fun f => levelsProject.takesSuffix t 0 f) = some [false, false] := by
    decide +kernel
  obtain ⟨g, hg, hresult⟩ := Option.bind_eq_some_iff.mp hresult
  obtain ⟨t, ht, hresult⟩ := Option.bind_eq_some_iff.mp hresult
  obtain ⟨r, hr, htakes⟩ := Option.map_eq_some_iff.mp hresult
  refine ⟨g, eq_ok_of_toOption hg, t, r, ht, hr, fun f hf => ?_⟩
  have hmem : levelsProject.takesSuffix t 0 f ∈ [false, false] := htakes ▸ List.mem_map_of_mem hf
  exact List.eq_of_mem_replicate (n := 2) hmem

/-- Both parameters are passed by name, and neither takes the suffix, so the arguments of the counterpart are one for each. -/
theorem entries_filled_iff_levelsProject :
    ∃ g t r d, (Hooks.none fun _ => false).run [] levelsProject (.ofClass "Level") () = ((), .ok g) ∧ g.table = some t ∧
      (levelsProject.decl 0).isEnum = true ∧ t.ref? 0 = some r ∧ g.workspace.declaration? r = some d ∧
      (∀ e ∈ (levelsProject.decl 0).entries,
        e.Passes EnumEntry.argumentNames? ((levelsProject.decl 0).fields.map (·.name))) ∧
      d.entries = (levelsProject.decl 0).entries ∧
      ∀ e ∈ d.entries, e.Passes EnumEntry.argumentNames? (d.params.map (·.name)) := by
  obtain ⟨g, hg, t, r, ht, hr, htakes⟩ := levels_generated
  obtain ⟨henum, -, hvisible, -⟩ := levels_arguments
  obtain ⟨t', ht', hfilled⟩ := Hooks.entries_filled_iff hg
  cases ht.symm.trans ht'
  obtain ⟨d, hd, -, hentries, hiff⟩ := hfilled 0 r henum hr
  refine ⟨g, t, r, d, hg, ht, henum, hr, hd, levels_passes, hentries, (hiff _ levels_passes).mpr ?_⟩
  intro e he args hargs
  obtain ⟨args', hargs', hfills⟩ := levels_passes e he
  cases hargs.symm.trans hargs'
  have hlength := hfills.length_eq
  rw [List.length_map] at hlength
  exact ⟨hvisible, List.forall₂_iff_zip.mpr ⟨hlength, fun hmem _ => htakes _ (List.of_mem_zip hmem).1⟩⟩

/-- An enum with a private parameter. -/
def secretProject : Project :=
  .ofSource "package demo\nenum class E(val a: Int, private val b: Int) \x7b\n  X(1, 2), Y(3, 4)\n\x7d"

theorem secret_arguments :
    (secretProject.decl 0).isEnum = true ∧ (secretProject.decl 0).fields.map (·.name) = ["a", "b"] ∧
      (secretProject.decl 0).entries.map EnumEntry.argumentNames? = [some [none, none], some [none, none]] := by
  decide +kernel

theorem secret_passes :
    ∀ e ∈ (secretProject.decl 0).entries, e.Passes EnumEntry.argumentNames? ((secretProject.decl 0).fields.map (·.name)) := by
  obtain ⟨-, hnames, hargs⟩ := secret_arguments
  rw [hnames]
  refine EnumEntry.passes_of_map (List.replicate 2 [none, none]) hargs fun args h => ?_
  obtain rfl := List.eq_of_mem_replicate h
  exact ⟨["a", "b"], [], [none, none], [], rfl, rfl, .cons (fun _ h => by cases h) (.cons (fun _ h => by cases h) .nil), .nil⟩

theorem secret_generated :
    ∃ g t r d, (Hooks.none fun _ => false).run [] secretProject (.ofClass "E") () = ((), .ok g) ∧ g.table = some t ∧
      t.ref? 0 = some r ∧ g.workspace.declaration? r = some d ∧ d.params.map (·.name) = ["a"] ∧
      ∃ e ∈ d.entries, e.argumentNames? = some [none, none] := by
  have hparams : (((Hooks.none fun _ => false).run [] secretProject (.ofClass "E") ()).2.toOption.bind fun g =>
      g.table.bind fun t => (t.ref? 0).bind fun r => (g.workspace.declaration? r).map fun d =>
        (d.params.map (·.name), d.entries.map EnumEntry.argumentNames?)) =
      some (["a"], [some [none, none], some [none, none]]) := by
    decide +kernel
  obtain ⟨g, hg, hparams⟩ := Option.bind_eq_some_iff.mp hparams
  obtain ⟨t, ht, hparams⟩ := Option.bind_eq_some_iff.mp hparams
  obtain ⟨r, hr, hparams⟩ := Option.bind_eq_some_iff.mp hparams
  obtain ⟨d, hd, hparams⟩ := Option.map_eq_some_iff.mp hparams
  obtain ⟨hnames, hargs⟩ := Prod.mk.inj hparams
  have hmem : some [none, none] ∈ d.entries.map EnumEntry.argumentNames? := by
    rw [hargs]
    exact List.mem_cons_self
  exact ⟨g, t, r, d, eq_ok_of_toOption hg, ht, hr, hd, hnames, List.mem_map.mp hmem⟩

/-- The counterpart has no parameter for the private one, whose arguments the constants keep. -/
theorem secret_not_filled :
    ∃ g, (Hooks.none fun _ => false).run [] secretProject (.ofClass "E") () = ((), .ok g) ∧ ¬ g.EntriesFilled secretProject := by
  obtain ⟨g, t, r, d, hg, ht, hr, hd, hnames, e, he, hargs⟩ := secret_generated
  refine ⟨g, hg, fun ⟨t', ht', hfilled⟩ => ?_⟩
  cases ht.symm.trans ht'
  obtain ⟨args, hread, hfills⟩ := hfilled 0 r d secret_arguments.1 hr hd secret_passes e he
  cases hargs.symm.trans hread
  rw [hnames] at hfills
  cases hfills.length_eq

end Counterpart
