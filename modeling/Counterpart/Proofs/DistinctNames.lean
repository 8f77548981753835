/-
Projects whose classes have distinct qualified names. There a name leads to one class at most, whatever comes first
(`find?_iff`, `findNested?_iff`), so the order of the files has no say in what a name means (`Reordered.renumbered`).
-/
import Mathlib.Data.List.Nodup
import Counterpart.Proofs.Renumbering
import Counterpart.Proofs.Reordering

namespace Counterpart

/-- When one element at most will do, the first that will do is that one. -/
theorem find?_eq_some_iff_of_unique {α : Type} {l : List α} {P : α → Bool}
    (h : ∀ a ∈ l, ∀ b ∈ l, P a = true → P b = true → a = b) {a : α} : l.find? P = some a ↔ a ∈ l ∧ P a = true := by
  refine ⟨fun ha => ⟨List.mem_of_find?_eq_some ha, List.find?_some ha⟩, fun ⟨ha, hP⟩ => ?_⟩
  cases hfind : l.find? P with
  | none => exact absurd hP (List.find?_eq_none.mp hfind a ha)
  | some b => rw [h a ha b (List.mem_of_find?_eq_some hfind) hP (List.find?_some hfind)]

namespace Project

variable {p p' : Project} {c d : Nat}

/-- The qualified names of all classes, in order. -/
def qualifiedNames (p : Project) : List String := (List.range p.classes.size).map p.qualifiedName

theorem eq_of_qualifiedName (h : p.qualifiedNames.Nodup) (hc : c < p.classes.size) (hd : d < p.classes.size)
    (heq : p.qualifiedName c = p.qualifiedName d) : c = d :=
  List.inj_on_of_nodup_map h (List.mem_range.mpr hc) (List.mem_range.mpr hd) heq

/-- **A qualified name** leads to the class that has it. -/
theorem find?_iff (h : p.qualifiedNames.Nodup) {name : String} :
    p.find? name = some c ↔ c < p.classes.size ∧ p.qualifiedName c = name := by
  rw [find?, find?_eq_some_iff_of_unique, List.mem_range, beq_iff_eq]
  intro a ha b hb hname hname'
  refine eq_of_qualifiedName h (List.mem_range.mp ha) (List.mem_range.mp hb) ?_
  rw [eq_of_beq hname, eq_of_beq hname']

/-- The classes that satisfy a condition, by their numbers. -/
theorem Loaded.mem_map_id (h : p.Loaded) {P : ClassDecl → Bool} :
    d ∈ (p.classes.toList.filter P).map (·.id) ↔ d < p.classes.size ∧ P (p.decl d) = true := by
  have hget : ∀ i (hi : i < p.classes.size), p.decl i = p.classes[i] := fun i hi => by simp [decl, hi]
  constructor
  · intro hd
    obtain ⟨e, he, rfl⟩ := List.mem_map.mp hd
    obtain ⟨hmem, hP⟩ := List.mem_filter.mp he
    obtain ⟨i, hi, rfl⟩ := Array.getElem_of_mem (Array.mem_def.mpr hmem)
    have hid : p.classes[i].id = i := hget i hi ▸ (h.wellNumbered hi).id
    rw [hid, hget i hi]
    exact ⟨hi, hP⟩
  · rintro ⟨hd, hP⟩
    refine List.mem_map.mpr ⟨p.decl d, List.mem_filter.mpr ⟨?_, hP⟩, (h.wellNumbered hd).id⟩
    rw [hget d hd]
    exact Array.getElem_mem_toList hd

theorem Loaded.nodup_map_id (h : p.Loaded) (P : ClassDecl → Bool) :
    ((p.classes.toList.filter P).map (·.id)).Nodup := by
  refine (List.filter_sublist.map ClassDecl.id).nodup ?_
  have hids : p.classes.toList.map (·.id) = List.range p.classes.size := by
    refine List.ext_getElem (by simp) fun i hi _ => ?_
    have hi' : i < p.classes.size := by simpa using hi
    have hget : p.decl i = p.classes[i] := by simp [decl, hi']
    simpa [hget] using (h.wellNumbered hi').id
  rw [hids]
  exact List.nodup_range

/-- Classes of one name inside one class have the same qualified name. -/
theorem Loaded.qualifiedName_eq_of_parent? (h : p.Loaded) {parent : Nat} (hc : c < p.classes.size)
    (hd : d < p.classes.size) (hparent : (p.decl c).parent? = some parent) (hparent' : (p.decl d).parent? = some parent)
    (hname : (p.decl c).name = (p.decl d).name) : p.qualifiedName c = p.qualifiedName d := by
  have haround : ∀ {e : Nat}, e < p.classes.size → (p.decl e).parent? = some parent →
      (p.decl e).enclosing = parent :: (p.decl parent).enclosing ∧ (p.decl e).file = (p.decl parent).file := by
    intro e he hparent
    obtain henclosing | ⟨e', -, henclosing, hfile⟩ := (h.wellNumbered he).enclosing
    · rw [ClassDecl.parent?, henclosing] at hparent
      cases hparent
    · rw [ClassDecl.parent?, henclosing] at hparent
      cases hparent
      exact ⟨henclosing, hfile.symm⟩
  obtain ⟨henclosing, hfile⟩ := haround hc hparent
  obtain ⟨henclosing', hfile'⟩ := haround hd hparent'
  simp only [qualifiedName, nestedPath, packageOf, fileOf, henclosing, henclosing', hfile, hfile', List.reverse_cons,
    List.map_append, List.map_cons, hname]

/-- **A name inside a class** leads to the class that has it. -/
theorem Loaded.findNested?_iff (h : p.Loaded) (hnames : p.qualifiedNames.Nodup) {name : String} :
    p.findNested? c name = some d ↔
      d < p.classes.size ∧ (p.decl d).parent? = some c ∧ (p.decl d).name = name := by
  rw [findNested?, find?_eq_some_iff_of_unique, nested, h.mem_map_id, beq_iff_eq, beq_iff_eq, and_assoc]
  intro a ha b hb hname hname'
  rw [nested, h.mem_map_id, beq_iff_eq] at ha hb
  refine eq_of_qualifiedName hnames ha.1 hb.1 (h.qualifiedName_eq_of_parent? ha.1 hb.1 ha.2 hb.2 ?_)
  rw [eq_of_beq hname, eq_of_beq hname']

/-! ## Another order of the files -/

namespace Reordered

variable {φ ψ : Equiv.Perm Nat}

theorem alike_decl (h : Reordered φ ψ p p') (c : Nat) : (p.decl c).Alike φ (p'.decl (φ c)) := by
  by_cases hc : c < p.classes.size
  · rw [h.decl c hc]
    exact ⟨rfl, rfl, rfl, rfl, rfl, rfl⟩
  · have hle := Nat.le_of_not_lt hc
    rw [h.fixed c hle, decl_of_size_le hle, decl_of_size_le (h.classes ▸ hle)]
    exact ⟨rfl, rfl, rfl, rfl, rfl, rfl⟩

theorem alike (h : Reordered φ ψ p p') (hp : p.Loaded) : p.Alike φ (· < p.classes.size) p' where
  injective := φ.injective
  size c := by rw [h.classes, h.lt_iff]
  decl := h.alike_decl
  fileOf c hc := by
    obtain ⟨hpath, hpackage, himports⟩ := h.file (p.decl c).file
    rw [Project.fileOf, Project.fileOf, h.decl c hc]
    exact ⟨hpath, hpackage, himports⟩
  outermost c hc := by
    rw [h.decl c hc, ClassDecl.outermost, ClassDecl.outermost, ClassDecl.renumber]
    cases hlast : (p.decl c).enclosing.getLast? with
    | none => simp [List.getLast?_eq_none_iff.mp hlast]
    | some e => rw [List.getLastD_eq_getLast?, List.getLastD_eq_getLast?, List.getLast?_map, hlast]; rfl
  supported c hc := lt_size_of_isSupported hc
  dom_enclosing c hc e he := Nat.lt_trans (hp.lt_of_mem_enclosing hc he) hc
  dom_outermost c hc := hp.outermost_lt hc

/-- The classes have distinct names in the other order too. -/
theorem nodup_qualifiedNames (h : Reordered φ ψ p p') (hp : p.Loaded) (hnames : p.qualifiedNames.Nodup) :
    p'.qualifiedNames.Nodup := by
  refine List.Nodup.map_on (fun a ha b hb heq => ?_) List.nodup_range
  obtain ⟨a, rfl⟩ := φ.surjective a
  obtain ⟨b, rfl⟩ := φ.surjective b
  rw [List.mem_range, h.classes, h.lt_iff] at ha hb
  have halike := h.alike hp
  rw [halike.qualifiedName ha, halike.qualifiedName hb] at heq
  rw [eq_of_qualifiedName hnames ha hb heq]

/-- **The order of the files** has no say in what a name means. -/
theorem renumbered (h : Reordered φ ψ p p') (hp : p.Loaded) (hp' : p'.Loaded) (hnames : p.qualifiedNames.Nodup) :
    p.Renumbered φ (· < p.classes.size) p' := by
  have halike := h.alike hp
  have hnames' := h.nodup_qualifiedNames hp hnames
  have hmap : ∀ {o : Option Nat} {c : Nat}, o.map φ = some (φ c) ↔ o = some c := by
    intro o c
    rw [← Option.map_some]
    exact (Option.map_injective φ.injective).eq_iff
  exact { halike with
    find? := fun name => Option.ext fun c => by
      obtain ⟨c, rfl⟩ := φ.surjective c
      rw [hmap, find?_iff hnames', find?_iff hnames, h.classes, h.lt_iff]
      exact and_congr_right fun hc => by rw [halike.qualifiedName hc]
    findNested? := fun c name => Option.ext fun d => by
      obtain ⟨d, rfl⟩ := φ.surjective d
      rw [hmap, hp'.findNested?_iff hnames', hp.findNested?_iff hnames, h.classes, h.lt_iff, halike.parent?, hmap,
        (halike.decl d).name]
    dom_find? := fun name c hc => ((find?_iff hnames).mp hc).1
    dom_nested := fun c name d hd => ((hp.findNested?_iff hnames).mp hd).1 }

end Reordered

end Project

end Counterpart
