/-
Projects as they are loaded, file by file. A class is numbered after the class around it and is in the same file
(`Loaded.parent`).
-/
import Counterpart.Kotlin.Body
import Counterpart.Project

namespace Counterpart

open Kotlin

/-! ## The classes of a file -/

/-- The class at the place `i` of a list that is numbered from `next`: it has the file of the others, and around it is the
class around all of them, if any, or one that comes before it in the list. -/
def ClassDecl.Follows (file : FileId) (enclosing : List ClassId) (next i : Nat) (c : ClassDecl) : Prop :=
  c.file = file ∧ (c.parent? = enclosing.head? ∨ ∃ parent : Nat, c.parent? = some parent ∧ next ≤ parent ∧ parent < next + i)

mutual

theorem ClassDecl.follows_ofTree {file : FileId} {enclosing : List ClassId} {next i : Nat} {c : ClassDecl} :
    ∀ {t : ClassTree}, (ofTree file enclosing next t)[i]? = some c → c.Follows file enclosing next i
  | ⟨_, _, _, _, _, nested, _⟩, h => by
    rw [ofTree] at h
    cases i with
    | zero =>
      cases h
      exact ⟨rfl, .inl rfl⟩
    | succ i =>
      obtain ⟨hfile, hparent | ⟨parent, hparent, hle, hlt⟩⟩ := follows_ofTrees h
      · exact ⟨hfile, .inr ⟨next, hparent, by omega, by omega⟩⟩
      · exact ⟨hfile, .inr ⟨parent, hparent, by omega, by omega⟩⟩

theorem ClassDecl.follows_ofTrees {file : FileId} {enclosing : List ClassId} {next i : Nat} {c : ClassDecl} :
    ∀ {ts : List ClassTree}, (ofTrees file enclosing next ts)[i]? = some c → c.Follows file enclosing next i
  | [], h => by cases h
  | t :: ts, h => by
    rw [ofTrees, List.getElem?_append] at h
    split at h
    · exact follows_ofTree (t := t) h
    next hi =>
      obtain ⟨hfile, hparent | ⟨parent, hparent, hle, hlt⟩⟩ := follows_ofTrees h
      · exact ⟨hfile, .inl hparent⟩
      · exact ⟨hfile, .inr ⟨parent, hparent, by omega, by omega⟩⟩

end

/-! ## Loaded projects -/

namespace Project

/-- A project made of source files, added one after the other. -/
inductive Loaded : Project → Prop
  | empty : Loaded .empty
  | add {p : Project} (h : Loaded p) (path : Path) (unit : SourceUnit) : Loaded (p.add path unit)

theorem decl_add (p : Project) (path : Path) (unit : SourceUnit) (c : ClassId) :
    (p.add path unit).decl c = if c < p.classes.size then p.decl c
      else (ClassDecl.ofTrees p.files.size [] p.classes.size unit.classes).getD (c - p.classes.size) default := by
  simp only [decl, add, Array.getD_eq_getD_getElem?, Array.getElem?_append, List.getElem?_toArray]
  split
  · rfl
  · rw [List.getD_eq_getElem?_getD]

/-- A class is numbered after the class around it, which is in the same file. -/
theorem Loaded.parent {p : Project} (h : p.Loaded) {c parent : Nat} (hc : (p.decl c).parent? = some parent) :
    parent < c ∧ (p.decl c).file = (p.decl parent).file := by
  induction h with
  | empty => cases hc
  | @add p _ path unit ih =>
    rw [decl_add] at hc
    rw [decl_add]
    by_cases hlt : c < p.classes.size
    · rw [if_pos hlt] at hc ⊢
      obtain ⟨hparent, hfile⟩ := ih hc
      rw [decl_add, if_pos (Nat.lt_trans hparent hlt)]
      exact ⟨hparent, hfile⟩
    · rw [if_neg hlt, List.getD_eq_getElem?_getD] at hc ⊢
      cases hd : (ClassDecl.ofTrees p.files.size [] p.classes.size unit.classes)[c - p.classes.size]? with
      | none =>
        rw [hd] at hc
        cases hc
      | some d =>
        simp only [hd, Option.getD_some] at hc ⊢
        obtain ⟨hfile, hnone | ⟨e, he, hle, hlt'⟩⟩ := ClassDecl.follows_ofTrees hd
        · rw [hc] at hnone
          cases hnone
        · cases hc.symm.trans he
          -- the class around it comes before it among the new ones
          have hlen := (List.getElem?_eq_some_iff.mp hd).1
          have hnew : ¬parent < p.classes.size := by omega
          have hbefore : parent - p.classes.size < (ClassDecl.ofTrees p.files.size [] p.classes.size unit.classes).length := by
            omega
          refine ⟨by omega, ?_⟩
          rw [decl_add, if_neg hnew, List.getD_eq_getElem?_getD, List.getElem?_eq_getElem hbefore, Option.getD_some, hfile]
          exact (ClassDecl.follows_ofTrees (List.getElem?_eq_getElem hbefore)).1.symm

/-- The project with one more file of this text; a text that is no source adds none. -/
def addSource (p : Project) (path source : String) : Project :=
  match SourceUnit.ofSource source with
  | .ok unit => p.add ⟨path⟩ unit
  | .error _ => p

theorem Loaded.addSource {p : Project} (h : p.Loaded) (path source : String) : (p.addSource path source).Loaded := by
  unfold Project.addSource
  split
  · exact h.add _ _
  · exact h

end Project

end Counterpart
