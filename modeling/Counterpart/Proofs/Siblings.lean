/-
Paths beside a file. The directory of a file is written in one of four forms (`Path.IsDirectory`). A name without a slash that is
joined to it is a child of it; a name with a slash is the name of no file (`Path.child_join_iff`).
-/
import Mathlib.Data.List.Basic
import Counterpart.Path

namespace Counterpart

open Text

/-! ## Pieces -/

namespace PathPart

theorem ofPiece?_eq_normal {piece name : String} (h : ofPiece? piece = some (.normal name)) : name = piece := by
  unfold ofPiece? at h
  split_ifs at h
  · cases h
  · exact (PathPart.normal.inj (Option.some.inj h)).symm

theorem ofPiece?_of_length {piece : String} (h : 2 < piece.length) : ofPiece? piece = some (.normal piece) := by
  have hne : ∀ s : String, s.length ≤ 2 → piece ≠ s := fun s hs heq => by
    rw [heq] at h
    omega
  rw [ofPiece?, if_neg (by simp [hne "" (by decide), hne "." (by decide)]), if_neg (hne ".." (by decide))]

end PathPart

namespace Path

/-- A piece stands for a part. -/
def IsPart (piece : String) : Prop := (PathPart.ofPiece? piece).isSome = true

theorem isPart_iff {piece : String} : IsPart piece ↔ piece ≠ "" ∧ piece ≠ "." := by
  rw [IsPart, PathPart.ofPiece?]
  split_ifs with hfiller hparent
  · simpa [or_iff_not_imp_left] using hfiller
  · simp [hparent]
  · simpa using hfiller

theorem dropFiller_head? (pieces : List String) : ∀ w ∈ (dropFiller pieces).head?, IsPart w := by
  intro w hw
  have h := List.head?_dropWhile_not (fun piece => (PathPart.ofPiece? piece).isNone) pieces
  rw [dropFiller] at hw
  rw [hw] at h
  simpa [IsPart, Option.isSome_iff_ne_none, Option.isNone_iff_eq_none] using h

theorem dropFiller_eq_self {pieces : List String} (h : ∀ w ∈ pieces.head?, IsPart w) : dropFiller pieces = pieces := by
  cases pieces with
  | nil => rfl
  | cons w ws =>
    have hw : (PathPart.ofPiece? w).isSome = true := h w rfl
    rw [dropFiller, List.dropWhile_cons_of_neg]
    simpa [Option.isSome_iff_ne_none] using hw

theorem beforeLast?_concat (pieces : List String) {name : String} (hname : IsPart name) :
    beforeLast? (pieces ++ [name]) = some (dropFiller pieces.reverse) := by
  have hdrop : dropFiller (name :: pieces.reverse) = name :: pieces.reverse :=
    dropFiller_eq_self fun w hw => by cases hw; exact hname
  rw [beforeLast?, List.reverse_append, List.reverse_singleton, List.singleton_append, hdrop]

theorem slash_notMem_of_mem_pieces {p : Path} {piece : String} (h : piece ∈ p.pieces) : '/' ∉ piece.toList := by
  obtain ⟨w, hw, rfl⟩ := List.mem_map.mp h
  rw [String.toList_ofList]
  intro hslash
  simpa using not_of_mem_splitBy hw '/' hslash

theorem pieces_eq {p : Path} {pieces : List String} (hne : pieces ≠ []) (h : ∀ w ∈ pieces, '/' ∉ w.toList)
    (htext : p.text = Text.join "/" pieces) : p.pieces = pieces := by
  rw [Path.pieces, htext]
  exact (split_join_iff hne).mpr h

/-! ## File names -/

/-- The name of a file has no slash in it. -/
theorem slash_notMem_of_fileName? {p : Path} {name : String} (h : p.fileName? = some name) : '/' ∉ name.toList := by
  have hpart : .normal name ∈ p.parts := by
    unfold fileName? at h
    split at h
    next hlast =>
      cases h
      exact List.mem_of_getLast? hlast
    next => cases h
  have hfound : .normal name ∈ p.pieces.filterMap PathPart.ofPiece? := by
    simp only [parts] at hpart
    split_ifs at hpart <;> simpa using hpart
  obtain ⟨piece, hpiece, hnormal⟩ := List.mem_filterMap.mp hfound
  rw [PathPart.ofPiece?_eq_normal hnormal]
  exact slash_notMem_of_mem_pieces hpiece

theorem fileName?_of_pieces {p : Path} {pieces : List String} {name : String} (h : p.pieces = pieces ++ [name])
    (hname : PathPart.ofPiece? name = some (.normal name)) : p.fileName? = some name := by
  have hfound : p.pieces.filterMap PathPart.ofPiece? = pieces.filterMap PathPart.ofPiece? ++ [.normal name] := by
    rw [h, List.filterMap_append]
    simp [hname]
  have hlast : p.parts.getLast? = some (.normal name) := by
    simp only [parts, hfound]
    split_ifs
    · exact List.getLast?_concat (l := PathPart.root :: _)
    · exact List.getLast?_concat (l := PathPart.current :: _)
    · exact List.getLast?_concat
  rw [fileName?, hlast]

/-! ## Directories -/

/-- The forms in which the directory of a file is written. -/
inductive IsDirectory : Path → Prop
  | here : IsDirectory ⟨""⟩
  | absolute {pieces : List String} (hslash : ∀ w ∈ pieces, '/' ∉ w.toList) (hlast : ∀ w ∈ pieces.getLast?, IsPart w) :
    IsDirectory ⟨"/" ++ Text.join "/" pieces⟩
  | current {pieces : List String} (hslash : ∀ w ∈ pieces, '/' ∉ w.toList) (hlast : ∀ w ∈ pieces.getLast?, IsPart w) :
    IsDirectory ⟨Text.join "/" ("." :: pieces)⟩
  | relative {first : String} {pieces : List String} (hfirst : IsPart first)
    (hslash : ∀ w ∈ first :: pieces, '/' ∉ w.toList) (hlast : ∀ w ∈ (first :: pieces).getLast?, IsPart w) :
    IsDirectory ⟨Text.join "/" (first :: pieces)⟩

theorem beforeLast?_some {pieces before : List String} (h : beforeLast? pieces = some before)
    (hslash : ∀ w ∈ pieces, '/' ∉ w.toList) :
    before.reverse <+: pieces ∧ (∀ w ∈ before.reverse, '/' ∉ w.toList) ∧ ∀ w ∈ before.reverse.getLast?, IsPart w := by
  unfold beforeLast? at h
  split at h
  next => cases h
  next last rest hrest =>
    cases h
    have hsuffix : dropFiller rest <:+ pieces.reverse := by
      have hdrop : dropFiller pieces.reverse <:+ pieces.reverse := List.dropWhile_suffix _
      rw [hrest] at hdrop
      exact ((List.dropWhile_suffix _).trans (List.suffix_cons last rest)).trans hdrop
    have hfront : (dropFiller rest).reverse <+: pieces := by simpa using List.reverse_prefix.mpr hsuffix
    refine ⟨hfront, fun w hw => hslash w (hfront.subset hw), fun w hw => ?_⟩
    rw [List.getLast?_reverse] at hw
    exact dropFiller_head? rest w hw

theorem isDirectory_dir (p : Path) : p.dir.IsDirectory := by
  have hpieces : ∀ w ∈ p.pieces, '/' ∉ w.toList := fun w hw => slash_notMem_of_mem_pieces hw
  rw [dir, parent?]
  split
  next piece rest heq =>
    rw [heq] at hpieces
    cases hbefore : beforeLast? (piece :: rest) with
    | none => exact .here
    | some before =>
      obtain ⟨-, hslash, hlast⟩ := beforeLast?_some hbefore fun w hw => hpieces w (List.mem_cons_of_mem _ hw)
      exact .absolute hslash hlast
  next rest heq =>
    rw [heq] at hpieces
    cases hbefore : beforeLast? rest with
    | none => exact .here
    | some before =>
      obtain ⟨-, hslash, hlast⟩ := beforeLast?_some hbefore fun w hw => hpieces w (List.mem_cons_of_mem _ hw)
      exact .current hslash hlast
  next habsolute hcurrent =>
    cases hbefore : beforeLast? p.pieces with
    | none => exact .here
    | some before =>
      obtain ⟨hfront, hslash, hlast⟩ := beforeLast?_some hbefore hpieces
      cases hreverse : before.reverse with
      | nil =>
        simp only [Option.map_some, Option.getD_some, hreverse]
        exact .here
      | cons first pieces =>
        simp only [Option.map_some, Option.getD_some, hreverse]
        rw [hreverse] at hfront hslash hlast
        obtain ⟨rest, hrest⟩ := hfront
        refine .relative (isPart_iff.mpr ⟨?_, ?_⟩) hslash hlast
        · rintro rfl
          cases pieces with
          | nil => exact (isPart_iff.mp (hlast "" rfl)).1 rfl
          | cons piece pieces => exact habsolute piece (pieces ++ rest) hrest.symm
        · rintro rfl
          exact hcurrent (pieces ++ rest) hrest.symm

/-! ## Children -/

theorem join_concat (pieces : List String) (last : String) :
    ∃ before, Text.join "/" (pieces ++ [last]) = before ++ last := by
  cases pieces with
  | nil => exact ⟨"", by simp [Text.join]⟩
  | cons w ws => exact ⟨_, join_append (List.cons_ne_nil w ws) (List.cons_ne_nil last [])⟩

/-- A text that ends with a piece that is not empty does not end with a slash. -/
theorem endsWith_join {last : String} (hlast : last ≠ "") (hslash : '/' ∉ last.toList) (pieces : List String) :
    (Text.join "/" (pieces ++ [last])).endsWith "/" = false := by
  obtain ⟨before, htext⟩ := join_concat pieces last
  rw [Bool.eq_false_iff]
  intro hends
  rw [htext, String.endsWith, String.Slice.endsWith_string_iff] at hends
  obtain ⟨front, hfront⟩ : ['/'] <:+ before.toList ++ last.toList := by simpa using hends
  have hne : last.toList ≠ [] := by simpa using hlast
  have hlast? : last.toList.getLast? = some '/' := by
    rw [← List.getLast?_append_of_ne_nil before.toList hne, ← hfront, List.getLast?_concat]
  exact hslash (List.mem_of_getLast? hlast?)

theorem beforeLast?_child {pieces : List String} (hlast : ∀ w ∈ pieces.getLast?, IsPart w) {name : String}
    (hname : IsPart name) : beforeLast? (pieces ++ [name]) = some pieces.reverse := by
  rw [beforeLast?_concat pieces hname, dropFiller_eq_self]
  rwa [List.head?_reverse]

theorem parent?_absolute {p : Path} {rest : List String} (hpieces : p.pieces = "" :: rest) (hrest : rest ≠ []) :
    p.parent? = (beforeLast? rest).map fun before => ⟨"/" ++ Text.join "/" before.reverse⟩ := by
  obtain ⟨piece, rest, rfl⟩ := List.exists_cons_of_ne_nil hrest
  simp only [parent?, hpieces]

theorem parent?_current {p : Path} {rest before : List String} (hpieces : p.pieces = "." :: rest)
    (hbefore : beforeLast? rest = some before) : p.parent? = some ⟨Text.join "/" ("." :: before.reverse)⟩ := by
  simp only [parent?, hpieces, hbefore]

theorem parent?_relative {p : Path} {first : String} {rest : List String} (hpieces : p.pieces = first :: rest)
    (hfirst : IsPart first) : p.parent? = (beforeLast? p.pieces).map fun before => ⟨Text.join "/" before.reverse⟩ := by
  obtain ⟨hempty, hdot⟩ := isPart_iff.mp hfirst
  rw [parent?, hpieces]
  split
  next heq => exact absurd (List.cons.inj heq).1 hempty
  next heq => exact absurd (List.cons.inj heq).1 hdot
  next => rfl

section Join

variable {pieces : List String} {name : String} (hslash : '/' ∉ name.toList)
include hslash

theorem not_isAbsolute : (⟨name⟩ : Path).isAbsolute = false := by
  rw [isAbsolute, Bool.eq_false_iff]
  intro hstarts
  have hfront : ['/'] <+: name.toList := by simpa using hstarts
  exact hslash (hfront.subset List.mem_cons_self)

theorem pieces_child (hpieces : ∀ w ∈ pieces, '/' ∉ w.toList) :
    (⟨Text.join "/" (pieces ++ [name])⟩ : Path).pieces = pieces ++ [name] := by
  refine pieces_eq (by simp) (fun w hw => ?_) rfl
  rcases List.mem_append.mp hw with hw | hw
  · exact hpieces w hw
  · rwa [List.mem_singleton.mp hw]

/-- A name is written behind the pieces of a directory. -/
theorem join_eq (hne : pieces ≠ []) (hpieces : ∀ w ∈ pieces, '/' ∉ w.toList)
    (hlast : ∀ w ∈ pieces.getLast?, w ≠ "") :
    (⟨Text.join "/" pieces⟩ : Path).join ⟨name⟩ = ⟨Text.join "/" (pieces ++ [name])⟩ := by
  obtain ⟨before, last, rfl⟩ := (List.eq_nil_or_concat' pieces).resolve_left hne
  have hlast : last ≠ "" := hlast last List.getLast?_concat
  have htext : Text.join "/" (before ++ [last]) ≠ "" := by
    obtain ⟨_, htext⟩ := join_concat before last
    simp [htext, hlast]
  have hends := endsWith_join hlast (hpieces last (by simp)) before
  rw [join, not_isAbsolute hslash, if_neg (by simp [htext]), hends, if_neg (by simp),
    join_append hne (List.cons_ne_nil name [])]
  rfl

theorem join_absolute (hpieces : ∀ w ∈ pieces, '/' ∉ w.toList) (hlast : ∀ w ∈ pieces.getLast?, IsPart w) :
    (⟨"/" ++ Text.join "/" pieces⟩ : Path).join ⟨name⟩ = ⟨Text.join "/" ("" :: pieces ++ [name])⟩ := by
  cases pieces with
  | nil =>
    have hends : ("/" : String).endsWith "/" = true := by
      rw [String.endsWith, String.Slice.endsWith_string_iff]
      simp
    rw [join, not_isAbsolute hslash]
    simp [Text.join, hends]
  | cons w ws =>
    have hpieces : ∀ v ∈ "" :: w :: ws, '/' ∉ v.toList := by simpa using hpieces
    have hjoin := join_eq hslash (List.cons_ne_nil _ _) hpieces (by simpa using fun w hw => (isPart_iff.mp (hlast w hw)).1)
    rwa [join_cons (List.cons_ne_nil w ws), String.empty_append] at hjoin

end Join

/-- **A name without a slash** that is joined to a directory is a child of it. -/
theorem child_join {d : Path} (hd : d.IsDirectory) {name : String} (hslash : '/' ∉ name.toList)
    (hname : PathPart.ofPiece? name = some (.normal name)) :
    (d.join ⟨name⟩).parent? = some d ∧ (d.join ⟨name⟩).fileName? = some name := by
  have hpart : IsPart name := by rw [IsPart, hname]; rfl
  cases hd with
  | here =>
    have hslashes : ∀ w ∈ ([] : List String), '/' ∉ w.toList := nofun
    have hchild := pieces_child hslash hslashes
    have hjoin : (⟨""⟩ : Path).join ⟨name⟩ = ⟨Text.join "/" ([] ++ [name])⟩ := by
      rw [join, if_pos (by simp)]
      rfl
    rw [hjoin]
    refine ⟨?_, fileName?_of_pieces hchild hname⟩
    rw [parent?_relative hchild hpart, hchild, beforeLast?_child (by simp) hpart]
    rfl
  | @absolute pieces hpieces hlast =>
    have hslashes : ∀ w ∈ "" :: pieces, '/' ∉ w.toList := by simpa using hpieces
    have hchild := pieces_child hslash hslashes
    rw [join_absolute hslash hpieces hlast]
    refine ⟨?_, fileName?_of_pieces hchild hname⟩
    rw [parent?_absolute (hchild.trans List.cons_append) (by simp), beforeLast?_child hlast hpart, Option.map_some, List.reverse_reverse]
  | @current pieces hpieces hlast =>
    have hslashes : ∀ w ∈ "." :: pieces, '/' ∉ w.toList := by simpa using hpieces
    have hchild := pieces_child hslash hslashes
    have hwritten : ∀ w ∈ ("." :: pieces).getLast?, w ≠ "" := by
      cases pieces with
      | nil => simp
      | cons w ws => exact fun v hv => (isPart_iff.mp (hlast v hv)).1
    rw [join_eq hslash (List.cons_ne_nil _ _) hslashes hwritten]
    refine ⟨?_, fileName?_of_pieces hchild hname⟩
    rw [parent?_current hchild (beforeLast?_child hlast hpart), List.reverse_reverse]
  | @relative first pieces hfirst hpieces hlast =>
    have hchild := pieces_child hslash hpieces
    rw [join_eq hslash (List.cons_ne_nil _ _) hpieces fun w hw => (isPart_iff.mp (hlast w hw)).1]
    refine ⟨?_, fileName?_of_pieces hchild hname⟩
    rw [parent?_relative hchild hfirst, hchild, beforeLast?_child hlast hpart, Option.map_some, List.reverse_reverse]

/-- A name that is joined to a directory is a child of it **exactly when it has no slash**. -/
theorem child_join_iff {d : Path} (hd : d.IsDirectory) {name : String} (hlength : 2 < name.length) :
    (d.join ⟨name⟩).parent? = some d ∧ (d.join ⟨name⟩).fileName? = some name ↔ '/' ∉ name.toList :=
  ⟨fun h => slash_notMem_of_fileName? h.2, fun hslash => child_join hd hslash (PathPart.ofPiece?_of_length hlength)⟩

end Path

end Counterpart
