import StaticSite.Text.Blank
import StaticSite.Text.Search

namespace StaticSite.Page
open StaticSite.Text

def isPathChar (c : Char) : Bool :=
  c.isAlphanum || c == '_' || c == '.' || c == '/' || c == '@' || c == '-'

/-- The path at the head of a text and what follows the end of its comment. Two hyphens that close
the comment are not part of the path, though the path may hold hyphens. -/
def pathAndRest? (cs : List Char) : Option (List Char × List Char) :=
  let run := cs.takeWhile isPathChar
  let rest := cs.dropWhile isPathChar
  if run = [] then none
  else
    match after? "-->".toList (rest.dropWhile isWhiteSpace), rest with
    | some rest, _ => some (run, rest)
    | none, '>' :: rest =>
      match run.reverse with
      | '-' :: '-' :: path => if path = [] then none else some (path.reverse, rest)
      | _ => none
    | none, _ => none

def directive? (cs : List Char) : Option (List Char × List Char) := do
  let afterOpen ← after? "<!--".toList cs
  let afterWord ← after? "@import:".toList (afterOpen.dropWhile isWhiteSpace)
  pathAndRest? (afterWord.dropWhile isWhiteSpace)

theorem length_of_pathAndRest? {cs path rest : List Char}
    (h : pathAndRest? cs = some (path, rest)) : rest.length < cs.length := by
  have hsum : (cs.takeWhile isPathChar).length + (cs.dropWhile isPathChar).length = cs.length := by
    rw [← List.length_append, List.takeWhile_append_dropWhile]
  simp only [pathAndRest?] at h
  split at h
  · simp at h
  · rename_i hrun
    have hpos := List.length_pos_iff.2 hrun
    split at h
    · rename_i hafter
      simp only [Option.some.injEq, Prod.mk.injEq] at h
      have hlen := congrArg List.length (after?_eq_some_iff.1 hafter)
      have hblank := length_dropWhile_le isWhiteSpace (cs.dropWhile isPathChar)
      rw [List.length_append, h.2] at hlen
      omega
    · rename_i hrest
      split at h
      · split at h
        · simp at h
        · simp only [Option.some.injEq, Prod.mk.injEq] at h
          rw [hrest, h.2, List.length_cons] at hsum
          omega
      · simp at h
    · simp at h

theorem length_of_directive? {cs path rest : List Char}
    (h : directive? cs = some (path, rest)) : rest.length < cs.length := by
  simp only [directive?, bind, Option.bind_eq_some_iff] at h
  obtain ⟨a, ha, b, hb, hpath⟩ := h
  have h1 := congrArg List.length (after?_eq_some_iff.1 ha)
  have h2 := congrArg List.length (after?_eq_some_iff.1 hb)
  have h3 := length_dropWhile_le isWhiteSpace a
  have h4 := length_dropWhile_le isWhiteSpace b
  have h5 := length_of_pathAndRest? hpath
  rw [List.length_append] at h1 h2
  omega

inductive Piece where
  | literal (c : Char)
  | directive (marker path : List Char)
  deriving DecidableEq, Repr

def Piece.source : Piece → List Char
  | .literal c => [c]
  | .directive marker _ => marker

def pieces (cs : List Char) : List Piece :=
  match cs with
  | [] => []
  | c :: cs =>
    match _h : directive? (c :: cs) with
    | some (path, rest) =>
      .directive ((c :: cs).take ((c :: cs).length - rest.length)) path :: pieces rest
    | none => .literal c :: pieces cs
termination_by cs.length
decreasing_by
  · exact length_of_directive? _h
  · simp

structure Directive where
  start : Nat
  stop : Nat
  path : List Char
  deriving DecidableEq, Repr

def located (offset : Nat) : List Piece → List Directive
  | [] => []
  | .literal c :: ps => located (offset + c.utf8Size) ps
  | .directive marker path :: ps =>
    let stop := offset + byteCount marker
    ⟨offset, stop, path⟩ :: located stop ps

def directives (document : List Char) : List Directive :=
  located 0 (pieces document)

end StaticSite.Page
