import StaticSite.Svg.Optimizer
import StaticSite.Xml.Reference

namespace StaticSite.Svg
open StaticSite.Text StaticSite.Xml

structure Root where
  viewBox : Option (List Char)
  inner : List Char
  namespaces : List (List Char × List Char)
  deriving DecidableEq, Repr

namespace Root

def viewBoxKey : List Char := "viewBox".toList

def viewBoxOf (t : Tag) : Except DocumentError (Option (List Char)) :=
  let reading := t.attributes
  match reading.attributes.find? (·.key = viewBoxKey), reading.failure with
  | some a, _ => .ok (some ((unescape a.value).toOption.getD a.value))
  | none, some e => .error (.badAttribute e)
  | none, none => .ok none

def namespaceOf (a : Attribute) : Option (List Char × List Char) :=
  match after? "xmlns:".toList a.key, unescape a.value with
  | some name, .ok uri => some (name, uri)
  | _, _ => none

def namespacesOf (t : Tag) : Except DocumentError (List (List Char × List Char)) :=
  match t.attributes with
  | ⟨_, some e⟩ => .error (.badAttribute e)
  | ⟨as, none⟩ => .ok (as.filterMap namespaceOf)

def contentOf : Nat → List Event → Option (List Event)
  | _, [] => none
  | 0, .closing _ :: _ => some []
  | depth + 1, .closing name :: es => (contentOf depth es).map (.closing name :: ·)
  | depth, .opening t :: es => (contentOf (depth + 1) es).map (.opening t :: ·)
  | depth, e :: es => (contentOf depth es).map (e :: ·)

def isSvg (t : Tag) : Bool :=
  localName t.name = "svg".toList

def isElement : Event → Bool
  | .opening _ | .empty _ => true
  | _ => false

/-- The first element, if it is named `svg`. What follows it is not read. -/
def ofText? (source : List Char) : Except DocumentError (Option Root) :=
  let reading := Reading.ofText source
  match reading.events.dropWhile (!isElement ·) with
  | .opening t :: es =>
    if isSvg t then do
      let viewBox ← viewBoxOf t
      let namespaces ← namespacesOf t
      match contentOf 0 es, reading.failure with
      | some content, _ => .ok (some ⟨viewBox, render content, namespaces⟩)
      | none, some e => .error (.xml e)
      | none, none => .error .unclosed
    else .ok none
  | .empty t :: _ =>
    if isSvg t then do
      let viewBox ← viewBoxOf t
      let namespaces ← namespacesOf t
      .ok (some ⟨viewBox, [], namespaces⟩)
    else .ok none
  | _ =>
    match reading.failure with
    | some e => .error (.xml e)
    | none => .ok none

end Root

end StaticSite.Svg
