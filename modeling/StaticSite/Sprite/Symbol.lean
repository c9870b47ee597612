import StaticSite.Svg.Root
import StaticSite.Xml.Reference

namespace StaticSite.Sprite
open StaticSite.Xml

structure Symbol where
  id : List Char
  viewBox : Option (List Char)
  content : List Char
  namespaces : List (List Char × List Char)
  deriving DecidableEq, Repr

def escapedAttribute (key value : List Char) : List Char :=
  Attribute.render ⟨key, escape value⟩

def Symbol.markup (s : Symbol) : List Char :=
  "<symbol".toList ++ escapedAttribute "id".toList s.id ++
    (match s.viewBox with
      | some v => escapedAttribute "viewBox".toList v
      | none => []) ++
    s.namespaces.flatMap (fun (name, uri) => escapedAttribute ("xmlns:".toList ++ name) uri) ++
    ['>'] ++ s.content ++ "</symbol>".toList

def sheetOpening : List Char :=
  ("<svg xmlns=\"http://www.w3.org/2000/svg\" xmlns:xlink=\"http://www.w3.org/1999/xlink\"" ++
    " style=\"display: none\">").toList

def sheet (symbols : List Symbol) : List Char :=
  sheetOpening ++ symbols.flatMap Symbol.markup ++ "</svg>".toList

end StaticSite.Sprite
