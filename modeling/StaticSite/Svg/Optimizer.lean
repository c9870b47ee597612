import StaticSite.Xml.Attribute
import StaticSite.Xml.Reading

namespace StaticSite.Svg
open StaticSite.Xml

inductive DocumentError where
  | xml (cause : ReadError)
  | badAttribute (cause : AttributeError)
  | unclosed
  deriving DecidableEq, Repr

def DocumentError.message : DocumentError → String
  | .xml cause => "XML parse error: " ++ cause.message
  | .badAttribute cause => "Invalid attribute: " ++ cause.message
  | .unclosed => "Unclosed element at end of document"

inductive Transform where
  | removeComments
  | removeProlog
  | removeMetadata
  | collapseWhitespace
  | removeAttribute (name : List Char)
  deriving DecidableEq, Repr

structure Optimizer where
  transforms : List Transform
  deriving DecidableEq, Repr

namespace Optimizer

def general : List Transform :=
  [.removeProlog, .removeComments, .removeMetadata, .collapseWhitespace]

def strippingAttributes (names : List (List Char)) : Optimizer :=
  ⟨general ++ names.map .removeAttribute⟩

def standard : Optimizer :=
  strippingAttributes ["data-name".toList]

variable (o : Optimizer)

def does (t : Transform) : Bool :=
  o.transforms.contains t

def strips (a : Attribute) : Bool :=
  o.does (.removeAttribute a.key)

def isAsciiBlank (c : Char) : Bool :=
  c == ' ' || c == '\t' || c == '\n' || c == '\r' || c == '\x0c'

def isIndentation (content : List Char) : Bool :=
  content.contains '\n' && content.all isAsciiBlank

def isMetadata (t : Tag) : Bool :=
  localName t.name = "metadata".toList

/-- The events outside `metadata` elements. `depth` counts the open elements from the outermost
such element on, and is zero outside. -/
def outsideMetadata : Nat → List Event → List Event
  | _, [] => []
  | 0, .opening t :: es =>
    if isMetadata t then outsideMetadata 1 es else .opening t :: outsideMetadata 0 es
  | 0, .empty t :: es =>
    if isMetadata t then outsideMetadata 0 es else .empty t :: outsideMetadata 0 es
  | 0, e :: es => e :: outsideMetadata 0 es
  | depth + 1, .opening _ :: es => outsideMetadata (depth + 2) es
  | depth + 1, .closing _ :: es => outsideMetadata depth es
  | depth + 1, _ :: es => outsideMetadata (depth + 1) es

def rewriteTag (t : Tag) : Except AttributeError Tag :=
  match t.attributes with
  | ⟨_, some e⟩ => .error e
  | ⟨as, none⟩ => .ok (.ofAttributes t.name (as.filter (!o.strips ·)))

def keeps : Event → Bool
  | .comment _ => !o.does .removeComments
  | .declaration _ | .instruction _ | .doctype _ => !o.does .removeProlog
  | .text content => !(o.does .collapseWhitespace && isIndentation content)
  | _ => true

def rewriteEvent (e : Event) : Except AttributeError Event :=
  match e with
  | .opening t => (o.rewriteTag t).map .opening
  | .empty t => (o.rewriteTag t).map .empty
  | e => .ok e

def rewriteEvents : List Event → Except AttributeError (List Event)
  | [] => .ok []
  | e :: es => do
    let e ← o.rewriteEvent e
    let es ← rewriteEvents es
    .ok (e :: es)

def selected (es : List Event) : List Event :=
  (if o.does .removeMetadata then outsideMetadata 0 es else es).filter o.keeps

end Optimizer

def openElements : Nat → List Event → Nat
  | n, [] => n
  | n, .opening _ :: es => openElements (n + 1) es
  | n, .closing _ :: es => openElements (n - 1) es
  | n, _ :: es => openElements n es

/-- Of several errors, the one that is met first in the source counts. -/
def Optimizer.optimize (o : Optimizer) (source : List Char) :
    Except DocumentError (List Char) :=
  let reading := Reading.ofText source
  match o.rewriteEvents (o.selected reading.events) with
  | .error e => .error (.badAttribute e)
  | .ok events =>
    match reading.failure with
    | some e => .error (.xml e)
    | none =>
      if openElements 0 reading.events = 0 then .ok (render events) else .error .unclosed

end StaticSite.Svg
