import StaticSite.Xml.Namespace
import StaticSite.Xml.Reading
import StaticSite.Xml.Reference

namespace StaticSite.Svg
open StaticSite.Xml

inductive StandaloneError where
  | xml (cause : ReadError)
  | badAttribute (cause : AttributeError)
  | undeclaredPrefix (name : List Char)
  | undefinedEntity (name : List Char)
  deriving DecidableEq, Repr

def StandaloneError.message : StandaloneError → String
  | .xml cause => "XML parse error: " ++ cause.message
  | .badAttribute cause => "Invalid attribute: " ++ cause.message
  | .undeclaredPrefix name => "Undeclared namespace prefix `" ++ String.ofList name ++ "`"
  | .undefinedEntity name => "Undefined entity `&" ++ String.ofList name ++ ";`"

def checkAttributes (scope : Scope) : List Attribute → Except StandaloneError Unit
  | [] => .ok ()
  | a :: as =>
    match scope.undeclared? a.key, unescape a.value with
    | some name, _ => .error (.undeclaredPrefix name)
    | none, .error e => .error (.xml (.reference e))
    | none, .ok _ => checkAttributes scope as

def checkTag (scope : Scope) (t : Tag) : Except StandaloneError Scope :=
  match scope.extend t.allAttributes.attributes with
  | .error e => .error (.xml (.binding e))
  | .ok inner =>
    match inner.undeclared? t.name with
    | some name => .error (.undeclaredPrefix name)
    | none =>
      match checkAttributes inner t.attributes.attributes, t.attributes.failure with
      | .error e, _ => .error e
      | .ok _, some e => .error (.badAttribute e)
      | .ok _, none => .ok inner

def isDefined (name : List Char) : Bool :=
  name.head? = some '#' || (predefined? name).isSome

def checkEvents : List Scope → List Event → Except StandaloneError Unit
  | _, [] => .ok ()
  | scopes, .opening t :: es =>
    match checkTag (scopes.headD .base) t with
    | .error e => .error e
    | .ok inner => checkEvents (inner :: scopes) es
  | scopes, .empty t :: es =>
    match checkTag (scopes.headD .base) t with
    | .error e => .error e
    | .ok _ => checkEvents scopes es
  | scopes, .closing _ :: es => checkEvents scopes.tail es
  | scopes, .reference name :: es =>
    if isDefined name then checkEvents scopes es else .error (.undefinedEntity name)
  | scopes, _ :: es => checkEvents scopes es

def checkStandalone (markup : List Char) : Except StandaloneError Unit :=
  let reading := Reading.ofText markup
  match checkEvents [] reading.events, reading.failure with
  | .error e, _ => .error e
  | .ok _, some e => .error (.xml e)
  | .ok _, none => .ok ()

end StaticSite.Svg
