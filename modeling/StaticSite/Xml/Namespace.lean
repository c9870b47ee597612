import StaticSite.Xml.Attribute

namespace StaticSite.Xml
open StaticSite.Text

structure Binding where
  namePrefix : List Char
  uri : List Char
  deriving DecidableEq, Repr

abbrev Scope := List Binding

namespace Scope

def base : Scope :=
  [⟨"xml".toList, xmlNamespace⟩, ⟨"xmlns".toList, xmlnsNamespace⟩]

/-- A prefix that was last bound to the empty text is not bound. The empty prefix is that of the
default namespace and cannot be written in front of a colon. -/
def binds (scope : Scope) (namePrefix : List Char) : Bool :=
  !namePrefix.isEmpty &&
  match scope.find? (·.namePrefix = namePrefix) with
  | some binding => !binding.uri.isEmpty
  | none => false

def undeclared? (scope : Scope) (name : List Char) : Option (List Char) :=
  (namePrefix? name).filter (!scope.binds ·)

end Scope

def Scope.extend (scope : Scope) : List Attribute → Except BindingError Scope
  | [] => .ok scope
  | a :: as =>
    if a.key = "xmlns".toList then Scope.extend (⟨[], a.value⟩ :: scope) as
    else
      match after? "xmlns:".toList a.key with
      | none => scope.extend as
      | some name =>
        if name = "xml".toList then
          if a.value = xmlNamespace then scope.extend as else .error (.rebindsXml a.value)
        else if name = "xmlns".toList then .error (.rebindsXmlns a.value)
        else if a.value = xmlNamespace then .error (.otherPrefixForXml name)
        else if a.value = xmlnsNamespace then .error (.otherPrefixForXmlns name)
        else Scope.extend (⟨name, a.value⟩ :: scope) as

end StaticSite.Xml
