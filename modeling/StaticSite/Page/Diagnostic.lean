import StaticSite.Path

namespace StaticSite.Page

inductive Diagnostic where
  | missing (path : Path)
  | circular (path : Path)
  deriving DecidableEq, Repr

namespace Diagnostic

def path : Diagnostic → Path
  | .missing p => p
  | .circular p => p

def text : Diagnostic → List Char
  | .missing p => "Import not found: ".toList ++ p.chars
  | .circular p => "Circular import detected: ".toList ++ p.chars

def breakHyphens : List Char → List Char
  | '-' :: '-' :: cs => '-' :: ' ' :: breakHyphens ('-' :: cs)
  | c :: cs => c :: breakHyphens cs
  | [] => []

def comment (d : Diagnostic) : List Char :=
  "<!-- ".toList ++ breakHyphens d.text ++ " -->".toList

end Diagnostic

end StaticSite.Page
