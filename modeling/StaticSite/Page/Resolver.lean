import StaticSite.Path
import StaticSite.Text.Search

namespace StaticSite.Page
open StaticSite.Text

/-- Imports that begin with `@components/` start at a directory of their own, if there is a source
root. `here` is the working directory. -/
structure Resolver where
  here : Location
  sourceRoot : Option Path
  componentsDir : List Char
  deriving DecidableEq, Repr

namespace Resolver

def defaultComponentsDir : List Char := "components".toList

def ofRoot (here : Location) (root : Option Path) (componentsDir : List Char) : Resolver :=
  ⟨here, root.map (·.normalize here), componentsDir⟩

def componentsRoot (r : Resolver) : Option Path :=
  r.sourceRoot.map (·.join ⟨r.componentsDir⟩)

def target (r : Resolver) (name : List Char) (base : Path) : Path :=
  match after? "@components/".toList name, r.componentsRoot with
  | some rest, some root => (root.join ⟨rest⟩).normalize r.here
  | _, _ => (base.join ⟨name⟩).normalize r.here

end Resolver

end StaticSite.Page
