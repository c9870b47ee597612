import StaticSite.FileTree.Walk

namespace StaticSite.Sprite
open StaticSite.Text

structure Icon where
  path : Path
  relative : Path
  id : List Char
  deriving DecidableEq, Repr

namespace Icon

def hasExtension (p : Path) : Bool :=
  p.extension?.any (sameLetters "svg".toList)

def ofPath? (root path : Path) : Option Icon := do
  let relative ← path.relativeTo? root
  let id ← path.fileStem?
  some ⟨path, relative, id⟩

def scan (t : FileTree) (root : Path) : List Icon :=
  let files := (t.below root).filter fun p => hasExtension p && t.isFile p
  (files.filterMap (ofPath? root)).mergeSort fun a b => !b.relative.before a.relative

end Icon

end StaticSite.Sprite
