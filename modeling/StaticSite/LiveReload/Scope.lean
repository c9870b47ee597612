import StaticSite.Sprite.Icon
import StaticSite.Text.Glob

namespace StaticSite.LiveReload
open StaticSite.Text StaticSite.Sprite

inductive Effect where
  | icon
  | page (url : List Char)
  deriving DecidableEq, Repr

structure Scope where
  sourceDir : Path
  iconsDir : Path
  patterns : List Glob
  deriving DecidableEq, Repr

namespace Scope

def defaultPatterns : List (List Char) := ["**/*.html".toList]

def canonical (t : FileTree) (p : Path) : Path :=
  (t.canonical? p).getD p

def ofDirectories (t : FileTree) (sourceDir iconsDir : Path) (patterns : List (List Char)) : Scope :=
  ⟨canonical t sourceDir, canonical t iconsDir, patterns.filterMap Glob.ofPattern?⟩

def urlOf (relative : Path) : List Char :=
  '/' :: Path.joinSlash (Path.namesOf relative.components)

def classify (s : Scope) (path : Path) : Option Effect :=
  if Icon.hasExtension path && path.startsWith s.iconsDir then some .icon
  else
    (path.relativeTo? s.sourceDir).bind fun relative =>
      if s.patterns.any (·.matchesText relative.chars) then some (.page (urlOf relative)) else none

def roots (s : Scope) (t : FileTree) : List Path :=
  if t.isDirectory s.iconsDir && !s.iconsDir.startsWith s.sourceDir then [s.sourceDir, s.iconsDir]
  else [s.sourceDir]

end Scope

end StaticSite.LiveReload
