import StaticSite.FileTree
import StaticSite.Text.Percent

namespace StaticSite.Server
open StaticSite.Text

structure Request where
  method : String
  uri : List Char
  headers : List (String × List Char)
  deriving DecidableEq, Repr

namespace Request

def header? (r : Request) (name : String) : Option (List Char) :=
  r.headers.lookup name

def path (r : Request) : List Char :=
  r.uri.takeWhile fun c => c != '?' && c != '#'

end Request

def leadsDown (name : List Char) : Bool :=
  name ≠ ['.'] ∧ name ≠ ['.', '.'] ∧ '\\' ∉ name

def namesIn (path : List Char) : List (List Char) :=
  (Path.splitSlash path).filter (· ≠ [])

def indexFile : Path := .ofString "index.html"

/-- The file that a URL path means, if the path keeps inside the source directory. A directory
stands for its index. -/
def fileOf? (t : FileTree) (source : Path) (url : List Char) : Option Path :=
  match Percent.decode? url with
  | none => none
  | some path =>
    if (namesIn path).all leadsDown then
      let file := source.join ⟨Path.joinSlash (namesIn path)⟩
      if path.getLast? = some '/' ∨ t.isDirectory file then some (file.join indexFile)
      else some file
    else none

def isPage (file : Path) : Bool :=
  file.extension?.any fun e => sameLetters "html".toList e || sameLetters "htm".toList e

end StaticSite.Server
