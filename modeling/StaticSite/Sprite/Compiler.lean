import StaticSite.Sprite.Icon
import StaticSite.Sprite.Symbol
import StaticSite.Svg.Standalone

/-!
The sprite of a directory of icons. An icon that cannot be used is reported and left out.
-/

namespace StaticSite.Sprite
open StaticSite.Svg

inductive SkipReason where
  | unreadable (cause : FileError)
  | notReducible (cause : DocumentError)
  | noSvgRoot
  | notStandalone (cause : StandaloneError)
  deriving DecidableEq, Repr

def SkipReason.message : SkipReason → String
  | .unreadable cause => "read failed: " ++ cause.message
  | .notReducible cause => "optimization failed: " ++ cause.message
  | .noSvgRoot => "no root <svg> element"
  | .notStandalone cause => "unusable outside its document: " ++ cause.message

structure Skipped where
  path : Path
  reason : SkipReason
  deriving DecidableEq, Repr

structure Collision where
  id : List Char
  replaced : Path
  kept : Path
  deriving DecidableEq, Repr

structure Report where
  symbols : List (List Char)
  written : Bool
  skipped : List Skipped
  collisions : List Collision
  deriving DecidableEq, Repr

inductive SpriteError where
  | createDirectory (path : Path) (cause : FileError)
  | write (path : Path) (cause : FileError)
  deriving DecidableEq, Repr

def SpriteError.message : SpriteError → String
  | .createDirectory path cause =>
    "Failed to create directory " ++ path.display ++ ": " ++ cause.message
  | .write path cause => "Failed to write sprite " ++ path.display ++ ": " ++ cause.message

structure Collection where
  symbols : List (Symbol × Path)
  skipped : List Skipped
  collisions : List Collision
  deriving DecidableEq, Repr

namespace Collection

def empty : Collection := ⟨[], [], []⟩

def put (s : Symbol) (source : Path) : List (Symbol × Path) → List (Symbol × Path)
  | [] => [(s, source)]
  | (old, path) :: rest =>
    if old.id = s.id then (s, source) :: rest else (old, path) :: put s source rest

def add (c : Collection) (s : Symbol) (source : Path) : Collection :=
  { c with
    symbols := put s source c.symbols
    collisions := c.collisions ++
      ((c.symbols.find? (·.1.id = s.id)).map fun (_, path) => ⟨s.id, path, source⟩).toList }

def skip (c : Collection) (source : Path) (reason : SkipReason) : Collection :=
  { c with skipped := c.skipped ++ [⟨source, reason⟩] }

end Collection

structure Compiler where
  iconsDir : Path
  output : Path
  optimizer : Optimizer
  deriving DecidableEq, Repr

namespace Compiler

/-- The symbol of an icon's source. It is checked inside a sheet of its own. -/
def symbolOf (o : Optimizer) (id source : List Char) : Except SkipReason Symbol := do
  let reduced ← (o.optimize source).mapError .notReducible
  match ← (Root.ofText? reduced).mapError .notReducible with
  | none => .error .noSvgRoot
  | some root =>
    let s : Symbol := ⟨id, root.viewBox, root.inner, root.namespaces⟩
    (checkStandalone (sheet [s])).mapError .notStandalone
    .ok s

def build (o : Optimizer) (t : FileTree) (icon : Icon) : Except SkipReason Symbol := do
  let source ← (t.readText icon.path).mapError .unreadable
  symbolOf o icon.id source

def collect (o : Optimizer) (t : FileTree) : Collection → List Icon → Collection
  | c, [] => c
  | c, icon :: icons =>
    match build o t icon with
    | .ok s => collect o t (c.add s icon.path) icons
    | .error reason => collect o t (c.skip icon.path reason) icons

def collection (c : Compiler) (t : FileTree) : Collection :=
  collect c.optimizer t .empty (Icon.scan t c.iconsDir)

def sheetOf (c : Compiler) (t : FileTree) : List Char :=
  sheet ((c.collection t).symbols.map (·.1))

def write (c : Compiler) (t : FileTree) : FileTree × Except SpriteError Unit :=
  match t.createParent c.output with
  | (t', .error (path, e)) => (t', .error (.createDirectory path e))
  | (t', .ok _) =>
    match t'.write c.output (.text (c.sheetOf t)) with
    | .ok t'' => (t'', .ok ())
    | .error e => (t', .error (.write c.output e))

def compile (c : Compiler) (t : FileTree) : FileTree × Except SpriteError Report :=
  if (Icon.scan t c.iconsDir).isEmpty then (t, .ok ⟨[], false, [], []⟩)
  else
    let found := c.collection t
    match c.write t with
    | (t, .error e) => (t, .error e)
    | (t, .ok _) =>
      (t, .ok ⟨found.symbols.map (·.1.id), true, found.skipped, found.collisions⟩)

end Compiler

end StaticSite.Sprite
