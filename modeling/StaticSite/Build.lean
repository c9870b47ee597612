import StaticSite.Config.Basic
import StaticSite.Page.Expansion
import StaticSite.Sprite.Compiler

namespace StaticSite.Build
open StaticSite.Page StaticSite.Sprite

structure Plan where
  sourceDir : Path
  componentsDir : List Char
  outDir : Path
  iconsDir : Path
  spriteUrlPath : List Char
  stripAttributes : List (List Char)
  deriving DecidableEq, Repr

namespace Plan

def ofConfiguration (c : Config.Configuration) : Plan :=
  ⟨c.project.sourceDir, c.project.componentsDir, c.project.outDir, c.sprite.iconsDir,
    c.sprite.urlPath, c.sprite.stripAttributes⟩

def spriteOutput (p : Plan) : Path :=
  Config.outputFor p.outDir p.spriteUrlPath

def componentsRoot (p : Plan) : Path :=
  p.sourceDir.join ⟨p.componentsDir⟩

def compiler (p : Plan) : Compiler :=
  ⟨p.iconsDir, p.spriteOutput, .strippingAttributes p.stripAttributes⟩

def resolver (p : Plan) (t : FileTree) : Resolver :=
  .ofRoot t.here (some p.sourceDir) p.componentsDir

end Plan

inductive BuildError where
  | sourceNotFound (path : Path)
  | sprite (cause : SpriteError)
  | page (cause : ReadFailure)
  | write (path : Path) (cause : FileError)
  deriving DecidableEq, Repr

def BuildError.message : BuildError → String
  | .sourceNotFound path => "Source directory not found: " ++ path.display
  | .sprite cause => cause.message
  | .page cause => cause.message
  | .write path cause => "Failed to write " ++ path.display ++ ": " ++ cause.message

structure PageDiagnostic where
  page : Path
  diagnostic : Diagnostic
  deriving DecidableEq, Repr

structure Report where
  pages : List Path
  sprite : Sprite.Report
  diagnostics : List PageDiagnostic
  deriving DecidableEq, Repr

def hasPageName (p : Path) : Bool :=
  match p.fileName? with
  | some name => ".html".toList.isSuffixOf name
  | none => false

/-- The pages of a site by their places in the source directory, in order. Components and what was
built before are no pages. -/
def findPages (t : FileTree) (p : Plan) : List Path :=
  let isPage (path : Path) : Bool :=
    hasPageName path && t.isFile path && !path.startsWith p.componentsRoot &&
      !path.startsWith p.outDir
  Path.sort (((t.below p.sourceDir).filter isPage).filterMap (·.relativeTo? p.sourceDir))

def writePage (t : FileTree) (path : Path) (html : List Char) :
    FileTree × Except BuildError Unit :=
  match t.createParent path with
  | (t, .error (_, e)) => (t, .error (.write path e))
  | (t, .ok _) =>
    match t.write path (.text html) with
    | .ok t => (t, .ok ())
    | .error e => (t, .error (.write path e))

def buildPages (p : Plan) (t : FileTree) :
    List Path → FileTree × Except BuildError (List PageDiagnostic)
  | [] => (t, .ok [])
  | page :: pages =>
    match expandFile t (p.resolver t) (p.sourceDir.join page) with
    | .error e => (t, .error (.page e))
    | .ok expansion =>
      match writePage t (p.outDir.join page) expansion.html with
      | (t, .error e) => (t, .error e)
      | (t, .ok _) =>
        match buildPages p t pages with
        | (t, .error e) => (t, .error e)
        | (t, .ok others) => (t, .ok (expansion.diagnostics.map (⟨page, ·⟩) ++ others))

def build (t : FileTree) (p : Plan) : FileTree × Except BuildError Report :=
  if !t.isDirectory p.sourceDir then (t, .error (.sourceNotFound p.sourceDir))
  else
    match p.compiler.compile t with
    | (t, .error e) => (t, .error (.sprite e))
    | (t, .ok sprite) =>
      let pages := findPages t p
      match buildPages p t pages with
      | (t, .error e) => (t, .error e)
      | (t, .ok diagnostics) => (t, .ok ⟨pages, sprite, diagnostics⟩)

end StaticSite.Build
